import SchemaCodec.Proofs.Run.OutputSide
import SchemaCodec.Schema.Transform

/-!
Decoding, encoding and decoding again. Encoding is not decoding read backwards: a refinement decodes
with its output side first and then encodes without any refinement, a transformation validates on
both ends. Where transformations can be undone, what was decoded can be encoded, and decoding that
gives it back.
-/

namespace SchemaCodec.Run

open Schema

variable {targets : Targets} {settings : Settings} {schema : Schema}

/-- Some input is decoded to the value. -/
def Produces (targets : Targets) (settings : Settings) (schema : Schema) (value : Value) : Prop :=
  ∃ input, Yields targets settings.decoding schema input (.ok value)

/-- Every value that the target takes is encoded to one that the source decodes to, and decoding
that gives the value back. -/
def Lawful (targets : Targets) (settings : Settings) (expected : Expected) (source target : Schema)
    (decode encode : Transformer) : Prop :=
  ∀ value taken, Yields targets settings.decoding target value (.ok taken) →
    ∃ encoded, encode.apply settings.options expected value = .ok encoded ∧
      Produces targets settings source encoded ∧
      decode.apply settings.options expected encoded = .ok value

/-- A node whose results can be taken back: it is steady, and if it is a transformation, then a
lawful one that never waits, from a schema without recursion. -/
def Reversible (targets : Targets) (settings : Settings) (node : Schema) : Prop :=
  node.kind.Steady ∧
    ∀ source target decode encode strict,
      node.kind = .transform source target decode encode strict →
        source.LazyFree ∧ decode.suspends = false ∧ encode.suspends = false ∧
          Lawful targets settings node.expected source target decode encode

def Returns (targets : Targets) (settings : Settings) (schema : Schema) (value : Value) : Prop :=
  ∃ encoded, Yields targets settings.encoding schema value (.ok encoded) ∧
    Yields targets settings.decoding schema encoded (.ok value)

def AllReturn (targets : Targets) (settings : Settings) (depth : Nat) (schema : Schema) : Prop :=
  ∀ input value, parse targets depth settings.decoding schema input = some (.ok value) →
    Returns targets settings schema value

/-! ### One level -/

/-- What decides about keys gives them back. -/
theorem eq_of_parameter (parameter : schema.isParameter = true) {input value : Value}
    (ran : Yields targets settings.decoding schema input (.ok value)) : value = input := by
  revert ran
  refine parameter_induction parameter (fun schema leaf ran => ?_)
    (fun schema source filter isRefinement ih ran => ?_)
  · exact ((step_leaf leaf).mp (yields_iff_step.mp ran)).2
  · have sourceRan := ((step_refinement_decode isRefinement rfl).mp (yields_iff_step.mp ran)).1
    exact ih (outcome?_eq_some.mp sourceRan)

theorem ItemsMatch.yields {relates : Schema → Value → Value → Prop}
    {elements : List (Element Schema)} {rest : List Schema} {items results : List Value}
    (isTuple : schema.kind = .tuple elements rest)
    (matched : ItemsMatch relates (slots elements rest items.length) items results)
    (required : requiredCount elements rest ≤ items.length)
    (bounded : rest = [] → items.length ≤ elements.length)
    (runs : ∀ child item result, relates child item result →
      Yields targets settings child item (.ok result)) :
    Yields targets settings schema (.array items) (.ok (.array results)) := by
  rw [yields_iff_step, step_tuple isTuple]
  refine ⟨items, rfl, required, bounded, results, ?_, rfl⟩
  exact matched.imp fun child _ item result related =>
    outcome?_eq_some.mpr (runs child item result related)

theorem ObjectsMatch.yields {takes : Schema → PropertyKey → Prop}
    {relates : Schema → Value → Value → Prop} {fields : List (Field Schema)}
    {indexes : List (IndexSignature Schema)} {members others : Members}
    (isStruct : schema.kind = .struct fields indexes) (parts : ¬(fields = [] ∧ indexes = []))
    (steady : schema.kind.Steady)
    (matched : ObjectsMatch takes relates settings.options.excess fields indexes members others)
    (expected : settings.options.excess = .error →
      ∀ member ∈ members, Expects (outcome? targets settings.decoding) fields indexes member.1)
    (taken : ∀ parameter key, takes parameter key →
      ∃ result, Yields targets settings parameter key.toValue (.ok result))
    (runs : ∀ child value other, relates child value other →
      Yields targets settings child value (.ok other)) :
    Yields targets settings schema (.object members) (.ok (.object others)) := by
  rw [isStruct] at steady
  obtain ⟨⟨distinct, _⟩, kinds⟩ := steady
  obtain ⟨declared, indexed, fieldsYield, indexesYield, same⟩ :=
    @ObjectsMatch.runs (outcome? targets settings) _ _ _ _ _ _ _ matched distinct kinds
      settings.options.exact
      (fun index _ key isTaken =>
        (taken index.parameter key isTaken).imp fun result => outcome?_eq_some.mpr)
      (fun field _ value other related => outcome?_eq_some.mpr (runs _ value other related))
      (fun index _ value other related => outcome?_eq_some.mpr (runs _ value other related))
  rw [yields_iff_step, step_struct isStruct parts]
  exact ⟨members, rfl, expected, declared, indexed, fieldsYield, indexesYield,
    congrArg Value.object same⟩

private theorem returns_tuple {depth : Nat} {elements : List (Element Schema)} {rest : List Schema}
    (isTuple : schema.kind = .tuple elements rest)
    (children : ∀ child ∈ schema.kind.children, AllReturn targets settings depth child) :
    AllReturn targets settings (depth + 1) schema := by
  intro input value found
  rw [parse_succ] at found
  obtain ⟨items, rfl, required, bounded, results, yields, rfl⟩ := (step_tuple isTuple).mp found
  obtain ⟨others, matched⟩ := @ItemsMatch.exists_match _ (fun child result other =>
      Yields targets settings.encoding child result (.ok other) ∧
        Yields targets settings.decoding child other (.ok result)) _ _ _
    yields fun child inSlots item result ran =>
      children child (by rw [isTuple]; exact mem_slots inSlots) item result ran
  have sameLength := matched.length_eq
  rw [← yields.length_eq] at required bounded matched
  have back := matched.swap
  rw [← sameLength] at back
  refine ⟨.array others, ?_, ?_⟩
  · exact matched.yields isTuple required bounded fun child result other related => related.1
  · refine back.yields isTuple ?_ ?_ fun child other result related => related.2
    · rw [sameLength]
      exact required
    · rw [sameLength]
      exact bounded

private theorem returns_struct {depth : Nat} {fields : List (Field Schema)}
    {indexes : List (IndexSignature Schema)} (isStruct : schema.kind = .struct fields indexes)
    (steady : schema.kind.Steady)
    (children : ∀ child ∈ schema.kind.children, AllReturn targets settings depth child) :
    AllReturn targets settings (depth + 1) schema := by
  intro input value found
  rw [parse_succ] at found
  have steadyHere := steady
  rw [isStruct] at steady
  by_cases parts : fields = [] ∧ indexes = []
  · obtain ⟨rfl, rfl⟩ := parts
    obtain ⟨notNullish, rfl⟩ := (step_struct_empty isStruct).mp found
    exact ⟨value, yields_iff_step.mpr ((step_struct_empty isStruct).mpr ⟨notNullish, rfl⟩),
      yields_iff_step.mpr ((step_struct_empty isStruct).mpr ⟨notNullish, rfl⟩)⟩
  · obtain ⟨⟨distinct, parameters⟩, kinds⟩ := steady
    obtain ⟨members, rfl, expected, declared, indexed, fieldsYield, indexesYield, rfl⟩ :=
      (step_struct isStruct parts).mp found
    obtain ⟨others, matched⟩ := @ObjectsMatch.of_run _ _ members
      (fun parameter key =>
        (∃ result, Yields targets settings.encoding parameter key.toValue (.ok result)) ∧
        ∃ result, Yields targets settings.decoding parameter key.toValue (.ok result))
      (fun child result other => Yields targets settings.encoding child result (.ok other) ∧
        Yields targets settings.decoding child other (.ok result))
      settings.options.excess fields indexes declared indexed distinct kinds fieldsYield
      indexesYield
      (fun index inIndexes key ⟨result, taken⟩ => by
        have same := eq_of_parameter (parameters index inIndexes) ⟨depth, taken⟩
        rw [same] at taken
        have below := (index_mem_children isStruct inIndexes).1
        obtain ⟨encoded, encodes, _⟩ := children _ below _ _ taken
        exact ⟨⟨encoded, encodes⟩, _, depth, taken⟩)
      (fun field inFields => children _ (field_mem_children isStruct inFields))
      (fun index inIndexes => children _ (index_mem_children isStruct inIndexes).2)
    have keysExpected : settings.options.excess = .error →
        ∀ member ∈ structOutput settings.options.excess members (declared ++ indexed),
          Expects (outcome? targets settings.decoding) fields indexes member.1 :=
      fun strict member inOutput => (expects_structOutput distinct fieldsYield indexesYield
        (expected strict) inOutput).of_parse
    refine ⟨.object others, ?_, ?_⟩
    · exact @ObjectsMatch.yields targets settings.encoding _ _ _ _ _ _ _ isStruct parts steadyHere
        matched keysExpected (fun _ _ taken => taken.1) fun _ _ _ related => related.1
    · refine @ObjectsMatch.yields targets settings.decoding _ _ _ _ _ _ _ isStruct parts steadyHere
        matched.swap ?_ (fun _ _ taken => taken.2) fun _ _ _ related => related.2
      intro strict member inOthers
      have present := Table.mem_keys inOthers
      rw [matched.keys_eq] at present
      obtain ⟨original, inOriginal, sameKey⟩ := List.mem_map.mp present
      rw [← sameKey]
      exact keysExpected strict original inOriginal

private theorem returns_refinement {depth : Nat} {source : Schema} {filter : Filter}
    (isRefinement : schema.kind = .refinement source filter)
    (steady : schema.Throughout targets fun node => node.kind.Steady)
    (sourceReturns : AllReturn targets settings depth source) :
    AllReturn targets settings (depth + 1) schema := by
  intro input value found
  rw [parse_succ] at found
  obtain ⟨ran, passes⟩ := (step_refinement_decode isRefinement rfl).mp found
  obtain ⟨encoded, encodes, decodes⟩ := sourceReturns input value ran
  have below := refined_mem_children isRefinement
  have sourceKeeps := outputSide_keeps (steady.child below) ⟨depth, ran⟩
  have reads : filter.ReadsValue := by
    have here := steady.here
    rw [isRefinement] at here
    exact here
  have keeps := outputSide_keeps steady (yields_iff_step.mpr
    ((step_refinement_decode isRefinement rfl).mpr ⟨outcome?_eq_some.mpr ⟨depth, ran⟩, passes⟩))
  have bare : Yields targets settings.encoding source.withoutRefinements value (.ok encoded) := by
    cases sourceAt : source.kind with
    | refinement inner innerFilter =>
        obtain ⟨given, again, after⟩ := (step_refinement_encode sourceAt rfl).mp
          (yields_iff_step.mp encodes)
        cases sourceKeeps.unique (outcome?_eq_some.mp again)
        rw [withoutRefinements_of_refinement sourceAt]
        exact outcome?_eq_some.mp after
    | _ =>
        rw [withoutRefinements_of_ne (by rw [sourceAt]; nofun)]
        exact encodes
  refine ⟨encoded, ?_, ?_⟩
  · rw [yields_iff_step, step_refinement_encode isRefinement rfl]
    exact ⟨value, outcome?_eq_some.mpr keeps, outcome?_eq_some.mpr bare⟩
  · rw [yields_iff_step, step_refinement_decode isRefinement rfl]
    exact ⟨outcome?_eq_some.mpr decodes, passes⟩

theorem transformer_eq {function : Transformer} (prompt : function.suspends = false)
    (expected : Expected) (value : Value) :
    transformer settings function expected value =
      function.apply settings.options expected value := by
  unfold transformer
  rw [prompt]
  rfl

private theorem returns_transform {depth : Nat} {source target : Schema}
    {decode encode : Transformer} {strict : Bool}
    (isTransform : schema.kind = .transform source target decode encode strict)
    (reversible : Reversible targets settings schema)
    (targetReturns : AllReturn targets settings depth target)
    (sourceReturns : ∀ depth, AllReturn targets settings depth source) :
    AllReturn targets settings (depth + 1) schema := by
  intro input value found
  rw [parse_succ] at found
  obtain ⟨steady, undoes⟩ := reversible
  obtain ⟨_, decodePrompt, encodePrompt, lawful⟩ := undoes _ _ _ _ _ isTransform
  have checks : strict = true := by
    rw [isTransform] at steady
    exact steady
  subst checks
  obtain ⟨_, result, _, _, after⟩ := (step_transform_decode isTransform rfl).mp found
  obtain ⟨near, targetEncodes, targetDecodes⟩ := targetReturns result value after
  obtain ⟨far, encodes, ⟨origin, sourceDepth, reached⟩, decodes⟩ := lawful near value targetDecodes
  obtain ⟨encoded, sourceEncodes, sourceDecodes⟩ := sourceReturns sourceDepth origin far reached
  refine ⟨encoded, ?_, ?_⟩
  · rw [yields_iff_step, step_transform_encode isTransform rfl]
    refine ⟨near, far, outcome?_eq_some.mpr targetEncodes, ?_, outcome?_eq_some.mpr sourceEncodes⟩
    rw [transformer_eq encodePrompt]
    exact encodes
  · rw [yields_iff_step, step_transform_decode isTransform rfl]
    refine ⟨far, near, outcome?_eq_some.mpr sourceDecodes, ?_, outcome?_eq_some.mpr targetDecodes⟩
    rw [transformer_eq decodePrompt]
    exact decodes

private theorem returns_level {depth : Nat}
    (reversible : schema.Throughout targets (Reversible targets settings))
    (children : ∀ child ∈ schema.kind.children, AllReturn targets settings depth child)
    (entered : ∀ cell, schema.kind = .lazy cell →
      AllReturn targets settings depth (cell.resolve targets))
    (sources : ∀ source target decode encode strict,
      schema.kind = .transform source target decode encode strict →
      ∀ depth, AllReturn targets settings depth source) :
    AllReturn targets settings (depth + 1) schema := by
  have steady : schema.Throughout targets fun node => node.kind.Steady := fun node reached =>
    (reversible node reached).1
  cases kindAt : schema.kind with
  | tuple elements rest => exact returns_tuple kindAt children
  | struct fields indexes => exact returns_struct kindAt steady.here children
  | union members =>
      have refuted := steady.here
      rw [kindAt] at refuted
      exact refuted.elim
  | declaration parameters decode encode =>
      have refuted := steady.here
      rw [kindAt] at refuted
      exact refuted.elim
  | lazy cell =>
      intro input value found
      rw [parse_succ, step_lazy kindAt] at found
      obtain ⟨encoded, encodes, decodes⟩ := entered cell kindAt input value found
      refine ⟨encoded, ?_, ?_⟩
      · rw [yields_iff_step, step_lazy kindAt, outcome?_eq_some]
        exact encodes
      · rw [yields_iff_step, step_lazy kindAt, outcome?_eq_some]
        exact decodes
  | refinement source filter =>
      have below := refined_mem_children kindAt
      exact returns_refinement kindAt steady (children source below)
  | transform source target decode encode strict =>
      have below := target_mem_children kindAt
      exact returns_transform kindAt reversible.here (children target below)
        (sources _ _ _ _ _ kindAt)
  | _ =>
      intro input value found
      have leaf := isLeaf_of_kind kindAt trivial
      rw [parse_succ] at found
      obtain ⟨admits, rfl⟩ := (step_leaf leaf).mp found
      exact ⟨value, yields_iff_step.mpr ((step_leaf leaf).mpr ⟨admits, rfl⟩),
        yields_iff_step.mpr ((step_leaf leaf).mpr ⟨admits, rfl⟩)⟩

/-! ### Whole runs -/

/-- Without recursion, the induction is on the schema, and runs may be as deep as they like. -/
private theorem returns_of_lazyFree (lazyFree : schema.LazyFree)
    (reversible : schema.Throughout targets (Reversible targets settings)) (depth : Nat) :
    AllReturn targets settings depth schema := by
  induction schema using childInduction generalizing depth with
  | node schema ih =>
      cases depth with
      | zero =>
          intro input value found
          cases found
      | succ depth =>
          have below : ∀ child ∈ schema.kind.children, ∀ depth,
              AllReturn targets settings depth child := fun child inKind =>
            ih child inKind (lazyFree.child inKind) (reversible.child inKind)
          refine returns_level reversible (fun child inKind => below child inKind depth) ?_ ?_
          · intro cell isLazy
            exact absurd isLazy (lazyFree.here cell)
          · intro source target decode encode strict isTransform
            refine below source ?_
            rw [isTransform]
            exact List.mem_cons_self

/-- What a schema decodes can be encoded, and decoding that gives it back. -/
theorem decoded_returns (settings : Settings) (schema : Schema) (input value : Value)
    (reversible : schema.Throughout targets (Reversible targets settings))
    (decoded : Yields targets settings.decoding schema input (.ok value)) :
    ∃ encoded, Yields targets settings.encoding schema value (.ok encoded) ∧
      Yields targets settings.decoding schema encoded (.ok value) := by
  suffices returns : ∀ depth, AllReturn targets settings depth schema by
    obtain ⟨depth, found⟩ := decoded
    exact returns depth input value found
  clear decoded
  intro depth
  induction depth generalizing schema with
  | zero =>
      intro input value found
      cases found
  | succ depth ih =>
      refine returns_level reversible (fun child below => ih child (reversible.child below))
        (fun cell isLazy => ih _ (reversible.enter isLazy)) ?_
      intro source target decode encode strict isTransform
      have below := source_mem_children isTransform
      have lazyFree := (reversible.here.2 _ _ _ _ _ isTransform).1
      exact returns_of_lazyFree lazyFree (reversible.child below)

def flagOfWord? : Value → Option Value
  | .string "yes" => some (.boolean true)
  | .string "no" => some (.boolean false)
  | _ => none

def wordOfFlag : Value → Value
  | .boolean true => .string "yes"
  | .boolean false => .string "no"
  | value => value

def yesOrNo : Schema :=
  .satisfying (.made 1) .string fun value => (flagOfWord? value).isSome

def flag : Schema :=
  .transform (.made 2) yesOrNo .boolean (.partialOn flagOfWord?) (.total wordOfFlag)

def nextEntry : Schema := .plain (.made 3) (.lazy (.reference ⟨.made 3, 0, "entry"⟩))

def logEntry : Schema :=
  .plain (.made 4) (.struct
    [⟨.string "on", flag, false⟩, ⟨.string "next", nextEntry, true⟩] [⟨.string, flag⟩])

private theorem flag_lawful {targets : Targets} (settings : Settings) (expected : Expected) :
    Lawful targets settings expected yesOrNo .boolean (.partialOn flagOfWord?)
      (.total wordOfFlag) := by
  intro value taken ran
  have leaf : Schema.boolean.kind.IsLeaf := trivial
  have admits := ((step_leaf leaf).mp (yields_iff_step.mp ran)).1
  cases value with
  | boolean on =>
      cases on with
      | true => exact ⟨.string "yes", rfl, ⟨.string "yes", 2, rfl⟩, rfl⟩
      | false => exact ⟨.string "no", rfl, ⟨.string "no", 2, rfl⟩, rfl⟩
  | _ => cases admits

private theorem logEntry_reversible (settings : Settings) :
    logEntry.Throughout (fun _ => logEntry) (Reversible (fun _ => logEntry) settings) := by
  refine throughout_of_family (fun schema => schema = logEntry) ?_ rfl
  intro schema isEntry
  subst isEntry
  have words : yesOrNo.LazyFree := by
    refine .intro nofun fun child below => ?_
    cases List.mem_singleton.mp below
    exact .intro nofun nofun
  have flags : flag.All fun node => Reversible (fun _ => logEntry) settings node ∧
      ∀ other, node.kind.LeadsTo (fun _ => logEntry) other → other = logEntry := by
    have reversible : Reversible (fun _ => logEntry) settings flag := by
      refine ⟨rfl, ?_⟩
      intro source target decode encode strict isTransform
      cases isTransform
      exact ⟨words, rfl, rfl, flag_lawful settings flag.expected⟩
    refine .intro ⟨reversible, nofun⟩ fun child below => ?_
    rcases List.mem_cons.mp below with rfl | isTarget
    · refine .intro ⟨⟨propertyFilter_readsValue _, nofun⟩, nofun⟩ fun child below => ?_
      cases List.mem_singleton.mp below
      exact .intro ⟨⟨trivial, nofun⟩, nofun⟩ nofun
    · cases List.mem_singleton.mp isTarget
      exact .intro ⟨⟨trivial, nofun⟩, nofun⟩ nofun
  have steady : logEntry.kind.Steady := by
    refine ⟨⟨by decide, fun index member => ?_⟩, by decide⟩
    cases List.mem_singleton.mp member
    rfl
  refine .intro ⟨⟨steady, nofun⟩, nofun⟩ fun child below => ?_
  change child ∈ [flag, nextEntry, .string, flag] at below
  simp only [List.mem_cons, List.not_mem_nil, or_false] at below
  rcases below with rfl | rfl | rfl | rfl
  · exact flags
  · exact .intro ⟨⟨trivial, nofun⟩, fun _ leads => leads⟩ nofun
  · exact .intro ⟨⟨trivial, nofun⟩, nofun⟩ nofun
  · exact flags

/-- A log is written back in the words it was read from, and without what no field is about. -/
theorem log_returns :
    ∃ encoded,
      Yields (fun _ => logEntry) ⟨.sync, {}, .encode⟩ logEntry
        (.object [(.string "on", .boolean true),
          (.string "next", .object [(.string "on", .boolean false), (.string "a", .boolean true)])])
        (.ok encoded) ∧
      Yields (fun _ => logEntry) ⟨.sync, {}, .decode⟩ logEntry encoded
        (.ok (.object [(.string "on", .boolean true), (.string "next",
          .object [(.string "on", .boolean false), (.string "a", .boolean true)])])) :=
  decoded_returns ⟨.sync, {}, .decode⟩ logEntry
    (.object [
      (.string "next", .object [(.string "a", .string "yes"), (.string "on", .string "no")]),
      (.string "on", .string "yes"), (.symbol ⟨1, none, false⟩, .null)])
    _ (logEntry_reversible _) ⟨8, rfl⟩

end SchemaCodec.Run
