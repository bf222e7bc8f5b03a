import SchemaCodec.Proofs.Run.Termination
import SchemaCodec.Proofs.Schema.Copy

/-!
Runs that wait against runs of a copy that has nothing to wait for. In the copy each function gives
at once what the function of the schema gives in the end. Each part of a run does the same with the
copy, as long as no declaration runs one of its parameters, for it does so without waiting.
-/

namespace SchemaCodec

def Transformer.atOnce (function : Transformer) : Transformer :=
  { function with suspends := false }

def Copying.atOnce (copying : Copying) : Copying :=
  { copying with function := Transformer.atOnce }

namespace Run

variable {copying : Copying} {m : Type → Type} [Monad m]

def RunAlike (copying : Copying) (run runCopy : Schema → Value → m Outcome) (schema : Schema) : Prop :=
  ∀ input, runCopy (schema.copy copying) input = run schema input

variable {run runCopy : Schema → Value → m Outcome}

/-! ### Tuples -/

private theorem requiredCount_copy (elements : List (Element Schema)) (rest : List Schema) :
    requiredCount (elements.map (Element.copy copying)) (rest.map (Schema.copy copying)) =
      requiredCount elements rest := by
  rw [requiredCount, requiredCount, List.filter_map, List.length_map, List.length_map]
  rfl

private theorem slots_copy (elements : List (Element Schema)) (rest : List Schema) (count : Nat) :
    slots (elements.map (Element.copy copying)) (rest.map (Schema.copy copying)) count =
      (slots elements rest count).map (Schema.copy copying) := by
  have leading : (elements.map (Element.copy copying)).map Element.schema =
      (elements.map Element.schema).map (Schema.copy copying) := by
    rw [List.map_map, List.map_map]
    rfl
  cases rest with
  | nil => exact leading
  | cons repeated trailing =>
      simp only [slots, List.map_cons, leading, List.map_append, List.map_replicate,
        List.length_map]

private theorem itemSteps_copy {schemas : List Schema}
    (alike : ∀ schema ∈ schemas, RunAlike copying run runCopy schema) (first : Nat)
    (items : List Value) :
    itemSteps runCopy first (schemas.map (Schema.copy copying)) items =
      itemSteps run first schemas items := by
  induction schemas generalizing first items with
  | nil => rfl
  | cons schema rest ih =>
      cases items with
      | nil => rfl
      | cons item items =>
          have later := ih fun other inRest => alike other (List.mem_cons_of_mem _ inRest)
          rw [List.map_cons, itemSteps, itemSteps, itemStep, itemStep,
            alike schema List.mem_cons_self, later]

private theorem tuple_copy {elements : List (Element Schema)} {rest : List Schema}
    (alike : ∀ child ∈ (Kind.tuple elements rest).children, RunAlike copying run runCopy child)
    (mode : FaultMode) (items : List Value) :
    tuple runCopy mode (elements.map (Element.copy copying)) (rest.map (Schema.copy copying)) items =
      tuple run mode elements rest items := by
  have inSlots : ∀ schema ∈ slots elements rest items.length, RunAlike copying run runCopy schema :=
    fun schema among => alike schema (mem_slots among)
  have steps := itemSteps_copy inSlots 0 items
  have missing : missingItems (m := m) (elements.map (Element.copy copying))
      (rest.map (Schema.copy copying)) items.length = missingItems elements rest items.length := by
    rw [missingItems, missingItems, requiredCount_copy]
  simp only [tuple, slots_copy, steps, missing, List.isEmpty_map, List.length_map]

/-! ### Structs -/

private theorem keyFits_copy (key : PropertyKey) (schema : Schema) :
    keyFits key (schema.copy copying) = keyFits key schema := by
  induction schema using Schema.childInduction with
  | node schema ih =>
      obtain ⟨id, annotations, kind⟩ := schema
      rw [Schema.copy_node]
      cases kind with
      | refinement source filter => exact ih source (List.mem_singleton.mpr rfl)
      | keyword keyword => cases keyword <;> rfl
      | _ => rfl

private theorem isDeclared_copy (fields : List (Field Schema)) (key : PropertyKey) :
    isDeclared (fields.map (Field.copy copying)) key = isDeclared fields key := by
  rw [isDeclared, isDeclared, List.any_map]
  rfl

private theorem takesKey_copy {key : PropertyKey} {indexes : List (IndexSignature Schema)}
    (alike : ∀ index ∈ indexes, RunAlike copying run runCopy index.parameter) :
    takesKey runCopy key (indexes.map (IndexSignature.copy copying)) = takesKey run key indexes := by
  induction indexes with
  | nil => rfl
  | cons index rest ih =>
      have here : ∀ input, runCopy (index.copy copying).parameter input = run index.parameter input :=
        alike index List.mem_cons_self
      have fits : keyFits key (index.copy copying).parameter = keyFits key index.parameter :=
        keyFits_copy key index.parameter
      rw [List.map_cons, takesKey, takesKey, fits, here,
        ih fun other inRest => alike other (List.mem_cons_of_mem _ inRest)]

private theorem excessStep_copy {fields : List (Field Schema)}
    {indexes : List (IndexSignature Schema)}
    (alike : ∀ index ∈ indexes, RunAlike copying run runCopy index.parameter) :
    excessStep runCopy (fields.map (Field.copy copying)) (indexes.map (IndexSignature.copy copying)) =
      excessStep run fields indexes := by
  funext member
  rw [excessStep, excessStep, isDeclared_copy, takesKey_copy alike]

private theorem fieldSteps_copy {fields : List (Field Schema)}
    (alike : ∀ field ∈ fields, RunAlike copying run runCopy field.schema) (exact : Bool)
    (members : Members) :
    (fields.map (Field.copy copying)).filterMap (fieldStep? runCopy exact members) =
      fields.filterMap (fieldStep? run exact members) := by
  rw [List.filterMap_map]
  refine List.filterMap_congr fun field inFields => ?_
  have here : ∀ input, runCopy (field.copy copying).schema input = run field.schema input :=
    alike field inFields
  simp only [Function.comp, fieldStep?, here]
  rfl

private theorem indexSteps_copy (fields : List (Field Schema))
    {indexes : List (IndexSignature Schema)}
    (parameter : ∀ index ∈ indexes, RunAlike copying run runCopy index.parameter)
    (alike : ∀ index ∈ indexes, RunAlike copying run runCopy index.schema) (members : Members) :
    ((indexes.map (IndexSignature.copy copying)).flatMap fun index =>
        (indexMembers (fields.map (Field.copy copying)) index members).map (indexStep runCopy index)) =
      indexes.flatMap fun index =>
        (indexMembers fields index members).map (indexStep run index) := by
  rw [List.flatMap_map]
  refine List.flatMap_congr fun index inIndexes => ?_
  have sameMembers : indexMembers (fields.map (Field.copy copying)) (index.copy copying) members =
      indexMembers fields index members := by
    simp only [indexMembers, IndexSignature.copy, keyFits_copy, isDeclared_copy]
  have sameStep : indexStep runCopy (index.copy copying) = indexStep run index := by
    funext member
    have atKey : ∀ input, runCopy (index.copy copying).parameter input = run index.parameter input :=
      parameter index inIndexes
    have atValue : ∀ input, runCopy (index.copy copying).schema input = run index.schema input :=
      alike index inIndexes
    simp only [indexStep, atKey, atValue]
  rw [sameMembers, sameStep]

private theorem struct_copy {decodeKey decodeCopy : Schema → Value → m Outcome}
    {fields : List (Field Schema)} {indexes : List (IndexSignature Schema)}
    (alike : ∀ child ∈ (Kind.struct fields indexes).children, RunAlike copying run runCopy child)
    (alikeKeys : ∀ child ∈ (Kind.struct fields indexes).children,
      RunAlike copying decodeKey decodeCopy child) (options : Options) (members : Members) :
    struct runCopy decodeCopy options (fields.map (Field.copy copying))
        (indexes.map (IndexSignature.copy copying)) members =
      struct run decodeKey options fields indexes members := by
  have excess : excessStep decodeCopy (fields.map (Field.copy copying))
      (indexes.map (IndexSignature.copy copying)) = excessStep decodeKey fields indexes :=
    excessStep_copy fun index inIndexes => alikeKeys _ (Schema.index_mem_struct inIndexes).1
  have declared := fieldSteps_copy
    (fun field inFields => alike _ (Schema.field_mem_struct inFields)) options.exact members
  have indexed := indexSteps_copy fields
    (fun index inIndexes => alike _ (Schema.index_mem_struct inIndexes).1)
    (fun index inIndexes => alike _ (Schema.index_mem_struct inIndexes).2) members
  simp only [struct, excess, declared, indexed]

/-! ### Unions, transformations, declarations -/

private theorem firstOf_copy {schemas : List Schema} {input : Value}
    (alike : ∀ schema ∈ schemas, RunAlike copying run runCopy schema) (faults : List Fault) :
    firstOf runCopy input faults (schemas.map (Schema.copy copying)) =
      firstOf run input faults schemas := by
  induction schemas generalizing faults with
  | nil => rfl
  | cons schema rest ih =>
      have later := ih fun other inRest => alike other (List.mem_cons_of_mem _ inRest)
      simp only [List.map_cons, firstOf, alike schema List.mem_cons_self input, later]

theorem union_copy {members : List Schema}
    (alike : ∀ member ∈ members, RunAlike copying run runCopy member) (direction : Direction)
    (input : Value) :
    union runCopy direction (members.map (Schema.copy copying)) input =
      union run direction members input := by
  rw [union, union, TagIndex.ofMembers_copy, candidates_copy]
  have order : ∀ positions : List Nat,
      positions.filterMap (fun position => (members.map (Schema.copy copying))[position]?) =
        (positions.filterMap fun position => members[position]?).map (Schema.copy copying) := by
    intro positions
    simp only [List.getElem?_map, List.map_filterMap]
  simp only [order]
  refine firstOf_copy (fun schema inOrder => ?_) _
  obtain ⟨position, _, atPosition⟩ := List.mem_filterMap.mp inOrder
  exact alike schema (List.mem_of_getElem? atPosition)

/-- A function that suspends gives to a run that waits what its copy gives at once. -/
private theorem transformer_atOnce (options : Options) (direction : Direction)
    (function : Transformer) :
    transformer ⟨.sync, options, direction⟩ function.atOnce =
      transformer ⟨.async, options, direction⟩ function := by
  funext expected value
  simp [transformer, Transformer.atOnce]

private theorem transform_copy {near far : Schema} (alikeNear : RunAlike copying run runCopy near)
    (alikeFar : RunAlike copying run runCopy far) (options : Options) (direction : Direction)
    (expected : Expected) (function : Transformer) (strict : Bool) (input : Value) :
    transform runCopy ⟨.sync, options, direction⟩ expected (near.copy copying) (far.copy copying)
        function.atOnce strict input =
      transform run ⟨.async, options, direction⟩ expected near far function strict input := by
  have near : runCopy (near.copy copying) input = run near input := alikeNear input
  have far : runCopy (far.copy copying) = run far := funext alikeFar
  rw [transform, transform, near, far, transformer_atOnce]

/-- A hook that has nothing to ask for only runs the schema that accepts nothing. -/
private theorem hook_never (alike : run Schema.never = runCopy Schema.never) (step : HookStep)
    (nothing : ∀ other, ¬step.Asks other) : hook runCopy [] step = hook run [] step := by
  induction step with
  | done outcome => rfl
  | parse parameter input resume ih =>
      have later := fun outcome => ih outcome fun other asks => nothing other ⟨outcome, asks⟩
      simp only [hook, List.getElem?_nil, Option.getD_none, alike, later]
  | parseBy schema input resume ih => exact absurd (Or.inl rfl) (nothing schema)

/-! ### Whole runs -/

variable {targets copies : Targets} {schema : Schema} {depth : Nat}

/-- Runs of the depth and runs of the copy are alike, whatever the options and the direction. -/
private def CopiedAt (copying : Copying) (targets copies : Targets) (depth : Nat)
    (schema : Schema) : Prop :=
  ∀ options direction, RunAlike copying.atOnce (parse targets depth ⟨.async, options, direction⟩)
    (parse copies depth ⟨.sync, options, direction⟩) schema

private theorem copiedAt_struct {fields : List (Field Schema)}
    {indexes : List (IndexSignature Schema)} (isStruct : schema.kind = .struct fields indexes)
    (alike : ∀ child ∈ schema.kind.children, CopiedAt copying targets copies depth child) :
    CopiedAt copying targets copies (depth + 1) schema := by
  intro options direction input
  rw [isStruct] at alike
  rw [parse_succ, parse_succ]
  unfold step
  rw [Schema.kind_copy, Schema.expected_copy, isStruct]
  simp only [Kind.copy, List.isEmpty_map]
  split
  · simp only [check, Schema.expected_copy]
  · cases input with
    | object members =>
        exact struct_copy (fun child below => alike child below options direction)
          (fun child below => alike child below options .decode) options members
    | _ => rfl

/-- Encoding a refinement runs its output side and its source without refinements, and both are
copied with it. -/
private theorem copiedAt_refinement {source : Schema} {filter : Filter}
    (isRefinement : schema.kind = .refinement source filter)
    (alikeSource : CopiedAt copying targets copies depth source)
    (alikeSide : CopiedAt copying targets copies depth schema.outputSide)
    (alikePeeled : CopiedAt copying targets copies depth source.withoutRefinements) :
    CopiedAt copying targets copies (depth + 1) schema := by
  intro options direction input
  rw [parse_succ, parse_succ]
  unfold step
  rw [Schema.kind_copy, Schema.expected_copy, isRefinement]
  cases direction with
  | decode => simp only [Kind.copy, alikeSource options .decode input]
  | encode =>
      have decoded : parse copies depth ⟨.sync, options, .decode⟩
          (schema.copy copying.atOnce).outputSide input =
            parse targets depth ⟨.async, options, .decode⟩ schema.outputSide input := by
        rw [Schema.outputSide, Schema.sideOf_copy]
        exact alikeSide options .decode input
      have encoded : ∀ value, parse copies depth ⟨.sync, options, .encode⟩
          (source.copy copying.atOnce).withoutRefinements value =
            parse targets depth ⟨.async, options, .encode⟩ source.withoutRefinements value := by
        intro value
        rw [Schema.withoutRefinements_copy]
        exact alikePeeled options .encode value
      simp only [Kind.copy, Settings.decoding, decoded, encoded]

private theorem copiedAt_transform {source target : Schema} {decode encode : Transformer}
    {strict : Bool} (isTransform : schema.kind = .transform source target decode encode strict)
    (alikeSource : CopiedAt copying targets copies depth source)
    (alikeTarget : CopiedAt copying targets copies depth target) :
    CopiedAt copying targets copies (depth + 1) schema := by
  intro options direction input
  have atSource := alikeSource options direction
  have atTarget := alikeTarget options direction
  rw [parse_succ, parse_succ]
  unfold step
  rw [Schema.kind_copy, Schema.expected_copy, isTransform]
  cases direction with
  | decode => exact transform_copy atSource atTarget options .decode _ decode strict input
  | encode => exact transform_copy atTarget atSource options .encode _ encode strict input

private theorem parse_copy (copied : ∀ reference, copies (reference.copy copying.atOnce) =
      (targets reference).copy copying.atOnce)
    (regular : schema.Throughout targets fun node => node.kind.WithoutRequests) (depth : Nat) :
    CopiedAt copying targets copies depth schema := by
  induction depth generalizing schema with
  | zero => exact fun _ _ _ => rfl
  | succ depth ih =>
      have children := fun child (below : child ∈ schema.kind.children) => ih (regular.child below)
      cases kindAt : schema.kind with
      | struct fields indexes => exact copiedAt_struct kindAt children
      | refinement source filter =>
          have below := Schema.refined_mem_children kindAt
          exact copiedAt_refinement kindAt (children source below)
            (ih (regular.sideOf (Kind.withoutRequests_projects .output)))
            (ih (regular.child below).withoutRefinements)
      | transform source target decode encode strict =>
          exact copiedAt_transform kindAt (children source (Schema.source_mem_children kindAt))
            (children target (Schema.target_mem_children kindAt))
      | tuple elements rest =>
          intro options direction input
          rw [kindAt] at children
          rw [parse_succ, parse_succ]
          unfold step
          rw [Schema.kind_copy, Schema.expected_copy, kindAt]
          cases input with
          | array items =>
              exact tuple_copy (fun child below => children child below options direction)
                options.faults items
          | _ => rfl
      | union members =>
          intro options direction input
          rw [kindAt] at children
          rw [parse_succ, parse_succ]
          unfold step
          rw [Schema.kind_copy, Schema.expected_copy, kindAt]
          exact union_copy (fun child below => children child below _ direction) direction input
      | lazy cell =>
          intro options direction input
          have isLazyToo : (schema.copy copying.atOnce).kind = .lazy (cell.copy copying.atOnce) := by
            rw [Schema.kind_copy, kindAt]
            rfl
          rw [parse_succ, parse_succ, step_lazy kindAt, step_lazy isLazyToo,
            LazyCell.resolve_copy copied]
          exact ih (regular.enter kindAt) options direction input
      | declaration parameters decode encode =>
          intro options direction input
          have bare := regular.here
          rw [kindAt] at bare
          obtain ⟨rfl, nothing⟩ := bare
          rw [parse_succ, parse_succ]
          unfold step
          rw [Schema.kind_copy, Schema.expected_copy, kindAt]
          exact hook_never (by cases depth <;> rfl) _ fun other asks =>
            nothing other (Kind.asks_of_chosen asks)
      | _ =>
          intro options direction input
          rw [parse_succ, parse_succ]
          unfold step
          rw [Schema.kind_copy, Schema.expected_copy, kindAt]
          simp only [Kind.copy, check, Schema.expected_copy]

/-- A run that waits has the outcome that a run without waiting has on a copy whose functions give
at once what those of the schema give in the end. -/
theorem waiting_yields_iff_atOnce (copied : ∀ reference, copies (reference.copy copying.atOnce) =
      (targets reference).copy copying.atOnce)
    {schema : Schema} (regular : schema.Throughout targets fun node => node.kind.WithoutRequests)
    (options : Options) (direction : Direction) (input : Value) (outcome : Outcome) :
    Yields targets ⟨.async, options, direction⟩ schema input outcome ↔
      Yields copies ⟨.sync, options, direction⟩ (schema.copy copying.atOnce) input outcome :=
  exists_congr fun depth => by rw [parse_copy copied regular depth options direction input]

def laterNode : NodeId → NodeId
  | .standard number => .standard number
  | .made number => .made (number + 10)
  | .part whole index => .part (laterNode whole) index
  | .side which node => .side which (laterNode node)

private theorem laterNode_injective : Function.Injective laterNode := by
  intro first
  induction first with
  | standard number => intro second same; cases second <;> simp_all [laterNode]
  | made number => intro second same; cases second <;> simp_all [laterNode]
  | part whole index ih =>
      intro second same
      cases second with
      | part other position =>
          obtain ⟨sameWhole, sameIndex⟩ := NodeId.part.inj same
          rw [ih sameWhole, sameIndex]
      | _ => cases same
  | side which node ih =>
      intro second same
      cases second with
      | side other inner =>
          obtain ⟨sameSide, sameNode⟩ := NodeId.side.inj same
          rw [sameSide, ih sameNode]
      | _ => cases same

def copyLater : Copying := ⟨laterNode, laterNode_injective, fun _ _ => rfl, id⟩

def isText : Transformer := ⟨true, fun _ _ value =>
  match value with
  | .string text => .ok (.boolean (text ≠ ""))
  | value => .ok value⟩

def filled : Schema :=
  .plain (.made 1) (.transform .string .boolean isText ⟨false, fun _ _ value => .ok value⟩ true)

def nextText : Schema :=
  .plain (.made 2) (.lazy (.reference ⟨.made 2, 0, "Texts"⟩))

def moreTexts : Schema :=
  .plain (.made 3) (.union [.undefined, nextText])

def texts : Schema :=
  .plain (.made 4) (.struct [⟨.string "text", filled, false⟩, ⟨.string "next", moreTexts, false⟩] [])

/-- Two texts are decoded after two waits as the copy decodes them at once. -/
theorem texts_wait :
    Yields (fun _ => texts) ⟨.async, {}, .decode⟩ texts
      (.object [(.string "text", .string "a"),
        (.string "next", .object [(.string "text", .string "")])])
      (.ok (.object [(.string "text", .boolean true),
        (.string "next",
          .object [(.string "text", .boolean false), (.string "next", .undefined)])])) := by
  have regular : texts.Throughout (fun _ => texts) fun node => node.kind.WithoutRequests := by
    refine .of_targets [texts, filled, .string, .boolean, moreTexts, .undefined, nextText] ?_ ?_
      List.mem_cons_self
    · change [filled, moreTexts, .string, .boolean, .undefined, nextText] ⊆ _
      simp
    · simp only [List.forall_mem_cons]
      refine ⟨⟨nofun, trivial⟩, ⟨nofun, trivial⟩, ⟨nofun, trivial⟩, ⟨nofun, trivial⟩,
        ⟨nofun, trivial⟩, ⟨nofun, trivial⟩, ⟨fun cell isLazy => ?_, trivial⟩, nofun⟩
      cases isLazy
      exact List.mem_cons_self
  have alike := @waiting_yields_iff_atOnce copyLater (fun _ => texts)
    (fun _ => texts.copy copyLater.atOnce) (fun _ => rfl) texts regular {} .decode
  exact (alike _ _).mpr ⟨8, rfl⟩

end Run

end SchemaCodec
