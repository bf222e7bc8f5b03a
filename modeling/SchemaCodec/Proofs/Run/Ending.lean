import SchemaCodec.Proofs.Run.Termination

/-!
Runs in both directions that come to an end. Encoding through a refinement decodes the value first and
goes on with what that gives, which may have more members than the value had. But it does not nest
deeper, so that the height of the value is what runs go down by, and no way through the nodes that
stay with one value goes on for ever. Transformations may give anything; they come to an end if there
are no lazy nodes on either side.
-/

namespace SchemaCodec

/-! ### Heights -/

namespace Value

mutual

def height : Value → Nat
  | .array items => itemsHeight items + 1
  | .object members => membersHeight members + 1
  | _ => 0

def itemsHeight : List Value → Nat
  | [] => 0
  | item :: rest => max item.height (itemsHeight rest)

def membersHeight : List (PropertyKey × Value) → Nat
  | [] => 0
  | (_, value) :: rest => max value.height (membersHeight rest)

end

private theorem height_le_itemsHeight {items : List Value} {item : Value} (member : item ∈ items) :
    item.height ≤ itemsHeight items := by
  induction items with
  | nil => cases member
  | cons first rest ih =>
      rw [itemsHeight]
      rcases List.mem_cons.mp member with rfl | inRest
      · exact Nat.le_max_left _ _
      · exact Nat.le_trans (ih inRest) (Nat.le_max_right _ _)

private theorem height_le_membersHeight {members : Members} {member : PropertyKey × Value}
    (inMembers : member ∈ members) : member.2.height ≤ membersHeight members := by
  induction members with
  | nil => cases inMembers
  | cons first rest ih =>
      rw [membersHeight]
      rcases List.mem_cons.mp inMembers with rfl | inRest
      · exact Nat.le_max_left _ _
      · exact Nat.le_trans (ih inRest) (Nat.le_max_right _ _)

private theorem membersHeight_le {members : Members} {bound : Nat}
    (each : ∀ member ∈ members, member.2.height ≤ bound) : membersHeight members ≤ bound := by
  induction members with
  | nil => exact Nat.zero_le _
  | cons first rest ih =>
      rw [membersHeight]
      apply Nat.max_le.mpr
      constructor
      · exact each first List.mem_cons_self
      · exact ih fun member inRest => each member (List.mem_cons_of_mem _ inRest)

theorem Inside.height_lt {value whole : Value} (inside : value.Inside whole) :
    value.height < whole.height := by
  cases inside with
  | item member =>
      rw [height]
      exact Nat.lt_succ_of_le (height_le_itemsHeight member)
  | @key members member inMembers =>
      have flat : member.1.toValue.height = 0 := by cases member.1 <;> rfl
      rw [flat, height]
      exact Nat.succ_pos _
  | value inMembers =>
      rw [height]
      exact Nat.lt_succ_of_le (height_le_membersHeight inMembers)
  | absent =>
      rw [height]
      exact Nat.succ_pos _

end Value

/-! ### What may be decoded and encoded -/

/-- The hook asks for nothing, and gives nothing but the value itself. -/
def Hook.OnlyChecks (hook : Hook) : Prop :=
  ∀ options direction expected value, ∃ outcome,
    hook options direction expected value = .done outcome ∧
      ∀ result, outcome = .ok result → result = value

theorem Hook.OnlyChecks.asks_nothing {hook : Hook} (checks : hook.OnlyChecks) (other : Schema) :
    ¬hook.Asks other := by
  rintro ⟨options, direction, expected, value, asks⟩
  obtain ⟨outcome, done, _⟩ := checks options direction expected value
  rw [done] at asks
  exact asks

/-- Neither lazy nodes nor declarations that ask for something are in the schema. -/
def Schema.Still (schema : Schema) : Prop :=
  schema.All fun node => (∀ cell, node.kind ≠ .lazy cell) ∧ node.kind.WithoutRequests

theorem Schema.still_of_leaf {schema : Schema} (leaf : schema.kind.IsLeaf) : schema.Still := by
  obtain ⟨id, annotations, kind⟩ := schema
  constructor
  · cases kind <;> first | exact leaf.elim | exact ⟨nofun, trivial⟩
  · cases kind <;> first | exact leaf.elim | exact nofun

namespace Kind

/-- Transformations are between schemas without lazy nodes, and declarations only check. -/
def Contained : Kind Schema → Prop
  | .transform source target _ _ _ => source.Still ∧ target.Still
  | .declaration parameters decode encode =>
    parameters = [] ∧ Hook.OnlyChecks decode ∧ Hook.OnlyChecks encode
  | _ => True

/-- No transformation, and nothing but a check if it is a declaration. -/
def KeepsHeight : Kind Schema → Prop
  | .transform _ _ _ _ _ => False
  | .declaration parameters decode encode =>
    parameters = [] ∧ Hook.OnlyChecks decode ∧ Hook.OnlyChecks encode
  | _ => True

theorem Contained.withoutRequests {kind : Kind Schema} (contained : kind.Contained) :
    kind.WithoutRequests := by
  cases kind with
  | declaration parameters decode encode =>
      refine ⟨contained.1, fun other asks => ?_⟩
      exact asks.elim (contained.2.1.asks_nothing other) (contained.2.2.asks_nothing other)
  | _ => trivial

private theorem keepsHeight_projects (side : Side) : Kind.Projects side Contained KeepsHeight where
  leaf kind leaf _ := by cases kind <;> trivial
  tuple _ _ _ := trivial
  struct _ _ _ := trivial
  union _ _ _ := ⟨trivial, trivial⟩
  lazy _ _ _ := trivial
  refinement _ _ _ := trivial
  declaration parameters decode encode here := by
    refine ⟨?_, here.2⟩
    rw [here.1]
    rfl

end Kind

namespace Run

open Schema

variable {targets : Targets} {settings : Settings}

/-! ### Decoding keeps heights -/

private theorem itemsHeight_le_of_match {relates : Schema → Value → Value → Prop}
    {schemas : List Schema}
    {items results : List Value} (matched : ItemsMatch relates schemas items results)
    (each : ∀ schema ∈ schemas, ∀ item result, relates schema item result →
      result.height ≤ item.height) :
    Value.itemsHeight results ≤ Value.itemsHeight items := by
  induction matched with
  | nil => exact Nat.le_refl _
  | cons head _ ih =>
      rw [Value.itemsHeight, Value.itemsHeight]
      have first := each _ List.mem_cons_self _ _ head
      have others := ih fun schema inRest => each schema (List.mem_cons_of_mem _ inRest)
      omega

theorem mem_of_mem_structOutput {excess : ExcessPolicy} {members entries : Members}
    {entry : PropertyKey × Value} (inOutput : entry ∈ structOutput excess members entries) :
    entry ∈ entries ∨ entry ∈ members := by
  unfold structOutput at inOutput
  split at inOutput
  · rcases List.mem_append.mp inOutput with made | preserved
    · exact Or.inl (Table.mem_of_mem_ofEntries made)
    · exact Or.inr (List.mem_of_mem_filter preserved)
  · exact Or.inl (Table.mem_of_mem_ofEntries inOutput)

private theorem membersHeight_structOutput {run : Schema → Value → Option Outcome} {exact : Bool}
    {fields : List (Field Schema)} {indexes : List (IndexSignature Schema)}
    {members declared indexed : Members} (excess : ExcessPolicy)
    (fieldsYield : FieldsYield run exact members fields declared)
    (indexesYield : IndexesYield run fields members indexes indexed)
    (each : ∀ child ∈ (Kind.struct fields indexes).children, ∀ item result : Value,
      run child item = some (.ok result) → result.height ≤ item.height) :
    Value.membersHeight (structOutput excess members (declared ++ indexed)) ≤
      Value.membersHeight members := by
  have bounded : ∀ value : Value, value.Inside (.object members) →
      value.height ≤ Value.membersHeight members := by
    intro value inside
    have lower := inside.height_lt
    rw [Value.height] at lower
    omega
  apply Value.membersHeight_le
  intro entry inOutput
  rcases mem_of_mem_structOutput inOutput with made | preserved
  · rcases List.mem_append.mp made with inDeclared | inIndexed
    · obtain ⟨field, inFields, _, value, source, ran⟩ := fieldsYield.exists_source inDeclared
      have inside : value.Inside (.object members) := by
        rcases source with found | rfl
        · exact .value (Table.mem_of_find? found)
        · exact .absent
      exact Nat.le_trans (each _ (field_mem_struct inFields) _ _ ran) (bounded value inside)
    · obtain ⟨index, inIndexes, member, about, entryYields⟩ := indexesYield.exists_member inIndexed
      have inside := Value.Inside.value (mem_indexMembers.mp about).1
      exact Nat.le_trans (each _ (index_mem_struct inIndexes).2 _ _ entryYields.ran)
        (bounded _ inside)
  · exact bounded _ (.value preserved)

private theorem eq_of_hook_onlyChecks {chosen : Hook} (checks : chosen.OnlyChecks)
    {run : Schema → Value → Option Outcome} {parameters : List Schema} {options : Options}
    {direction : Direction} {expected : Expected} {value result : Value}
    (found : hook run parameters (chosen options direction expected value) = some (.ok result)) :
    result = value := by
  obtain ⟨outcome, asked, same⟩ := checks options direction expected value
  rw [asked] at found
  cases found
  exact same result rfl

/-- A declaration that only checks gives nothing but the value. -/
theorem eq_of_step_declaration {enter : LazyCell → Option Schema}
    {run : Settings → Schema → Value → Option Outcome} {schema : Schema} {parameters : List Schema}
    {decode encode : Hook} (isDeclaration : schema.kind = .declaration parameters decode encode)
    (decodeChecks : decode.OnlyChecks) (encodeChecks : encode.OnlyChecks) {value result : Value}
    (found : step enter run settings schema value = some (.ok result)) : result = value := by
  unfold step at found
  rw [isDeclaration] at found
  cases directed : settings.direction with
  | decode =>
      simp only [directed] at found
      exact eq_of_hook_onlyChecks decodeChecks found
  | encode =>
      simp only [directed] at found
      exact eq_of_hook_onlyChecks encodeChecks found

private theorem height_le_of_decoded {schema : Schema}
    (keeps : schema.Throughout targets fun node => node.kind.KeepsHeight)
    (decoding : settings.direction = .decode) {value result : Value}
    (ran : Yields targets settings schema value (.ok result)) : result.height ≤ value.height := by
  obtain ⟨depth, found⟩ := ran
  induction depth generalizing schema settings value result with
  | zero => cases found
  | succ depth ih =>
      have below := fun child (inKind : child ∈ schema.kind.children) =>
        @ih settings child (keeps.child inKind) decoding
      rw [parse_succ] at found
      cases kindAt : schema.kind with
      | tuple elements rest =>
          obtain ⟨items, rfl, _, _, results, yields, rfl⟩ := (step_tuple kindAt).mp found
          rw [kindAt] at below
          have lower := itemsHeight_le_of_match yields fun child inSlots item result ran =>
            below child (mem_slots inSlots) ran
          rw [Value.height, Value.height]
          omega
      | struct fields indexes =>
          by_cases parts : fields = [] ∧ indexes = []
          · obtain ⟨rfl, rfl⟩ := parts
            exact Nat.le_of_eq (congrArg Value.height ((step_struct_empty kindAt).mp found).2)
          · obtain ⟨members, rfl, _, declared, indexed, fieldsYield, indexesYield, rfl⟩ :=
              (step_struct kindAt parts).mp found
            have lower := membersHeight_structOutput settings.options.excess fieldsYield
              indexesYield fun child inKind item result ran =>
                below child (by rw [kindAt]; exact inKind) ran
            rw [Value.height, Value.height]
            omega
      | union members =>
          unfold step at found
          rw [kindAt] at found
          obtain ⟨member, inMembers, ran⟩ := exists_of_union_ok found
          exact @ih settings.failingFast member (keeps.child (member_mem_children kindAt inMembers))
            decoding _ _ ran
      | lazy cell =>
          rw [step_lazy kindAt] at found
          exact ih (keeps.enter kindAt) decoding found
      | refinement source filter =>
          have sourceRan := ((step_refinement_decode kindAt decoding).mp found).1
          exact below source (refined_mem_children kindAt) sourceRan
      | transform source target decode encode strict =>
          have never := keeps.here
          rw [kindAt] at never
          exact never.elim
      | declaration parameters decode encode =>
          have checks := keeps.here
          rw [kindAt] at checks
          have same := eq_of_step_declaration kindAt checks.2.1 checks.2.2 found
          exact Nat.le_of_eq (congrArg Value.height same)
      | _ =>
          have leaf := isLeaf_of_kind kindAt trivial
          exact Nat.le_of_eq (congrArg Value.height ((step_leaf leaf).mp found).2)

/-! ### One level in either direction -/

private theorem ends_lazy {schema : Schema} {cell : LazyCell} (isLazy : schema.kind = .lazy cell)
    {value : Value} (target : Ends targets settings (cell.resolve targets) value) :
    Ends targets settings schema value := by
  apply ends_of_step
  rw [step_lazy isLazy]
  exact finishes_iff_ends.mpr target

theorem ends_transform {schema source target : Schema} {decode encode : Transformer} {strict : Bool}
    (isTransform : schema.kind = .transform source target decode encode strict)
    (atSource : ∀ value, Ends targets settings source value)
    (atTarget : ∀ value, Ends targets settings target value) (value : Value) :
    Ends targets settings schema value := by
  have through : ∀ (near far : Schema) (function : Transformer),
      (∀ value, Ends targets settings near value) → (∀ value, Ends targets settings far value) →
      Finishes (transform (outcome? targets settings) settings schema.expected near far function
        strict value) := by
    intro near far function nearEnds farEnds
    refine (finishes_iff_ends.mpr (nearEnds value)).bind fun outcome _ => ?_
    cases outcome with
    | error faults => exact ⟨_, rfl⟩
    | ok given =>
        simp only
        cases transformer settings function schema.expected given with
        | error faults => exact ⟨_, rfl⟩
        | ok result =>
            cases strict with
            | false => exact ⟨_, rfl⟩
            | true => exact finishes_iff_ends.mpr (farEnds result)
  apply ends_of_step
  unfold step
  rw [isTransform]
  cases settings.direction with
  | decode => exact through source target decode atSource atTarget
  | encode => exact through target source encode atTarget atSource

private theorem ends_refinement_encode {schema source : Schema} {filter : Filter}
    (isRefinement : schema.kind = .refinement source filter)
    (encoding : settings.direction = .encode) {value : Value}
    (decoded : Ends targets settings.decoding schema.outputSide value)
    (encoded : ∀ given, Yields targets settings.decoding schema.outputSide value (.ok given) →
      Ends targets settings source.withoutRefinements given) :
    Ends targets settings schema value := by
  apply ends_of_step
  unfold step
  rw [isRefinement]
  simp only [encoding]
  refine (finishes_iff_ends.mpr decoded).bind fun outcome ran => ?_
  cases outcome with
  | error faults => exact ⟨_, rfl⟩
  | ok given => exact finishes_iff_ends.mpr (encoded given (outcome?_eq_some.mp ran))

private theorem withoutRefinements_of_parameter {schema : Schema}
    (parameter : schema.isParameter = true) :
    schema.withoutRefinements.kind.IsLeaf := by
  refine parameter_induction parameter (fun schema leaf => ?_)
    (fun schema source filter isRefinement ih => ?_)
  · rw [withoutRefinements_of_ne]
    · exact leaf
    · rintro source filter isRefinement
      rw [isRefinement] at leaf
      exact leaf
  · rw [withoutRefinements_of_refinement isRefinement]
    exact ih

/-- What tells keys comes to an end in both directions. -/
theorem ends_key {schema : Schema} (parameter : schema.isParameter = true) (value : Value) :
    Ends targets settings schema value := by
  cases direction : settings.direction with
  | decode => exact ends_parameter parameter direction value
  | encode =>
      by_cases refined : ∃ source filter, schema.kind = .refinement source filter
      · obtain ⟨source, filter, isRefinement⟩ := refined
        have leaf := withoutRefinements_of_parameter parameter
        rw [withoutRefinements_of_refinement isRefinement] at leaf
        refine ends_refinement_encode isRefinement direction ?_ fun given _ => ends_leaf leaf given
        rw [outputSide, sideOf_output_of_isParameter parameter]
        exact ends_parameter parameter rfl value
      · have plain : schema.withoutRefinements = schema :=
          withoutRefinements_of_ne fun source filter isRefinement =>
            refined ⟨source, filter, isRefinement⟩
        exact ends_leaf (plain ▸ withoutRefinements_of_parameter parameter) value

/-- A node that is no refinement comes to an end, if what it runs on the value and inside it does. -/
private theorem ends_level (side : Side) {schema : Schema} {value : Value}
    (notRefinement : ∀ source filter, schema.kind ≠ .refinement source filter)
    (withoutRequests : schema.kind.WithoutRequests)
    (inside : ∀ child ∈ schema.kind.children, ∀ item : Value, item.Inside value →
      Ends targets settings child item ∧ Ends targets settings.decoding child item)
    (inPlace : ∀ part ∈ schema.kind.inPlace targets side,
      Ends targets settings part value ∧ Ends targets settings.failingFast part value)
    (ends : ∀ source target decode encode strict,
      schema.kind = .transform source target decode encode strict →
        ∀ value, Ends targets settings source value ∧ Ends targets settings target value) :
    Ends targets settings schema value := by
  cases kindAt : schema.kind with
  | tuple elements rest =>
      exact ends_tuple kindAt fun child below item inValue => (inside child below item inValue).1
  | struct fields indexes => exact ends_struct kindAt inside
  | union members =>
      rw [kindAt] at inPlace
      exact ends_union kindAt fun member inMembers => (inPlace member inMembers).2
  | lazy cell =>
      rw [kindAt] at inPlace
      exact ends_lazy kindAt (inPlace _ (List.mem_singleton.mpr rfl)).1
  | refinement source filter => exact absurd kindAt (notRefinement source filter)
  | transform source target decode encode strict =>
      have ends := ends source target decode encode strict kindAt
      exact ends_transform kindAt (fun value => (ends value).1) (fun value => (ends value).2) value
  | declaration parameters decode encode =>
      have requests : schema.kind.RequestsEnd targets := withoutRequests.requestsEnd
      rw [kindAt] at withoutRequests
      obtain ⟨rfl, _⟩ := withoutRequests
      exact ends_declaration kindAt requests value
  | _ =>
      refine ends_leaf ?_ value
      rw [kindAt]
      trivial

/-! ### Schemas without lazy nodes -/

private theorem still_of_reaches {schema node : Schema} (still : schema.Still)
    (reached : schema.Reaches targets node) : node.Still := by
  induction reached with
  | root => exact still
  | child _ below ih => exact ih.child below
  | leads _ leads ih =>
      obtain ⟨cell, isLazy, _⟩ := ih.here.2.exists_lazy leads
      exact absurd isLazy (ih.here.1 cell)

private theorem guarded_of_still {schema : Schema} (still : schema.Still) (side : Side) :
    schema.Guarded targets side :=
  guarded_of_lazyFree (still.imp fun _ here => here.1)

private theorem ends_outputSide {schema : Schema}
    (guarded : schema.Throughout targets fun node =>
      node.Guarded targets .output ∧ node.kind.RequestsEnd targets) (value : Value) :
    Ends targets settings.decoding schema.outputSide value :=
  (endsFlat_side guarded value).ends settings.options.faults

/-- Without lazy nodes all runs come to an end. -/
private theorem ends_of_still {schema : Schema} (still : schema.Still) (settings : Settings)
    (value : Value) : Ends targets settings schema value := by
  -- Encoding through a refinement goes on with what is below all refinements at the top.
  suffices both : ∀ settings value, Ends targets settings schema value ∧
      Ends targets settings schema.withoutRefinements value from (both settings value).1
  induction schema using childInduction with
  | node schema ih =>
      intro settings value
      have children := fun child (below : child ∈ schema.kind.children) settings value =>
        (ih child below (still.child below) settings value).1
      cases kindAt : schema.kind with
      | refinement source filter =>
          have inKind := refined_mem_children kindAt
          rw [withoutRefinements_of_refinement kindAt]
          have peeled := fun value =>
            (ih source inKind (still.child inKind) settings value).2
          refine ⟨?_, peeled value⟩
          cases directed : settings.direction with
          | decode => exact ends_refinement kindAt directed (children source inKind settings value)
          | encode =>
              refine ends_refinement_encode kindAt directed (ends_outputSide ?_ value)
                fun given _ => peeled given
              intro node reached
              have nodeStill := still_of_reaches still reached
              exact ⟨guarded_of_still nodeStill .output, nodeStill.here.2.requestsEnd⟩
      | _ =>
          have notRefinement : ∀ source filter, schema.kind ≠ .refinement source filter := by
            rw [kindAt]
            nofun
          rw [withoutRefinements_of_ne notRefinement, and_self]
          refine ends_level .input notRefinement still.here.2
            (fun child below item _ => ⟨children child below _ item, children child below _ item⟩)
            (fun part inPlace => ?_) fun source target decode encode strict isTransform item => ?_
          · have below := mem_children_of_inPlace still.here.1 inPlace
            exact ⟨children part below _ value, children part below _ value⟩
          · exact ⟨children _ (source_mem_children isTransform) _ item,
              children _ (target_mem_children isTransform) _ item⟩

/-! ### Guarded schemas -/

/-- Runs on values that are not higher come to an end if runs on lower ones do. -/
private theorem ends_of_lower {bound : Nat} {schema : Schema}
    (lower : ∀ other : Schema, other.Throughout targets (fun node =>
        (∀ side, node.Guarded targets side) ∧ node.kind.Contained) →
      ∀ settings (value : Value), value.height < bound → Ends targets settings other value)
    (guarded : schema.Throughout targets fun node =>
      (∀ side, node.Guarded targets side) ∧ node.kind.Contained)
    (settings : Settings) (value : Value) (fits : value.height ≤ bound) :
    Ends targets settings schema value := by
  suffices both : ∀ settings : Settings, settings.direction.startSide = _ → ∀ value : Value,
      value.height ≤ bound → Ends targets settings schema value ∧
        Ends targets settings schema.withoutRefinements value from
    (both settings rfl value fits).1
  clear fits value
  have ways := guarded.here.1 settings.direction.startSide
  generalize settings.direction.startSide = side at ways ⊢
  clear settings
  induction ways with
  | @intro schema parts ih =>
      intro settings directed value fits
      have contained := guarded.here.2
      have inside := fun child (below : child ∈ schema.kind.children) settings (item : Value)
          (inValue : item.Inside value) =>
        lower child (guarded.child below) settings item (Nat.lt_of_lt_of_le inValue.height_lt fits)
      cases kindAt : schema.kind with
      | refinement source filter =>
          have below := refined_mem_children kindAt
          have inPlace : source ∈ schema.kind.inPlace targets side := by
            rw [kindAt]
            exact List.mem_singleton.mpr rfl
          have atSource := ih source inPlace (guarded.child below)
          rw [withoutRefinements_of_refinement kindAt]
          refine ⟨?_, (atSource settings directed value fits).2⟩
          cases direction : settings.direction with
          | decode => exact ends_refinement kindAt direction (atSource settings directed value fits).1
          | encode =>
              have output : ∀ {node : Schema}, schema.Reaches targets node →
                  node.Guarded targets .output ∧ node.kind.RequestsEnd targets := fun reached =>
                ⟨(guarded _ reached).1 .output, (guarded _ reached).2.withoutRequests.requestsEnd⟩
              refine ends_refinement_encode kindAt direction
                (ends_outputSide (fun _ => output) value) fun given ran => ?_
              have viewed : schema.outputSide.Throughout targets fun node => node.kind.KeepsHeight :=
                Throughout.sideOf_of_asked (Kind.keepsHeight_projects .output)
                  (fun _ _ _ other contained asks =>
                    absurd asks (contained.withoutRequests.2 other))
                  fun node reached => (guarded node reached).2
              have lowEnough := height_le_of_decoded viewed rfl ran
              exact (atSource settings directed given (Nat.le_trans lowEnough fits)).2
      | _ =>
          have notRefinement : ∀ source filter, schema.kind ≠ .refinement source filter := by
            rw [kindAt]
            nofun
          rw [withoutRefinements_of_ne notRefinement, and_self]
          refine ends_level side notRefinement contained.withoutRequests
            (fun child below item inValue =>
              ⟨inside child below _ item inValue, inside child below _ item inValue⟩)
            (fun part inPlace => ?_) fun source target decode encode strict isTransform item => ?_
          · have below := ih part inPlace (guarded.of_reaches (reaches_of_inPlace inPlace))
            exact ⟨(below settings directed value fits).1,
              (below settings.failingFast directed value fits).1⟩
          · rw [isTransform] at contained
            exact ⟨ends_of_still contained.1 settings item, ends_of_still contained.2 settings item⟩

/-- All runs of a schema come to an end, if no way through the schema that stays with one value goes
on for ever, in either direction. -/
theorem ends_of_guarded {schema : Schema}
    (guarded : schema.Throughout targets fun node =>
      (∀ side, node.Guarded targets side) ∧ node.kind.Contained)
    (settings : Settings) (value : Value) : Ends targets settings schema value := by
  suffices bounded : ∀ bound (schema : Schema), schema.Throughout targets (fun node =>
        (∀ side, node.Guarded targets side) ∧ node.kind.Contained) →
      ∀ settings (value : Value), value.height < bound → Ends targets settings schema value from
    bounded _ schema guarded settings value (Nat.lt_succ_self _)
  intro bound
  induction bound with
  | zero => exact fun _ _ _ _ impossible => absurd impossible (Nat.not_lt_zero _)
  | succ bound ih =>
      intro schema guarded settings value below
      exact ends_of_lower ih guarded settings value (Nat.le_of_lt_succ below)

end Run

end SchemaCodec
