import SchemaCodec.Proofs.Run.OutputSide
import SchemaCodec.Proofs.Run.UnionSearch

/-!
When runs come to an end. A run goes on with the same value where it tries the members of a union,
enters a lazy node or comes to the schema below a refinement or a transformation; everywhere else it
goes on with a smaller one. So decoding by a side of a schema has an end as soon as no way through
the former nodes goes on for ever.
-/

namespace SchemaCodec

def Kind.inPlace (targets : Targets) (side : Side) : Kind Schema → List Schema
  | .union members => members
  | .lazy cell => [cell.resolve targets]
  | .refinement source _ => [source]
  | .transform source target _ _ _ =>
    match side with
    | .input => [source]
    | .output => [target]
  | _ => []

namespace Schema

/-- Every way that stays with one value comes to an end. -/
inductive Guarded (targets : Targets) (side : Side) : Schema → Prop where
  | intro {schema : Schema}
      (parts : ∀ part ∈ schema.kind.inPlace targets side, Guarded targets side part) :
      Guarded targets side schema

end Schema

/-- All runs of the schema come to an end. -/
def Run.AlwaysEnds (targets : Targets) (schema : Schema) : Prop :=
  ∀ settings input, Ends targets settings schema input

namespace Kind

/-- No declaration, or one without parameters whose hooks ask for nothing else either. -/
def WithoutRequests : Kind Schema → Prop
  | .declaration parameters decode encode =>
    parameters = [] ∧ ∀ other, ¬(Kind.declaration parameters decode encode).Asks other
  | _ => True

/-- No declaration, or one without parameters whose hooks only ask for what comes to an end. -/
def RequestsEnd (targets : Targets) : Kind Schema → Prop
  | .declaration parameters decode encode =>
    parameters = [] ∧
      ∀ other, (Kind.declaration parameters decode encode).Asks other → Run.AlwaysEnds targets other
  | _ => True

theorem WithoutRequests.requestsEnd {targets : Targets} {kind : Kind Schema}
    (without : kind.WithoutRequests) : kind.RequestsEnd targets := by
  cases kind with
  | declaration _ _ _ => exact ⟨without.1, fun other asks => absurd asks (without.2 other)⟩
  | _ => trivial

theorem WithoutRequests.asks_nothing {kind : Kind Schema} (without : kind.WithoutRequests)
    (other : Schema) : ¬kind.Asks other := by
  cases kind with
  | declaration _ _ _ => exact without.2 other
  | _ => exact id

theorem WithoutRequests.exists_lazy {targets : Targets} {kind : Kind Schema} {other : Schema}
    (without : kind.WithoutRequests) (leads : kind.LeadsTo targets other) :
    ∃ cell, kind = .lazy cell ∧ other = cell.resolve targets :=
  (Kind.asks_or_lazy leads).resolve_left (without.asks_nothing other)

theorem asks_nothing {kind : Kind Schema} (notDeclaration : ¬kind.IsDeclaration) {other : Schema} :
    ¬kind.Asks other := by
  cases kind with
  | declaration _ _ _ => exact absurd trivial notDeclaration
  | _ => exact id

theorem requestsEnd_of_not_declaration {targets : Targets} {kind : Kind Schema}
    (notDeclaration : ¬kind.IsDeclaration) : kind.RequestsEnd targets := by
  cases kind with
  | declaration _ _ _ => exact absurd trivial notDeclaration
  | _ => trivial

theorem withoutRequests_projects (side : Side) :
    Kind.Projects side WithoutRequests WithoutRequests where
  leaf _ _ here := here
  tuple _ _ _ := trivial
  struct _ _ _ := trivial
  union _ _ _ := ⟨trivial, trivial⟩
  lazy _ _ _ := trivial
  refinement _ _ _ := trivial
  declaration _ _ _ here := ⟨List.map_eq_nil_iff.mpr here.1, here.2⟩

end Kind

/-! ### Smaller values -/

namespace Value

/-- What runs below a value may be given: its items, or its keys and members, and nothing at all where
a member is absent. -/
inductive Inside : Value → Value → Prop where
  | item {items : List Value} {item : Value} (member : item ∈ items) : Inside item (.array items)
  | key {members : Members} {member : PropertyKey × Value} (inMembers : member ∈ members) :
      Inside member.1.toValue (.object members)
  | value {members : Members} {member : PropertyKey × Value} (inMembers : member ∈ members) :
      Inside member.2 (.object members)
  | absent {members : Members} : Inside .undefined (.object members)

private theorem Inside.sizeOf_lt {value whole : Value} (inside : value.Inside whole) :
    sizeOf value < sizeOf whole := by
  cases inside with
  | item member =>
      have inList := List.sizeOf_lt_of_mem member
      rw [Value.array.sizeOf_spec]
      omega
  | @key members member inMembers =>
      have inList := List.sizeOf_lt_of_mem inMembers
      obtain ⟨key, value⟩ := member
      have sameSize : sizeOf key.toValue = sizeOf key := by
        cases key with
        | string text => rw [PropertyKey.toValue, Value.string.sizeOf_spec,
            PropertyKey.string.sizeOf_spec]
        | symbol symbol => rw [PropertyKey.toValue, Value.symbol.sizeOf_spec,
            PropertyKey.symbol.sizeOf_spec]
      rw [Prod.mk.sizeOf_spec] at inList
      rw [Value.object.sizeOf_spec]
      change sizeOf key.toValue < _
      omega
  | @value members member inMembers =>
      have inList := List.sizeOf_lt_of_mem inMembers
      obtain ⟨key, value⟩ := member
      rw [Prod.mk.sizeOf_spec] at inList
      rw [Value.object.sizeOf_spec]
      change sizeOf value < _
      omega
  | @absent members =>
      rw [Value.object.sizeOf_spec, Value.undefined.sizeOf_spec]
      cases members with
      | nil => simp
      | cons member rest =>
          rw [List.cons.sizeOf_spec]
          omega

end Value

namespace Run

/-! ### One level -/

abbrev Finishes {α : Type} (result : Option α) : Prop :=
  ∃ value, result = some value

theorem Finishes.bind {α β : Type} {result : Option α} {next : α → Option β}
    (finishes : Finishes result) (after : ∀ value, result = some value → Finishes (next value)) :
    Finishes (result >>= next) := by
  obtain ⟨value, found⟩ := finishes
  obtain ⟨other, reached⟩ := after value found
  exact ⟨other, Option.bind_eq_some_iff.mpr ⟨value, found, reached⟩⟩

section Walkers

variable {run : Schema → Value → Option Outcome}

private theorem results_finish {α : Type} {mode : FaultMode}
    {steps : List (Option (Except Fault α))}
    (each : ∀ step ∈ steps, Finishes step) : Finishes (results mode steps) := by
  induction steps with
  | nil => exact ⟨[], rfl⟩
  | cons step rest ih =>
      have later := ih fun other inRest => each other (List.mem_cons_of_mem _ inRest)
      refine (each step List.mem_cons_self).bind fun result _ => ?_
      cases result with
      | ok value => exact later.bind fun others _ => ⟨_, rfl⟩
      | error fault =>
          cases mode with
          | first => exact ⟨_, rfl⟩
          | all => exact later.bind fun others _ => ⟨_, rfl⟩

private theorem collect_finishes {α : Type} {mode : FaultMode}
    {steps : List (Option (Except Fault α))}
    (each : ∀ step ∈ steps, Finishes step) : Finishes (collect mode steps) :=
  (results_finish each).bind fun _ _ => ⟨_, rfl⟩

private theorem itemSteps_finish {first : Nat} {schemas : List Schema} {items : List Value}
    (each : ∀ child item, (child, item) ∈ schemas.zip items → Finishes (run child item)) :
    ∀ step ∈ itemSteps run first schemas items, Finishes step := by
  induction schemas generalizing first items with
  | nil => exact nofun
  | cons schema schemas ih =>
      cases items with
      | nil => exact nofun
      | cons item items =>
          intro step member
          rcases List.mem_cons.mp member with rfl | later
          · refine (each schema item List.mem_cons_self).bind fun outcome _ => ?_
            cases outcome <;> exact ⟨_, rfl⟩
          · exact ih (fun child other inZip => each child other (List.mem_cons_of_mem _ inZip)) step
              later

private theorem excessItems_finish {first : Nat} {items : List Value} :
    ∀ step ∈ excessItems first items, Finishes step := by
  induction items generalizing first with
  | nil => exact nofun
  | cons item rest ih =>
      intro step member
      rcases List.mem_cons.mp member with rfl | later
      · exact ⟨_, rfl⟩
      · exact ih step later

private theorem tuple_finishes {mode : FaultMode} {elements : List (Element Schema)}
    {rest : List Schema}
    {items : List Value}
    (each : ∀ child item, (child, item) ∈ (slots elements rest items.length).zip items →
      Finishes (run child item)) :
    Finishes (tuple run mode elements rest items) := by
  refine Finishes.bind (collect_finishes fun step member => ?_) fun _ _ => ⟨_, rfl⟩
  rcases List.mem_append.mp member with number | item
  · rcases List.mem_append.mp number with missing | excess
    · obtain ⟨position, _, rfl⟩ := List.mem_map.mp missing
      exact ⟨_, rfl⟩
    · split at excess
      · exact excessItems_finish step excess
      · cases excess
  · exact itemSteps_finish each step item

/-- The field runs the value of its name, or undefined in place of an absent one. -/
inductive Meets (field : Field Schema) (members : Members) : Value → Prop where
  | present {value : Value} (found : Table.find? field.name members = some value) :
      Meets field members value
  | absent (missing : Table.find? field.name members = none) : Meets field members .undefined

theorem takesKey_finishes {decodeKey : Schema → Value → Option Outcome} {key : PropertyKey}
    {indexes : List (IndexSignature Schema)}
    (each : ∀ index ∈ indexes, Finishes (decodeKey index.parameter key.toValue)) :
    Finishes (takesKey decodeKey key indexes) := by
  induction indexes with
  | nil => exact ⟨false, rfl⟩
  | cons index rest ih =>
      have later := ih fun other inRest => each other (List.mem_cons_of_mem _ inRest)
      rw [takesKey]
      split
      · refine (each index List.mem_cons_self).bind fun outcome _ => ?_
        cases outcome with
        | ok _ => exact ⟨true, rfl⟩
        | error _ => exact later
      · exact later

private theorem fieldSteps_finish {exact : Bool} {members : Members} {fields : List (Field Schema)}
    (each : ∀ field ∈ fields, ∀ value, Meets field members value →
      Finishes (run field.schema value)) :
    ∀ step ∈ fields.filterMap (fieldStep? run exact members), Finishes step := by
  intro step member
  obtain ⟨field, inFields, made⟩ := List.mem_filterMap.mp member
  unfold fieldStep? at made
  split at made
  · rename_i value found
    simp only [Option.some.injEq] at made
    rw [← made]
    refine (each field inFields value (.present found)).bind fun outcome _ => ?_
    cases outcome <;> exact ⟨_, rfl⟩
  · rename_i missing
    split at made
    · cases made
    · split at made
      · cases made
        exact ⟨_, rfl⟩
      · simp only [Option.some.injEq] at made
        rw [← made]
        refine (each field inFields .undefined (.absent missing)).bind fun outcome _ => ?_
        cases outcome <;> exact ⟨_, rfl⟩

private theorem indexStep_finishes {index : IndexSignature Schema} {member : PropertyKey × Value}
    (key : Finishes (run index.parameter member.1.toValue))
    (value : Finishes (run index.schema member.2)) : Finishes (indexStep run index member) := by
  refine key.bind fun outcome _ => ?_
  cases outcome with
  | error faults => exact ⟨_, rfl⟩
  | ok _ =>
      refine value.bind fun outcome _ => ?_
      cases outcome <;> exact ⟨_, rfl⟩

theorem struct_finishes {decodeKey : Schema → Value → Option Outcome} {options : Options}
    {fields : List (Field Schema)} {indexes : List (IndexSignature Schema)} {members : Members}
    (keys : ∀ index ∈ indexes, ∀ member ∈ members,
      Finishes (decodeKey index.parameter member.1.toValue))
    (declared : ∀ field ∈ fields, ∀ value, Meets field members value →
      Finishes (run field.schema value))
    (indexed : ∀ index ∈ indexes, ∀ member ∈ indexMembers fields index members,
      Finishes (run index.parameter member.1.toValue) ∧ Finishes (run index.schema member.2)) :
    Finishes (struct run decodeKey options fields indexes members) := by
  refine Finishes.bind (collect_finishes fun step member => ?_) fun _ _ => ⟨_, rfl⟩
  rcases List.mem_append.mp member with front | inBlocks
  · rcases List.mem_append.mp front with excess | inFields
    · split at excess
      · obtain ⟨entry, inMembers, rfl⟩ := List.mem_map.mp excess
        unfold excessStep
        split
        · exact ⟨_, rfl⟩
        · refine (takesKey_finishes fun index inIndexes =>
            keys index inIndexes entry inMembers).bind fun taken _ => ?_
          cases taken <;> exact ⟨_, rfl⟩
      · cases excess
    · exact fieldSteps_finish declared step inFields
  · obtain ⟨index, inIndexes, inBlock⟩ := List.mem_flatMap.mp inBlocks
    obtain ⟨entry, about, rfl⟩ := List.mem_map.mp inBlock
    obtain ⟨key, value⟩ := indexed index inIndexes entry about
    exact indexStep_finishes key value

private theorem firstOf_finishes {input : Value} {faults : List Fault} {schemas : List Schema}
    (each : ∀ schema ∈ schemas, Finishes (run schema input)) :
    Finishes (firstOf run input faults schemas) := by
  induction schemas generalizing faults with
  | nil => exact ⟨_, rfl⟩
  | cons schema rest ih =>
      refine (each schema List.mem_cons_self).bind fun outcome _ => ?_
      cases outcome with
      | ok value => exact ⟨_, rfl⟩
      | error inner => exact ih fun other inRest => each other (List.mem_cons_of_mem _ inRest)

private theorem union_finishes {direction : Direction} {members : List Schema} {input : Value}
    (each : ∀ member ∈ members, Finishes (run member input)) :
    Finishes (union run direction members input) := by
  refine firstOf_finishes fun schema inOrder => ?_
  obtain ⟨position, _, atPosition⟩ := List.mem_filterMap.mp inOrder
  exact each schema (List.mem_of_getElem? atPosition)

/-- Of parameters that are not there a hook can only be told failures. -/
private theorem hook_finishes (never : ∀ input, Finishes (run Schema.never input)) (step : HookStep)
    (asked : ∀ other, step.Asks other → ∀ input, Finishes (run other input)) :
    Finishes (hook run [] step) := by
  induction step with
  | done outcome => exact ⟨outcome, rfl⟩
  | parse parameter input resume ih =>
      exact (never input).bind fun outcome _ =>
        ih outcome fun other asks => asked other ⟨outcome, asks⟩
  | parseBy schema input resume ih =>
      exact (asked schema (Or.inl rfl) input).bind fun outcome _ =>
        ih outcome fun other asks => asked other (Or.inr ⟨outcome, asks⟩)

end Walkers

/-! ### Kinds -/

open Schema

variable {targets : Targets} {settings : Settings}

theorem finishes_iff_ends {schema : Schema} {value : Value} :
    Finishes (outcome? targets settings schema value) ↔ Ends targets settings schema value :=
  exists_congr fun _ => outcome?_eq_some

/-- Decoding the value by a node of the kind comes to an end, whatever the node is called and
whatever happens at faults. -/
def KindEnds (targets : Targets) (settings : Settings) (kind : Kind Schema) (value : Value) :
    Prop :=
  ∀ node : Schema, node.kind = kind → ∀ mode,
    Ends targets (settings.decoding.withFaults mode) node value

/-- Whatever a union would make of the schema, decoding the value by it comes to an end. -/
def EndsFlat (targets : Targets) (settings : Settings) (schema : Schema) (value : Value) : Prop :=
  ∀ node ∈ schema.flattened, KindEnds targets settings node.kind value

theorem ends_of_step {schema : Schema} {value : Value}
    (finishes : Finishes (step (fun cell => some (cell.resolve targets)) (outcome? targets) settings
      schema value)) : Ends targets settings schema value :=
  finishes.imp fun _ => yields_iff_step.mpr

theorem ends_leaf {schema : Schema} (leaf : schema.kind.IsLeaf) (value : Value) :
    Ends targets settings schema value := by
  refine ends_of_step ?_
  unfold step
  cases kindAt : schema.kind with
  | keyword _ => exact ⟨_, rfl⟩
  | literal _ => exact ⟨_, rfl⟩
  | uniqueSymbol _ => exact ⟨_, rfl⟩
  | enums _ => exact ⟨_, rfl⟩
  | template _ => exact ⟨_, rfl⟩
  | _ => rw [kindAt] at leaf; exact leaf.elim

theorem ends_union {schema : Schema} {members : List Schema}
    (isUnion : schema.kind = .union members) {value : Value}
    (each : ∀ member ∈ members, Ends targets settings.failingFast member value) :
    Ends targets settings schema value := by
  refine ends_of_step ?_
  unfold step
  rw [isUnion]
  exact union_finishes fun member inMembers => finishes_iff_ends.mpr (each member inMembers)

theorem ends_refinement {schema source : Schema} {filter : Filter}
    (isRefinement : schema.kind = .refinement source filter)
    (decoding : settings.direction = .decode) {value : Value}
    (sourceEnds : Ends targets settings source value) : Ends targets settings schema value := by
  refine ends_of_step ?_
  unfold step
  rw [isRefinement]
  simp only [decoding]
  refine (finishes_iff_ends.mpr sourceEnds).bind fun outcome _ => ?_
  cases outcome with
  | error faults => exact ⟨_, rfl⟩
  | ok given =>
      simp only
      cases filter settings.options schema.expected given <;> exact ⟨_, rfl⟩

theorem ends_parameter {schema : Schema} (parameter : schema.isParameter = true)
    (decoding : settings.direction = .decode) (value : Value) :
    Ends targets settings schema value :=
  parameter_induction parameter (fun _ leaf => ends_leaf leaf value)
    (fun _ _ _ isRefinement ih => ends_refinement isRefinement decoding ih)

theorem ends_declaration {schema : Schema} {decode encode : Hook}
    (isDeclaration : schema.kind = .declaration [] decode encode)
    (requests : schema.kind.RequestsEnd targets) (value : Value) :
    Ends targets settings schema value := by
  apply ends_of_step
  unfold step
  rw [isDeclaration] at requests ⊢
  have never : Schema.never.kind.IsLeaf := trivial
  exact hook_finishes (fun input => finishes_iff_ends.mpr (ends_leaf never input)) _
    fun other asks input =>
      finishes_iff_ends.mpr (requests.2 other (Kind.asks_of_chosen asks) _ input)

theorem ends_tuple {schema : Schema} {elements : List (Element Schema)} {rest : List Schema}
    (isTuple : schema.kind = .tuple elements rest) {value : Value}
    (each : ∀ child ∈ schema.kind.children, ∀ item : Value, item.Inside value →
      Ends targets settings child item) :
    Ends targets settings schema value := by
  refine ends_of_step ?_
  rw [isTuple] at each
  cases value with
  | array items =>
      rw [step_array isTuple]
      refine tuple_finishes fun child item inZip => finishes_iff_ends.mpr ?_
      obtain ⟨inSlots, inItems⟩ := List.of_mem_zip inZip
      exact each child (mem_slots inSlots) item (.item inItems)
  | _ =>
      unfold step
      rw [isTuple]
      exact ⟨_, rfl⟩

theorem ends_struct {schema : Schema} {fields : List (Field Schema)}
    {indexes : List (IndexSignature Schema)} (isStruct : schema.kind = .struct fields indexes)
    {value : Value}
    (each : ∀ child ∈ schema.kind.children, ∀ item : Value, item.Inside value →
      Ends targets settings child item ∧ Ends targets settings.decoding child item) :
    Ends targets settings schema value := by
  refine ends_of_step ?_
  by_cases parts : fields = [] ∧ indexes = []
  · obtain ⟨rfl, rfl⟩ := parts
    unfold step
    rw [isStruct]
    exact ⟨_, rfl⟩
  · cases value with
    | object members =>
        rw [step_object isStruct parts]
        have keys : ∀ index ∈ indexes, ∀ member ∈ members,
            Ends targets settings index.parameter member.1.toValue ∧
              Ends targets settings.decoding index.parameter member.1.toValue :=
          fun index inIndexes member inMembers =>
            each _ (index_mem_children isStruct inIndexes).1 _ (.key inMembers)
        refine struct_finishes (fun index inIndexes member inMembers => ?_)
          (fun field inFields item given => ?_) (fun index inIndexes member about => ?_)
        · exact finishes_iff_ends.mpr (keys index inIndexes member inMembers).2
        · have inside : item.Inside (.object members) := by
            cases given with
            | present found => exact .value (Table.mem_of_find? found)
            | absent _ => exact .absent
          exact finishes_iff_ends.mpr (each _ (field_mem_children isStruct inFields) item inside).1
        · have below := (index_mem_children isStruct inIndexes).2
          have inMembers := (mem_indexMembers.mp about).1
          exact ⟨finishes_iff_ends.mpr (keys index inIndexes member inMembers).1,
            finishes_iff_ends.mpr (each _ below _ (.value inMembers)).1⟩
    | _ =>
        have notEmpty : ¬((fields.isEmpty && indexes.isEmpty) = true) := by
          simpa [List.isEmpty_iff] using parts
        unfold step
        rw [isStruct]
        simp only [if_neg notEmpty]
        exact ⟨_, rfl⟩

/-- What ends in every way that a union may use it ends as it stands. -/
theorem EndsFlat.ends {schema : Schema} {value : Value}
    (flat : EndsFlat targets settings schema value) (mode : FaultMode) :
    Ends targets (settings.decoding.withFaults mode) schema value := by
  induction schema using childInduction generalizing mode with
  | node schema ih =>
      by_cases plain : schema.IsPlainUnion
      · obtain ⟨bare, members, isUnion⟩ := plain
        refine ends_union isUnion fun member inMembers => ?_
        refine ih member (member_mem_children isUnion inMembers) (fun node inFlattened => ?_) .first
        refine flat node ?_
        rw [flattened_of_union isUnion bare]
        exact mem_flattenedAll.mpr ⟨member, inMembers, inFlattened⟩
      · refine flat schema ?_ schema rfl mode
        rw [flattened_of_not_plain plain]
        exact List.mem_singleton.mpr rfl

theorem EndsFlat.of_kind {schema : Schema} {kind : Kind Schema} {value : Value}
    (kindAt : schema.kind = kind) (notUnion : ∀ members, kind ≠ .union members)
    (ends : KindEnds targets settings kind value) : EndsFlat targets settings schema value := by
  intro node inFlattened
  rw [flattened_of_not_plain (not_plain_of_kind kindAt notUnion)] at inFlattened
  rw [List.mem_singleton.mp inFlattened, kindAt]
  exact ends

private theorem kindEnds_tuple {elements : List (Element Schema)} {rest : List Schema}
    {value : Value}
    (each : ∀ child ∈ (Kind.tuple elements rest).children, ∀ item, sizeOf item < sizeOf value →
      EndsFlat targets settings child item) :
    KindEnds targets settings (.tuple elements rest) value := by
  intro node isTuple mode
  rw [← isTuple] at each
  exact ends_tuple isTuple fun child below item inside =>
    (each child below item inside.sizeOf_lt).ends mode

private theorem kindEnds_struct {fields : List (Field Schema)}
    {indexes : List (IndexSignature Schema)}
    {value : Value}
    (each : ∀ child ∈ (Kind.struct fields indexes).children, ∀ item, sizeOf item < sizeOf value →
      EndsFlat targets settings child item) :
    KindEnds targets settings (.struct fields indexes) value := by
  intro node isStruct mode
  rw [← isStruct] at each
  exact ends_struct isStruct fun child below item inside =>
    have ends := (each child below item inside.sizeOf_lt).ends mode
    ⟨ends, ends⟩

/-! ### Sides -/

private theorem endsFlat_union {schema : Schema} {members : List Schema}
    (isUnion : schema.kind = .union members) {value : Value}
    (kept : ∀ node ∈ flattenedAll members, KindEnds targets settings node.kind value) :
    EndsFlat targets settings schema value := by
  intro node inFlattened
  by_cases plain : schema.IsPlainUnion
  · rw [flattened_of_union isUnion plain.1] at inFlattened
    exact kept node inFlattened
  · rw [flattened_of_not_plain plain] at inFlattened
    rw [List.mem_singleton.mp inFlattened, isUnion]
    intro other isUnionToo mode
    refine ends_union isUnionToo fun member inMembers => ?_
    have flat : EndsFlat targets settings member value := fun part inMember =>
      kept part (mem_flattenedAll.mpr ⟨member, inMembers, inMember⟩)
    exact flat.ends .first

theorem EndsFlat.annotateAll {schema : Schema} {value : Value}
    (flat : EndsFlat targets settings schema value) (id : NodeId) (top : Annotations) :
    EndsFlat targets settings (schema.annotateAll id top) value := by
  by_cases plain : schema.IsPlainUnion
  · obtain ⟨bare, members, isUnion⟩ := plain
    refine endsFlat_union ((kind_annotateAll schema id top).trans isUnion) fun node inAll => ?_
    rw [← flattened_of_union isUnion bare] at inAll
    exact flat node inAll
  · have notPlain : ¬(schema.annotateAll id top).IsPlainUnion :=
      fun ⟨bare, members, isUnion⟩ => plain ⟨isEmpty_of_merge bare, members, isUnion⟩
    intro node inFlattened
    rw [flattened_of_not_plain notPlain] at inFlattened
    rw [List.mem_singleton.mp inFlattened, kind_annotateAll]
    refine flat schema ?_
    rw [flattened_of_not_plain plain]
    exact List.mem_singleton.mpr rfl

private theorem endsFlat_side_union {side : Side} {schema : Schema} {members : List Schema}
    (isUnion : schema.kind = .union members) {value : Value}
    (each : ∀ member ∈ members, EndsFlat targets settings (member.sideOf side) value) :
    EndsFlat targets settings (schema.sideOf side) value := by
  have kept : ∀ node ∈ flattenedAll (members.map (Schema.sideOf side)),
      KindEnds targets settings node.kind value := by
    intro node inAll
    obtain ⟨viewed, inSides, inFlattened⟩ := mem_flattenedAll.mp inAll
    obtain ⟨member, inMembers, rfl⟩ := List.mem_map.mp inSides
    exact each member inMembers node inFlattened
  have whole : ∀ id, EndsFlat targets settings
      (Schema.union id (members.map (Schema.sideOf side))) value := by
    intro id node inFlattened
    rcases mem_of_mem_flattened_union inFlattened with inUnion | isNever
    · exact kept node (mem_of_mem_unionMembers inUnion).1
    · rw [isNever]
      exact fun other otherNever mode => ends_leaf (by rw [otherNever]; trivial) value
  rcases @sideOf_union side _ _ isUnion with ⟨same, unchanged⟩ | rebuilt
  · rw [same]
    rw [unchanged] at kept
    exact endsFlat_union isUnion kept
  · rw [rebuilt]
    cases side with
    | input => exact whole _
    | output => exact (whole _).annotateAll _ _

/-- Decoding by a side of a schema comes to an end on every value, if no way that stays with one
value goes on for ever. -/
theorem endsFlat_side {side : Side} {schema : Schema}
    (guarded : schema.Throughout targets fun node =>
      node.Guarded targets side ∧ node.kind.RequestsEnd targets) (value : Value) :
    EndsFlat targets settings (schema.sideOf side) value := by
  induction size : sizeOf value using Nat.strongRecOn generalizing value schema with
  | _ bound smaller =>
  have below : ∀ child ∈ schema.kind.children, ∀ item, sizeOf item < sizeOf value →
      EndsFlat targets settings (child.sideOf side) item := fun child inKind item less =>
    smaller _ (size ▸ less) (guarded.child inKind) item rfl
  -- The value stays the same from here on, so that what remains goes by the ways through the nodes.
  have ways := guarded.here.1
  induction ways with
  | @intro schema parts ih =>
  have inner : ∀ part ∈ schema.kind.inPlace targets side,
      part.Throughout targets (fun node =>
        node.Guarded targets side ∧ node.kind.RequestsEnd targets) →
      EndsFlat targets settings (part.sideOf side) value := fun part inKind throughout =>
    ih part inKind throughout fun child inPart item less =>
      smaller _ (size ▸ less) (throughout.child inPart) item rfl
  cases kindAt : schema.kind with
  | tuple elements rest =>
      refine .of_kind (kind_sideOf_tuple kindAt) nofun (kindEnds_tuple ?_)
      rw [children_tuple_sides]
      rw [kindAt] at below
      exact List.forall_mem_map.mpr below
  | struct fields indexes =>
      refine .of_kind (kind_sideOf_struct kindAt) nofun (kindEnds_struct ?_)
      rw [children_struct_sides]
      rw [kindAt] at below
      exact List.forall_mem_map.mpr below
  | union members =>
      refine endsFlat_side_union kindAt fun member inMembers => inner member ?_ ?_
      · rw [kindAt]
        exact inMembers
      · exact guarded.child (member_mem_children kindAt inMembers)
  | lazy cell =>
      have target : EndsFlat targets settings ((cell.resolve targets).sideOf side) value := by
        refine inner _ ?_ (guarded.enter kindAt)
        rw [kindAt]
        exact List.mem_singleton.mpr rfl
      refine .of_kind (kind_sideOf_lazy kindAt) nofun fun node isLazy mode => ends_of_step ?_
      rw [step_lazy isLazy]
      exact finishes_iff_ends.mpr (target.ends mode)
  | refinement source filter =>
      have source : EndsFlat targets settings (source.sideOf side) value := by
        refine inner source ?_ (guarded.child (refined_mem_children kindAt))
        rw [kindAt]
        exact List.mem_singleton.mpr rfl
      cases side with
      | input =>
          rw [inputSide_refinement kindAt]
          exact source
      | output =>
          exact .of_kind (kind_outputSide_refinement kindAt) nofun fun node isRefinement mode =>
            ends_refinement isRefinement rfl (source.ends mode)
  | transform source target decode encode strict =>
      cases side with
      | input =>
          rw [inputSide_transform kindAt]
          refine inner source ?_ (guarded.child (source_mem_children kindAt))
          rw [kindAt]
          exact List.mem_singleton.mpr rfl
      | output =>
          rw [outputSide_transform kindAt]
          refine inner target ?_ (guarded.child (target_mem_children kindAt))
          rw [kindAt]
          exact List.mem_singleton.mpr rfl
  | declaration parameters decode encode =>
      have requests := guarded.here.2
      rw [kindAt] at requests
      obtain ⟨rfl, asked⟩ := requests
      refine .of_kind (kind_sideOf_declaration kindAt) nofun fun node isDeclaration mode => ?_
      exact ends_declaration isDeclaration (by rw [isDeclaration]; exact ⟨rfl, asked⟩) value
  | _ =>
      have leaf := isLeaf_of_kind kindAt trivial
      rw [sideOf_leaf leaf]
      refine .of_kind kindAt nofun fun node isLeaf mode => ends_leaf ?_ value
      rw [isLeaf]
      trivial

theorem mem_children_of_inPlace {side : Side} {schema part : Schema}
    (notLazy : ∀ cell, schema.kind ≠ .lazy cell)
    (inPlace : part ∈ schema.kind.inPlace targets side) : part ∈ schema.kind.children := by
  cases kindAt : schema.kind with
  | union members =>
      rw [kindAt] at inPlace
      exact inPlace
  | lazy cell => exact absurd kindAt (notLazy cell)
  | refinement source filter =>
      rw [kindAt] at inPlace
      exact inPlace
  | transform source target decode encode strict =>
      rw [kindAt] at inPlace
      cases side with
      | input => exact List.mem_cons.mpr (Or.inl (List.mem_singleton.mp inPlace))
      | output => exact List.mem_cons_of_mem _ inPlace
  | _ =>
      rw [kindAt] at inPlace
      cases inPlace

theorem reaches_of_inPlace {side : Side} {schema part : Schema}
    (inPlace : part ∈ schema.kind.inPlace targets side) : schema.Reaches targets part := by
  by_cases isLazy : ∃ cell, schema.kind = .lazy cell
  · obtain ⟨cell, isLazy⟩ := isLazy
    rw [isLazy] at inPlace
    rw [List.mem_singleton.mp inPlace]
    exact .enter .root isLazy
  · exact .child .root
      (mem_children_of_inPlace (fun cell atKind => isLazy ⟨cell, atKind⟩) inPlace)

/-- Without lazy nodes every way ends. -/
theorem guarded_of_lazyFree {side : Side} {schema : Schema} (lazyFree : schema.LazyFree) :
    schema.Guarded targets side := by
  induction schema using childInduction with
  | node schema ih =>
      refine .intro fun part inPlace => ?_
      have below := mem_children_of_inPlace lazyFree.here inPlace
      exact ih part below (lazyFree.child below)

theorem throughout_guarded {side : Side} {schema : Schema}
    (lazyFree : schema.Throughout targets fun node => ∀ cell, node.kind ≠ .lazy cell) :
    schema.Throughout targets (Guarded targets side) := fun _ reached =>
  guarded_of_lazyFree ((lazyFree.of_reaches reached).all.imp fun _ here => here.1)

end Run

end SchemaCodec
