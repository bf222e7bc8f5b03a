import SchemaCodec.Proofs.Run.Choices
import SchemaCodec.Proofs.Run.Ending
import SchemaCodec.Proofs.Run.RoundTrip
import SchemaCodec.Proofs.Run.StartSide

/-!
Decoding again what was decoded. Decoding drops what no part of a schema is about and lets a later
index signature overwrite an earlier one, so that what it gives need not be a value that the schema
takes again. Where index signatures do not contradict one another, and filters let pass what their
own results are decoded to again, the output side never fails on what the schema or its output side
has made of some value.
-/

namespace SchemaCodec

/-- Nothing but checks: no transformation, no declaration, and filters that read the value alone. -/
def Kind.OnlyChecks : Kind Schema → Prop
  | .struct fields indexes => (Kind.struct fields indexes).WellFormed
  | .refinement _ filter => filter.ReadsValue
  | .transform _ _ _ _ _ => False
  | .declaration _ _ _ => False
  | _ => True

namespace Kind

private theorem OnlyChecks.startsSteadily {kind : Kind Schema} (checks : kind.OnlyChecks) :
    kind.StartsSteadily .encode := by
  cases kind with
  | struct fields indexes => exact checks
  | refinement source filter =>
      exact fun _ options mode expected other value =>
        checks options (options.withFaults mode) expected other value
  | declaration parameters decode encode => exact checks.elim
  | _ => trivial

theorem OnlyChecks.impartial {kind : Kind Schema} (checks : kind.OnlyChecks) : kind.Impartial := by
  cases kind with
  | struct fields indexes => exact checks
  | refinement source filter =>
      exact fun options mode expected other value =>
        checks options (options.withFaults mode) expected other value
  | transform source target decode encode strict => exact checks.elim
  | declaration parameters decode encode => exact checks.elim
  | _ => trivial

theorem OnlyChecks.contained {kind : Kind Schema} (checks : kind.OnlyChecks) : kind.Contained := by
  cases kind with
  | transform source target decode encode strict => exact checks.elim
  | declaration parameters decode encode => exact checks.elim
  | _ => trivial

end Kind

namespace Schema

private theorem tags_of_refinement {schema source : Schema} {filter : Filter}
    (isRefinement : schema.kind = .refinement source filter) (direction : Direction) :
    schema.tags direction = source.tags direction := by
  obtain ⟨id, annotations, kind⟩ := schema
  cases isRefinement
  rfl

/-- The schema as it stands, or its output side. -/
def viewed : Bool → Schema → Schema
  | false, schema => schema
  | true, schema => schema.sideOf .output

private theorem choices_of_nested {schema node choice : Schema} (nested : schema.Nested node)
    (chosen : choice ∈ node.choices) : choice ∈ schema.choices := by
  induction nested with
  | self => exact chosen
  | member isUnion inMembers _ ih =>
      rw [choices_of_union isUnion]
      exact List.mem_flatMap.mpr ⟨_, inMembers, ih chosen⟩

private theorem exists_choice_of_kind {schema other choice : Schema}
    (same : other.kind = schema.kind)
    (chosen : choice ∈ other.choices) : ∃ inner ∈ schema.choices, choice.kind = inner.kind := by
  by_cases isUnion : ∃ members, schema.kind = .union members
  · obtain ⟨members, isUnion⟩ := isUnion
    rw [choices_of_union (same.trans isUnion)] at chosen
    rw [choices_of_union isUnion]
    exact ⟨choice, chosen, rfl⟩
  · have notUnion : ∀ members, schema.kind ≠ .union members := fun members found =>
      isUnion ⟨members, found⟩
    rw [choices_of_not_union (same ▸ notUnion)] at chosen
    rw [choices_of_not_union notUnion, List.mem_singleton.mp chosen]
    exact ⟨schema, List.mem_singleton.mpr rfl, same⟩

theorem choice_not_union {schema choice : Schema} (chosen : choice ∈ schema.choices)
    (members : List Schema) : choice.kind ≠ .union members := by
  induction schema using childInduction with
  | node schema ih =>
      by_cases isUnion : ∃ members, schema.kind = .union members
      · obtain ⟨members, isUnion⟩ := isUnion
        rw [choices_of_union isUnion] at chosen
        obtain ⟨member, inMembers, inMember⟩ := List.mem_flatMap.mp chosen
        exact ih member (member_mem_children isUnion inMembers) inMember
      · have notUnion : ∀ members, schema.kind ≠ .union members := fun members found =>
          isUnion ⟨members, found⟩
        rw [choices_of_not_union notUnion] at chosen
        rw [List.mem_singleton.mp chosen]
        exact notUnion members

private theorem sideOf_not_union {schema : Schema} (notTransform : ¬schema.kind.IsTransform)
    (notUnion : ∀ members, schema.kind ≠ .union members) (members : List Schema) :
    (schema.sideOf .output).kind ≠ .union members := by
  cases kindAt : schema.kind with
  | tuple elements rest =>
      rw [kind_sideOf_tuple kindAt]
      nofun
  | struct fields indexes =>
      rw [kind_sideOf_struct kindAt]
      nofun
  | union members => exact absurd kindAt (notUnion members)
  | lazy cell =>
      rw [kind_sideOf_lazy kindAt]
      nofun
  | refinement source filter =>
      rw [kind_outputSide_refinement kindAt]
      nofun
  | transform source target decode encode strict =>
      rw [kindAt] at notTransform
      exact absurd trivial notTransform
  | declaration parameters decode encode =>
      rw [kind_sideOf_declaration kindAt]
      nofun
  | _ =>
      rw [sideOf_leaf (isLeaf_of_kind kindAt trivial), kindAt]
      nofun

/-- What a union chooses from, its members after flattening choose from, unless nothing is left. -/
private theorem exists_member_of_choice {id : NodeId} {schemas : List Schema} {choice : Schema}
    (chosen : choice ∈ (Schema.union id schemas).choices) :
    choice.kind = .keyword .never ∨ ∃ kept ∈ unionMembers schemas, choice ∈ kept.choices := by
  rcases union_cases id schemas with ⟨_, isNever⟩ | ⟨single, only, isSingle⟩ | isPlain
  · have notUnion : ∀ kept, (plain id (.keyword .never)).kind ≠ .union kept := fun _ => nofun
    rw [isNever, choices_of_not_union notUnion] at chosen
    rw [List.mem_singleton.mp chosen]
    exact Or.inl rfl
  · rw [isSingle] at chosen
    exact Or.inr ⟨single, by rw [only]; exact List.mem_singleton.mpr rfl, chosen⟩
  · rw [isPlain, choices_of_union rfl] at chosen
    exact Or.inr (List.mem_flatMap.mp chosen)

/-- What the output side of a schema chooses from are the output sides of what the schema chooses
from, whatever unions are flattened or left with a single member. -/
private theorem exists_origin_of_choice {schema choice : Schema}
    (noTransform : schema.All (¬·.kind.IsTransform))
    (chosen : choice ∈ (schema.sideOf .output).choices) :
    choice.kind = .keyword .never ∨
      ∃ origin ∈ schema.choices, choice.kind = (origin.sideOf .output).kind := by
  induction schema using childInduction generalizing choice with
  | node schema ih =>
      by_cases isUnion : ∃ members, schema.kind = .union members
      swap
      · have notUnion : ∀ members, schema.kind ≠ .union members := fun members found =>
          isUnion ⟨members, found⟩
        rw [choices_of_not_union (sideOf_not_union noTransform.here notUnion)] at chosen
        rw [choices_of_not_union notUnion, List.mem_singleton.mp chosen]
        exact Or.inr ⟨schema, List.mem_singleton.mpr rfl, rfl⟩
      obtain ⟨members, isUnion⟩ := isUnion
      have ofMember : ∀ member ∈ members, ∀ node ∈ (member.sideOf .output).choices,
          node.kind = .keyword .never ∨
            ∃ origin ∈ schema.choices, node.kind = (origin.sideOf .output).kind := by
        intro member inMembers node inSide
        have below := member_mem_children isUnion inMembers
        refine (ih member below (noTransform.child below) inSide).imp_right ?_
        rintro ⟨origin, inMember, same⟩
        rw [choices_of_union isUnion]
        exact ⟨origin, List.mem_flatMap.mpr ⟨member, inMembers, inMember⟩, same⟩
      rcases @sideOf_union .output _ _ isUnion with ⟨same, unchanged⟩ | rebuilt
      · rw [same, choices_of_union isUnion] at chosen
        obtain ⟨member, inMembers, inMember⟩ := List.mem_flatMap.mp chosen
        have memberSame : member.sideOf .output = member :=
          List.map_eq_map_iff.mp (unchanged.trans (List.map_id _).symm) member inMembers
        rw [← memberSame] at inMember
        exact ofMember member inMembers choice inMember
      · rw [rebuilt] at chosen
        obtain ⟨inner, inUnion, sameKind⟩ := exists_choice_of_kind (kind_annotateAll _ _ _) chosen
        rw [sameKind]
        rcases exists_member_of_choice inUnion with isNever | ⟨kept, isKept, inKept⟩
        · exact Or.inl isNever
        obtain ⟨_, inSides, inFlattened⟩ := mem_flattenedAll.mp (mem_of_mem_unionMembers isKept).1
        obtain ⟨member, inMembers, rfl⟩ := List.mem_map.mp inSides
        exact ofMember member inMembers inner
          (choices_of_nested (nested_of_flattened inFlattened) inKept)

private theorem tag?_outputSide {field : Field Schema} {tag : Tag}
    (tagged : field.tag? .encode = some tag) : (field.sideOf .output).tag? .decode = some tag := by
  unfold Field.tag? at tagged
  split at tagged
  · cases tagged
  · rename_i required
    dsimp only at tagged
    split at tagged
    · rename_i literal isLiteral
      have requiredToo : ¬(field.sideOf .output).optional = true := required
      have viewed : (field.sideOf .output).schema.sideOf .input = field.schema.sideOf .output :=
        sideOf_leaf (isLeaf_of_kind isLiteral trivial)
      have isLiteralToo : (field.schema.sideOf .output).kind = .literal literal := isLiteral
      unfold Field.tag?
      rw [if_neg requiredToo]
      simp only [Direction.startSide, viewed, isLiteralToo]
      exact tagged
    · cases tagged

/-- The tags of a schema for encoding are tags of its output side for decoding. -/
private theorem mem_tags_outputSide {schema : Schema}
    (noTransform : schema.All (¬·.kind.IsTransform))
    {tag : Tag} (inTags : tag ∈ schema.tags .encode) : tag ∈ (schema.sideOf .output).tags .decode := by
  induction schema using childInduction with
  | node schema ih =>
      cases kindAt : schema.kind with
      | struct fields indexes =>
          rw [tags_of_struct kindAt] at inTags
          rw [tags_of_struct (kind_sideOf_struct kindAt)]
          obtain ⟨field, inFields, tagged⟩ := List.mem_filterMap.mp inTags
          exact List.mem_filterMap.mpr
            ⟨field.sideOf .output, List.mem_map_of_mem inFields, tag?_outputSide tagged⟩
      | refinement source filter =>
          rw [tags_of_refinement kindAt] at inTags
          rw [tags_of_refinement (kind_outputSide_refinement kindAt)]
          have below := refined_mem_children kindAt
          exact ih source below (noTransform.child below) inTags
      | transform source target decode encode strict =>
          have refuted := noTransform.here
          rw [kindAt] at refuted
          exact absurd trivial refuted
      | _ =>
          obtain ⟨id, annotations, kind⟩ := schema
          cases kindAt
          cases inTags

end Schema

namespace Run

open Schema

variable {targets : Targets} {settings : Settings} {schema : Schema} {input value : Value}

/-- The schema or its output side decodes something to the value. -/
def Made (targets : Targets) (settings : Settings) (schema : Schema) (value : Value) : Prop :=
  ∃ onSide input, Yields targets settings.decoding (schema.viewed onSide) input (.ok value)

/-- What makes the results of a node fit to be run again. What a later index signature makes of a
value could have come from each earlier one for keys of the same kind. A filter that lets a value of
the node pass lets pass what the output side of the source decodes that value to. -/
def Repeatable (targets : Targets) (settings : Settings) (node : Schema) : Prop :=
  match node.kind with
  | .struct _ indexes =>
    indexes.Pairwise fun earlier later =>
      earlier.parameter.tellsSymbols = later.parameter.tellsSymbols →
        ∀ onSide input value other,
          Yields targets settings.decoding (earlier.schema.viewed onSide) input (.ok value) →
          Yields targets settings.decoding (later.schema.viewed onSide) input (.ok other) →
          Made targets settings earlier.schema other
  | .refinement source filter =>
    ∀ value again, Made targets settings node value →
      Yields targets settings.decoding source.outputSide value (.ok again) →
      filter settings.options node.expected again = none
  | _ => True

/-! ### Kinds decide -/

/-- What decoding gives depends on the kind of the node alone. -/
private theorem ok_of_kind {other : Schema} {depth : Nat} (same : other.kind = schema.kind)
    (impartial : schema.kind.Impartial)
    (ran : parse targets depth settings.decoding other input = some (.ok value)) :
    parse targets depth settings.decoding schema input = some (.ok value) := by
  cases depth with
  | zero => cases ran
  | succ depth =>
      rw [parse_succ] at ran ⊢
      cases kindAt : schema.kind with
      | tuple elements rest =>
          exact (step_tuple kindAt).mpr ((step_tuple (same.trans kindAt)).mp ran)
      | struct fields indexes =>
          by_cases parts : fields = [] ∧ indexes = []
          · obtain ⟨rfl, rfl⟩ := parts
            exact (step_struct_empty kindAt).mpr ((step_struct_empty (same.trans kindAt)).mp ran)
          · exact (step_struct kindAt parts).mpr ((step_struct (same.trans kindAt) parts).mp ran)
      | union members =>
          unfold step at ran ⊢
          rw [same.trans kindAt] at ran
          rw [kindAt]
          exact ran
      | lazy cell =>
          rw [step_lazy (same.trans kindAt)] at ran
          rw [step_lazy kindAt]
          exact ran
      | refinement source filter =>
          rw [kindAt] at impartial
          obtain ⟨sourceRan, passes⟩ :=
            (step_refinement_decode (same.trans kindAt) rfl).mp ran
          exact (step_refinement_decode kindAt rfl).mpr
            ⟨sourceRan, impartial settings.options settings.options.faults _ _ value passes⟩
      | transform source target decode encode strict =>
          rw [kindAt] at impartial
          exact impartial.elim
      | declaration parameters decode encode =>
          rw [kindAt] at impartial
          exact impartial.elim
      | _ =>
          have leaf := isLeaf_of_kind kindAt trivial
          have otherLeaf := isLeaf_of_kind (same.trans kindAt) trivial
          have admits := (step_leaf otherLeaf).mp ran
          rw [same] at admits
          exact (step_leaf leaf).mpr admits

private theorem not_isTransform_of_checks
    (checks : schema.Throughout targets (·.kind.OnlyChecks)) : schema.All (¬·.kind.IsTransform) := by
  refine checks.all.imp fun node here isTransform => ?_
  have onlyChecks : node.kind.OnlyChecks := here.1
  cases kindAt : node.kind with
  | transform source target decode encode strict =>
      rw [kindAt] at onlyChecks
      exact onlyChecks
  | _ =>
      rw [kindAt] at isTransform
      exact isTransform

private theorem impartial_viewed (checks : schema.Throughout targets (·.kind.OnlyChecks))
    (onSide : Bool) :
    (schema.viewed onSide).Throughout targets (·.kind.Impartial) := by
  cases onSide with
  | false => exact fun node reached => (checks node reached).impartial
  | true => exact impartial_outputSide fun node reached => (checks node reached).startsSteadily

/-! ### What was made -/

/-- A run of the depth, in either fault mode, has made the value. -/
def MadeWithin (targets : Targets) (settings : Settings) (depth : Nat) (schema : Schema)
    (value : Value) : Prop :=
  ∃ mode onSide input,
    parse targets depth (settings.withFaults mode).decoding (schema.viewed onSide) input =
      some (.ok value)

theorem MadeWithin.made {depth : Nat} (checks : schema.Throughout targets (·.kind.OnlyChecks))
    (made : MadeWithin targets settings depth schema value) :
    Made targets settings schema value := by
  obtain ⟨mode, onSide, input, ran⟩ := made
  exact ⟨onSide, input, @ok_withFaults targets (settings.withFaults mode) _ _ _
    (impartial_viewed checks onSide) settings.options.faults ⟨depth, ran⟩⟩

theorem Made.within (made : Made targets settings schema value) :
    ∃ depth, MadeWithin targets settings depth schema value := by
  obtain ⟨onSide, input, depth, ran⟩ := made
  exact ⟨depth, settings.options.faults, onSide, input, ran⟩

private theorem exists_choice_of_parse {depth : Nat} {mode : FaultMode}
    (ran : parse targets depth (settings.withFaults mode) schema input = some (.ok value)) :
    ∃ choice ∈ schema.choices, ∃ mode,
      parse targets depth (settings.withFaults mode) choice input = some (.ok value) := by
  induction schema using childInduction generalizing depth mode with
  | node schema ih =>
      by_cases isUnion : ∃ members, schema.kind = .union members
      · obtain ⟨members, isUnion⟩ := isUnion
        cases depth with
        | zero => cases ran
        | succ depth =>
            rw [parse_succ] at ran
            unfold step at ran
            rw [isUnion] at ran
            obtain ⟨member, inMembers, memberRan⟩ := exists_of_union_ok ran
            have below := member_mem_children isUnion inMembers
            obtain ⟨choice, inMember, other, choiceRan⟩ := @ih member below depth .first memberRan
            rw [choices_of_union isUnion]
            exact ⟨choice, List.mem_flatMap.mpr ⟨member, inMembers, inMember⟩, other,
              parse_stays targets depth _ _ _ _ choiceRan⟩
      · rw [choices_of_not_union fun members same => isUnion ⟨members, same⟩]
        exact ⟨schema, List.mem_singleton.mpr rfl, mode, ran⟩

/-- What a schema makes one of its choices makes. -/
theorem MadeWithin.exists_choice {depth : Nat}
    (checks : schema.Throughout targets (·.kind.OnlyChecks))
    (made : MadeWithin targets settings depth schema value) :
    ∃ choice ∈ schema.choices, MadeWithin targets settings depth choice value := by
  obtain ⟨mode, onSide, input, ran⟩ := made
  obtain ⟨choice, chosen, other, choiceRan⟩ :=
    @exists_choice_of_parse targets settings.decoding _ _ _ _ mode ran
  cases onSide with
  | false => exact ⟨choice, chosen, other, false, input, choiceRan⟩
  | true =>
      rcases exists_origin_of_choice (not_isTransform_of_checks checks) chosen with
        isNever | ⟨origin, inChoices, same⟩
      · have leaf := isLeaf_of_kind isNever trivial
        have admits := ((step_leaf leaf).mp (yields_iff_step.mp ⟨depth, choiceRan⟩)).1
        rw [isNever] at admits
        cases admits
      · have originChecks := checks.nested (nested_of_choice inChoices)
        exact ⟨origin, inChoices, other, true, input,
          ok_of_kind same (impartial_viewed originChecks true).here choiceRan⟩

/-! ### The parts of what was made -/

private theorem kind_viewed_lazy {cell : LazyCell} (isLazy : schema.kind = .lazy cell)
    (onSide : Bool) :
    ∃ inner : LazyCell, (schema.viewed onSide).kind = .lazy inner ∧
      inner.resolve targets = (cell.resolve targets).viewed onSide := by
  cases onSide with
  | false => exact ⟨cell, isLazy, rfl⟩
  | true => exact ⟨_, kind_sideOf_lazy isLazy, rfl⟩

theorem kind_viewed_refinement {source : Schema} {filter : Filter}
    (isRefinement : schema.kind = .refinement source filter) (onSide : Bool) :
    (schema.viewed onSide).kind = .refinement (source.viewed onSide) filter := by
  cases onSide with
  | false => exact isRefinement
  | true => exact kind_outputSide_refinement isRefinement

theorem MadeWithin.enter {depth : Nat} {cell : LazyCell} (isLazy : schema.kind = .lazy cell)
    (made : MadeWithin targets settings (depth + 1) schema value) :
    MadeWithin targets settings depth (cell.resolve targets) value := by
  obtain ⟨mode, onSide, input, ran⟩ := made
  obtain ⟨inner, viewed, resolved⟩ := @kind_viewed_lazy targets _ _ isLazy onSide
  rw [parse_succ, step_lazy viewed, resolved] at ran
  exact ⟨mode, onSide, input, ran⟩

theorem Made.enter {cell : LazyCell} (isLazy : schema.kind = .lazy cell)
    (made : Made targets settings schema value) :
    Made targets settings (cell.resolve targets) value := by
  obtain ⟨onSide, input, ran⟩ := made
  obtain ⟨inner, viewed, resolved⟩ := @kind_viewed_lazy targets _ _ isLazy onSide
  rw [yields_iff_step, step_lazy viewed, resolved, outcome?_eq_some] at ran
  exact ⟨onSide, input, ran⟩

theorem MadeWithin.source {depth : Nat} {source : Schema} {filter : Filter}
    (isRefinement : schema.kind = .refinement source filter)
    (made : MadeWithin targets settings (depth + 1) schema value) :
    MadeWithin targets settings depth source value := by
  obtain ⟨mode, onSide, input, ran⟩ := made
  rw [parse_succ] at ran
  exact ⟨mode, onSide, input,
    ((step_refinement_decode (kind_viewed_refinement isRefinement onSide) rfl).mp ran).1⟩

theorem Made.source {source : Schema} {filter : Filter}
    (isRefinement : schema.kind = .refinement source filter)
    (made : Made targets settings schema value) : Made targets settings source value := by
  obtain ⟨onSide, input, ran⟩ := made
  have viewed := kind_viewed_refinement isRefinement onSide
  have sourceRan := ((step_refinement_decode viewed rfl).mp (yields_iff_step.mp ran)).1
  exact ⟨onSide, input, outcome?_eq_some.mp sourceRan⟩

theorem Made.admits (leaf : schema.kind.IsLeaf) (made : Made targets settings schema value) :
    schema.kind.admits value = true := by
  obtain ⟨onSide, input, ran⟩ := made
  have same : schema.viewed onSide = schema := by
    cases onSide with
    | false => rfl
    | true => exact sideOf_leaf leaf
  rw [same] at ran
  obtain ⟨admits, rfl⟩ := (step_leaf leaf).mp (yields_iff_step.mp ran)
  exact admits

/-- The items that a tuple has made were made by the schemas of their positions. -/
theorem Made.exists_items {elements : List (Element Schema)} {rest : List Schema}
    (isTuple : schema.kind = .tuple elements rest) (made : Made targets settings schema value) :
    ∃ items, value = .array items ∧ requiredCount elements rest ≤ items.length ∧
      (rest = [] → items.length ≤ elements.length) ∧
      ∀ child item, (child, item) ∈ (slots elements rest items.length).zip items →
        Made targets settings child item := by
  obtain ⟨onSide, input, ran⟩ := made
  have matched : ∃ given results, requiredCount elements rest ≤ given.length ∧
      (rest = [] → given.length ≤ elements.length) ∧
      ItemsMatch (fun child item result =>
        outcome? targets settings.decoding (child.viewed onSide) item = some (.ok result))
        (slots elements rest given.length) given results ∧ value = .array results := by
    cases onSide with
    | false =>
        obtain ⟨given, rfl, required, bounded, results, yields, rfl⟩ :=
          (step_tuple isTuple).mp (yields_iff_step.mp ran)
        exact ⟨given, results, required, bounded, yields, rfl⟩
    | true =>
        obtain ⟨given, rfl, required, bounded, results, yields, rfl⟩ :=
          (step_tuple (kind_sideOf_tuple isTuple)).mp (yields_iff_step.mp ran)
        rw [requiredCount_sides] at required
        rw [List.map_eq_nil_iff, List.length_map] at bounded
        rw [slots_map] at yields
        exact ⟨given, results, required, bounded, yields.of_sides, rfl⟩
  obtain ⟨given, results, required, bounded, yields, rfl⟩ := matched
  have sameLength := yields.length_eq
  rw [← sameLength] at required bounded
  refine ⟨results, rfl, required, bounded, fun child item inZip => ?_⟩
  rw [sameLength] at inZip
  obtain ⟨origin, itemRan⟩ := yields.exists_of_mem_zip inZip
  exact ⟨onSide, origin, outcome?_eq_some.mp itemRan⟩

structure Consists (excess : ExcessPolicy) (holds : Schema → Value → Prop)
    (fields : List (Field Schema)) (indexes : List (IndexSignature Schema)) (members : Members) :
    Prop where
  expected : excess = .error → ∀ member ∈ members, member.1 ∈ fields.map Field.name ∨
    ∃ index ∈ indexes, keyFits member.1 index.parameter = true ∧
      holds index.parameter member.1.toValue
  declared : ∀ field ∈ fields,
    (∃ item, Table.find? field.name members = some item ∧ holds field.schema item) ∨
    (Table.find? field.name members = none ∧ field.optional = true)
  indexed : ∀ index ∈ indexes, ∀ member ∈ indexMembers fields index members,
    holds index.parameter member.1.toValue ∧ holds index.schema member.2

section Structs

variable {fields : List (Field Schema)} {indexes : List (IndexSignature Schema)}

private theorem exists_parts_of_viewed (isStruct : schema.kind = .struct fields indexes)
    (parameters : ∀ index ∈ indexes, index.parameter.isParameter = true)
    (parts : ¬(fields = [] ∧ indexes = [])) {onSide : Bool}
    (ran : Yields targets settings.decoding (schema.viewed onSide) input (.ok value)) :
    ∃ given declared indexed,
      (settings.options.excess = .error → ∀ member ∈ given,
        Expects (outcome? targets settings.decoding) fields indexes member.1) ∧
      FieldsYield (fun child => outcome? targets settings.decoding (child.viewed onSide))
        settings.options.exact given fields declared ∧
      IndexesYield (fun child => outcome? targets settings.decoding (child.viewed onSide)) fields
        given indexes indexed ∧
      value = .object (structOutput settings.options.excess given (declared ++ indexed)) := by
  cases onSide with
  | false =>
      obtain ⟨given, rfl, expected, declared, indexed, fieldsYield, indexesYield, rfl⟩ :=
        (step_struct isStruct parts).mp (yields_iff_step.mp ran)
      exact ⟨given, declared, indexed, expected, fieldsYield, indexesYield, rfl⟩
  | true =>
      have viewedParts : ¬(fields.map (Field.sideOf .output) = [] ∧
          indexes.map (IndexSignature.sideOf .output) = []) := by
        simpa only [List.map_eq_nil_iff] using parts
      obtain ⟨given, rfl, expected, declared, indexed, fieldsYield, indexesYield, rfl⟩ :=
        (step_struct (kind_sideOf_struct isStruct) viewedParts).mp (yields_iff_step.mp ran)
      refine ⟨given, declared, indexed, fun strict member inGiven => ?_, fieldsYield.of_sides,
        indexesYield.of_outputSide parameters, rfl⟩
      have here := expected strict member inGiven
      unfold Expects at here ⊢
      rwa [isDeclared_sides, takesKey_outputSide parameters] at here

private theorem made_of_key {parameter : Schema} {key result : Value}
    (isParameter : parameter.isParameter = true)
    (taken : outcome? targets settings.decoding parameter key = some (.ok result)) :
    Made targets settings parameter key := by
  have yields := outcome?_eq_some.mp taken
  cases eq_of_parameter isParameter yields
  exact ⟨false, _, yields⟩

variable {given declared indexed : Members} {onSide : Bool}

private theorem declared_made (distinct : (fields.map Field.name).Nodup)
    (fieldsYield : FieldsYield (fun child => outcome? targets settings.decoding (child.viewed onSide))
      settings.options.exact given fields declared)
    (indexesYield : IndexesYield
      (fun child => outcome? targets settings.decoding (child.viewed onSide)) fields given indexes
      indexed) {field : Field Schema} (inFields : field ∈ fields) :
    (∃ item, Table.find? field.name
        (structOutput settings.options.excess given (declared ++ indexed)) = some item ∧
      Made targets settings field.schema item) ∨
    (Table.find? field.name
        (structOutput settings.options.excess given (declared ++ indexed)) = none ∧
      field.optional = true) := by
  cases present : Table.find? field.name
      (structOutput settings.options.excess given (declared ++ indexed)) with
  | some item =>
      obtain ⟨origin, fieldRan⟩ :=
        exists_ran_of_find? distinct fieldsYield indexesYield inFields present
      exact Or.inl ⟨item, rfl, onSide, origin, outcome?_eq_some.mp fieldRan⟩
  | none =>
      refine Or.inr ⟨rfl, ?_⟩
      by_contra required
      obtain ⟨_, result, _, _, contributed⟩ :=
        fieldsYield.of_required inFields (Bool.eq_false_iff.mpr required)
      have there := find?_structOutput settings.options.excess distinct fieldsYield indexesYield
        contributed
      cases there.symm.trans present

/-- A member that an index signature is about has the value that the last such signature gave. -/
private theorem indexed_made (distinct : (fields.map Field.name).Nodup)
    (parameters : ∀ index ∈ indexes, index.parameter.isParameter = true)
    (repeatable : Repeatable targets settings schema)
    (isStruct : schema.kind = .struct fields indexes)
    (fieldsYield : FieldsYield (fun child => outcome? targets settings.decoding (child.viewed onSide))
      settings.options.exact given fields declared)
    (indexesYield : IndexesYield
      (fun child => outcome? targets settings.decoding (child.viewed onSide)) fields given indexes
      indexed) {index : IndexSignature Schema} (inIndexes : index ∈ indexes)
    {member : PropertyKey × Value}
    (about : member ∈ indexMembers fields index
      (structOutput settings.options.excess given (declared ++ indexed))) :
    Made targets settings index.parameter member.1.toValue ∧
      Made targets settings index.schema member.2 := by
  unfold Repeatable at repeatable
  rw [isStruct] at repeatable
  have kept := mem_ofEntries_of_indexMembers distinct fieldsYield indexesYield inIndexes about
  have fits := (mem_indexMembers.mp about).2.1
  obtain ⟨last, inLast, related, origin, aboutLast, madeLast, other, made⟩ :=
    indexesYield.exists_last repeatable kept inIndexes fits
  have same : index.parameter.viewed onSide = index.parameter := by
    cases onSide with
    | false => rfl
    | true => exact sideOf_output_of_isParameter (parameters index inIndexes)
  constructor
  · obtain ⟨key, taken⟩ := made.taken
    rw [← madeLast.key, same] at taken
    exact made_of_key (parameters index inIndexes) taken
  · rcases related with rfl | related
    · exact ⟨onSide, origin.2, outcome?_eq_some.mp madeLast.ran⟩
    · have lastFits := (mem_indexMembers.mp aboutLast).2.1
      rw [← madeLast.key, keyFits_eq_true_iff] at lastFits
      rw [keyFits_eq_true_iff] at fits
      exact related (fits.symm.trans lastFits) onSide origin.2 other.2 member.2
        (outcome?_eq_some.mp made.ran) (outcome?_eq_some.mp madeLast.ran)

/-- The members that a struct has made were made by its parts, whichever index signature had the last
word. -/
theorem Made.exists_members (isStruct : schema.kind = .struct fields indexes)
    (wellFormed : schema.kind.WellFormed) (repeatable : Repeatable targets settings schema)
    (parts : ¬(fields = [] ∧ indexes = [])) (made : Made targets settings schema value) :
    ∃ members, value = .object members ∧
      Consists settings.options.excess (Made targets settings) fields indexes members := by
  rw [isStruct] at wellFormed
  obtain ⟨distinct, parameters⟩ := wellFormed
  obtain ⟨onSide, input, ran⟩ := made
  obtain ⟨given, declared, indexed, expected, fieldsYield, indexesYield, rfl⟩ :=
    exists_parts_of_viewed isStruct parameters parts ran
  refine ⟨_, rfl,
    { expected := fun strict member inOutput => ?_
      declared := fun field inFields => declared_made distinct fieldsYield indexesYield inFields
      indexed := fun index inIndexes member about => indexed_made distinct parameters repeatable
        isStruct fieldsYield indexesYield inIndexes about }⟩
  have here := expects_structOutput distinct fieldsYield indexesYield (expected strict) inOutput
  refine here.imp isDeclared_eq_true_iff.mp fun taken => ?_
  obtain ⟨index, inIndexes, fits, result, keyRan⟩ := exists_index_of_takesKey taken
  exact ⟨index, inIndexes, fits, made_of_key (parameters index inIndexes) keyRan⟩

theorem Made.notNullish (isStruct : schema.kind = .struct [] [])
    (made : Made targets settings schema value) : value.isNullish = false := by
  obtain ⟨onSide, input, ran⟩ := made
  have viewed : (schema.viewed onSide).kind = .struct [] [] := by
    cases onSide with
    | false => exact isStruct
    | true => exact kind_sideOf_struct isStruct
  obtain ⟨notNullish, rfl⟩ := (step_struct_empty viewed).mp (yields_iff_step.mp ran)
  exact notNullish

end Structs

/-! ### One level -/

structure Rerunnable (targets : Targets) (settings : Settings) (node : Schema) : Prop where
  checks : node.kind.OnlyChecks
  tell : IdentitiesTell [node]
  repeatable : Repeatable targets settings node

private theorem admits_outputSide_of_nested {node : Schema}
    (rerunnable : schema.Throughout targets (Rerunnable targets settings))
    (nested : schema.Nested node)
    (admits : Admits targets settings (node.sideOf .output) value) :
    Admits targets settings (schema.sideOf .output) value := by
  induction nested with
  | self => exact admits
  | member isUnion inMembers _ ih =>
      refine admits_side_union rerunnable.here.tell isUnion inMembers (fun _ other inOthers => ?_)
        (ih (rerunnable.child (member_mem_children isUnion inMembers)) admits)
      have otherChecks : other.Throughout targets (·.kind.OnlyChecks) := fun node reached =>
        ((rerunnable.child (member_mem_children isUnion inOthers)) node reached).checks
      exact (impartial_viewed otherChecks true).all.imp fun _ here => here.1

private theorem admits_outputSide_of_stable {source : Schema} {filter : Filter}
    (isRefinement : schema.kind = .refinement source filter)
    (rerunnable : schema.Throughout targets (Rerunnable targets settings))
    (made : Made targets settings schema value)
    (admits : Admits targets settings (source.sideOf .output) value) :
    Admits targets settings (schema.sideOf .output) value := by
  have viewed := kind_outputSide_refinement isRefinement
  have here := rerunnable.here
  have reads : filter.ReadsValue := by
    have checks := here.checks
    rw [isRefinement] at checks
    exact checks
  have stable := here.repeatable
  unfold Repeatable at stable
  rw [isRefinement] at stable
  refine .of_not_plain (not_plain_of_kind viewed nofun) ?_ ?_
  · rintro mode ⟨failure, failed⟩
    rw [yields_iff_step] at failed
    unfold step at failed
    rw [viewed] at failed
    obtain ⟨outcome, sourceRan, after⟩ := Option.bind_eq_some_iff.mp failed
    have ran := outcome?_eq_some.mp sourceRan
    cases outcome with
    | error faults => exact admits.accepts mode ⟨faults, ran⟩
    | ok again =>
        have checks : source.Throughout targets (·.kind.OnlyChecks) := fun node reached =>
          ((rerunnable.child (refined_mem_children isRefinement)) node reached).checks
        have passes := stable value again made
          (@ok_withFaults targets (settings.withFaults mode) _ _ _ (impartial_viewed checks true)
            settings.options.faults ran)
        simp only [reads _ (settings.decoding.withFaults mode).options _
          (schema.sideOf .output).expected again passes] at after
        cases after
  · rw [tags_of_refinement viewed]
    exact admits.fits

private theorem admits_outputSide_struct {fields : List (Field Schema)}
    {indexes : List (IndexSignature Schema)} (isStruct : schema.kind = .struct fields indexes)
    (wellFormed : schema.kind.WellFormed) (rerunnable : Rerunnable targets settings schema)
    (parts : ∀ child ∈ schema.kind.children, ∀ item : Value, item.Inside value →
      Made targets settings child item → Admits targets settings (child.sideOf .output) item)
    (made : Made targets settings schema value) :
    Admits targets settings (schema.sideOf .output) value := by
  by_cases none : fields = [] ∧ indexes = []
  · obtain ⟨rfl, rfl⟩ := none
    exact admits_side_struct_empty isStruct (made.notNullish isStruct)
  obtain ⟨members, rfl, consists⟩ :=
    made.exists_members isStruct wellFormed rerunnable.repeatable none
  refine admits_side_struct rerunnable.tell isStruct wellFormed
    { expected := fun strict member inMembers => ?_
      declared := fun field inFields => ?_
      indexed := fun index inIndexes member about => ?_ }
  · refine (consists.expected strict member inMembers).imp_right ?_
    rintro ⟨index, inIndexes, fits, keyMade⟩
    exact ⟨index, inIndexes, fits,
      parts _ (index_mem_children isStruct inIndexes).1 _ (.key inMembers) keyMade⟩
  · rcases consists.declared field inFields with ⟨item, found, itemMade⟩ | ⟨absent, optional⟩
    · exact Or.inl ⟨item, found, parts _ (field_mem_children isStruct inFields) item
        (.value (Table.mem_of_find? found)) itemMade⟩
    · exact Or.inr ⟨absent, Or.inl optional⟩
  · obtain ⟨keyMade, itemMade⟩ := consists.indexed index inIndexes member about
    obtain ⟨parameterBelow, valueBelow⟩ := index_mem_children isStruct inIndexes
    have inMembers := (mem_indexMembers.mp about).1
    exact ⟨parts _ parameterBelow _ (.key inMembers) keyMade,
      parts _ valueBelow _ (.value inMembers) itemMade⟩

private theorem admits_level {depth : Nat} (notUnion : ∀ members, schema.kind ≠ .union members)
    (rerunnable : schema.Throughout targets (Rerunnable targets settings))
    (made : MadeWithin targets settings (depth + 1) schema value)
    (parts : ∀ child ∈ schema.kind.children, ∀ item : Value, item.Inside value →
      Made targets settings child item → Admits targets settings (child.sideOf .output) item)
    (inPlace : ∀ other, other.Throughout targets (Rerunnable targets settings) →
      MadeWithin targets settings depth other value →
      Admits targets settings (other.sideOf .output) value) :
    Admits targets settings (schema.sideOf .output) value := by
  have checks : schema.Throughout targets (·.kind.OnlyChecks) := fun node reached =>
    (rerunnable node reached).checks
  have whole := made.made checks
  cases kindAt : schema.kind with
  | tuple elements rest =>
      obtain ⟨items, rfl, required, bounded, each⟩ := whole.exists_items kindAt
      refine admits_side_tuple kindAt required bounded fun child item inZip => ?_
      obtain ⟨inSlots, inItems⟩ := List.of_mem_zip inZip
      rw [kindAt] at parts
      exact parts child (mem_slots inSlots) item (.item inItems) (each child item inZip)
  | struct fields indexes =>
      have wellFormed : schema.kind.WellFormed := by
        have here := checks.here
        rw [kindAt] at here ⊢
        exact here
      exact admits_outputSide_struct kindAt wellFormed rerunnable.here parts whole
  | union members => exact absurd kindAt (notUnion members)
  | lazy cell =>
      exact admits_side_lazy kindAt (inPlace _ (rerunnable.enter kindAt) (made.enter kindAt))
  | refinement source filter =>
      have below := refined_mem_children kindAt
      exact admits_outputSide_of_stable kindAt rerunnable whole
        (inPlace source (rerunnable.child below) (made.source kindAt))
  | transform source target decode encode strict =>
      have refuted := checks.here
      rw [kindAt] at refuted
      exact refuted.elim
  | declaration parameters decode encode =>
      have refuted := checks.here
      rw [kindAt] at refuted
      exact refuted.elim
  | _ =>
      have leaf := isLeaf_of_kind kindAt trivial
      exact admits_leaf leaf (whole.admits leaf)

/-! ### Whole runs -/

/-- The output side admits what the schema or the side has made of some value. -/
theorem admits_outputSide_of_made
    (rerunnable : schema.Throughout targets (Rerunnable targets settings))
    (made : Made targets settings schema value) :
    Admits targets settings (schema.sideOf .output) value := by
  -- Parts are smaller than the value; the nodes that stay with it are as many as the run was deep.
  induction size : value.height using Nat.strongRecOn generalizing schema value with
  | _ bound smaller =>
  obtain ⟨depth, within⟩ := made.within
  clear made
  induction depth generalizing schema with
  | zero =>
      obtain ⟨_, _, _, ran⟩ := within
      cases ran
  | succ depth ih =>
      obtain ⟨choice, chosen, choiceMade⟩ :=
        within.exists_choice fun node reached => (rerunnable node reached).checks
      have nested := nested_of_choice chosen
      have choiceRerunnable := rerunnable.nested nested
      refine admits_outputSide_of_nested rerunnable nested ?_
      refine admits_level (choice_not_union chosen) choiceRerunnable choiceMade ?_ ?_
      · intro child below item inside itemMade
        exact smaller _ (size ▸ inside.height_lt) (choiceRerunnable.child below) itemMade rfl
      · exact fun other otherRerunnable otherMade => ih otherRerunnable otherMade

/-- Whoever made the value, its tags for encoding are there. -/
theorem fits_of_made (rerunnable : schema.Throughout targets (Rerunnable targets settings))
    (made : Made targets settings schema value) :
    ∀ tag ∈ schema.tags .encode, tag.Fits value := fun tag inTags =>
  (admits_outputSide_of_made rerunnable made).fits tag
    (mem_tags_outputSide (not_isTransform_of_checks fun node reached =>
      (rerunnable node reached).checks) inTags)

end Run

end SchemaCodec
