import SchemaCodec.Proofs.Number.Equal
import SchemaCodec.Proofs.Run.Layout
import SchemaCodec.Proofs.Schema.Identity
import SchemaCodec.Proofs.Schema.TagIndex
import SchemaCodec.Proofs.Schema.WellFormed
import SchemaCodec.Value.Display

/-!
What successful runs say about tags. Where the side that a run starts from comes down to literals,
the input is one of them; where the output side does, a decoded value is one of them. So a member of
a union that succeeds finds all its tags in the input, and a value that it decodes has all the tags
that encoding asks for. A side is computed and never run itself, so the argument follows how sides
are made.
-/

namespace SchemaCodec

/-- Texts tell apart what literals tell apart. -/
private theorem Literal.text_of_accepts {literal : Literal} {value : Value}
    (accepted : literal.accepts value = true) : value.display = literal.text := by
  cases literal with
  | number n =>
      cases value with
      | number other => exact (Number.text_of_equal accepted).symm
      | _ => cases accepted
  | null =>
      cases value with
      | null => rfl
      | _ => cases accepted
  | _ =>
      cases value <;> simp only [Literal.accepts, beq_iff_eq, Bool.false_eq_true] at accepted
      cases accepted
      rfl

private theorem Literal.not_accepts_undefined (literal : Literal) :
    literal.accepts .undefined = false := by
  cases literal <;> rfl

/-- The input is an object with the text of the tag's literal under the tag's key. -/
def Tag.Fits (tag : Tag) (input : Value) : Prop :=
  ∃ members value, input = .object members ∧ Table.find? tag.key members = some value ∧
    value.display = tag.literal.text

def Kind.ChecksResults : Kind Schema → Prop
  | .transform _ _ _ _ strict => strict = true
  | _ => True

namespace Run

variable {targets : Targets}

/-- The first schema that does not fail gives the value. -/
theorem firstOf_eq_ok_iff {run : Schema → Value → Option Outcome} {input value : Value}
    {faults : List Fault} {schemas : List Schema} :
    firstOf run input faults schemas = some (.ok value) ↔
      ∃ front schema back, schemas = front ++ schema :: back ∧
        run schema input = some (.ok value) ∧
        ∀ other ∈ front, ∃ inner, run other input = some (.error inner) := by
  induction schemas generalizing faults with
  | nil =>
      constructor
      · intro found
        simp only [firstOf, pure, Option.some.injEq] at found
        split at found <;> cases found
      · rintro ⟨front, schema, back, split, _⟩
        cases front <;> cases split
  | cons first rest ih =>
      constructor
      · intro found
        obtain ⟨outcome, ran, after⟩ := Option.bind_eq_some_iff.mp found
        cases outcome with
        | ok result =>
            cases after
            exact ⟨[], first, rest, rfl, ran, nofun⟩
        | error inner =>
            obtain ⟨front, schema, back, rfl, later, failed⟩ := ih.mp after
            exact ⟨first :: front, schema, back, rfl, later,
              List.forall_mem_cons.mpr ⟨⟨inner, ran⟩, failed⟩⟩
      · rintro ⟨front, schema, back, split, ran, failed⟩
        cases front with
        | nil =>
            cases split
            exact Option.bind_eq_some_iff.mpr ⟨_, ran, rfl⟩
        | cons other front =>
            cases split
            obtain ⟨⟨inner, failedFirst⟩, failedRest⟩ := List.forall_mem_cons.mp failed
            exact Option.bind_eq_some_iff.mpr
              ⟨_, failedFirst, ih.mpr ⟨front, schema, back, rfl, ran, failedRest⟩⟩

/-- A union succeeds only through one of its members. -/
theorem exists_of_union_ok {run : Schema → Value → Option Outcome} {direction : Direction}
    {members : List Schema} {input value : Value}
    (found : union run direction members input = some (.ok value)) :
    ∃ member ∈ members, run member input = some (.ok value) := by
  obtain ⟨front, member, back, split, ran, _⟩ := firstOf_eq_ok_iff.mp found
  have inOrder : member ∈ front ++ member :: back := by simp
  rw [← split] at inOrder
  obtain ⟨position, _, atPosition⟩ := List.mem_filterMap.mp inOrder
  exact ⟨member, List.mem_of_getElem? atPosition, ran⟩

theorem yields_union {settings : Settings} {schema : Schema} {members : List Schema}
    (isUnion : schema.kind = .union members) {input : Value} {outcome : Outcome} :
    Yields targets settings schema input outcome ↔
      union (outcome? targets settings.failingFast) settings.direction members input =
        some outcome := by
  rw [yields_iff_step]
  unfold step
  rw [isUnion]

/-! ### Literals -/

open Schema

private theorem literal_of_leaf {side : Side} {schema : Schema} (leaf : schema.kind.IsLeaf)
    {input : Value} (only : (schema.sideOf side).OnlyLiterals)
    (admits : schema.kind.admits input = true) :
    ∃ node ∈ (schema.sideOf side).flattened,
      ∃ literal, node.kind = .literal literal ∧ literal.accepts input = true := by
  rw [sideOf_leaf leaf] at only ⊢
  have notPlain : ¬schema.IsPlainUnion := by
    rintro ⟨_, members, isUnion⟩
    rw [isUnion] at leaf
    exact leaf
  have here : schema ∈ schema.flattened := by
    rw [flattened_of_not_plain notPlain]
    exact List.mem_singleton.mpr rfl
  have possible : schema.isNever = false := by
    refine isNever_of_kind rfl fun never => ?_
    rw [never] at admits
    cases admits
  obtain ⟨literal, isLiteral⟩ := only schema here possible
  rw [isLiteral] at admits
  exact ⟨schema, here, literal, isLiteral, admits⟩

/-- If the side that the run starts from comes down to literals, the input is one of them. -/
theorem literal_of_run {roots : List Schema} (tell : IdentitiesTell roots) {settings : Settings}
    {schema : Schema} (derived : Derived roots schema) {input value : Value}
    (only : (schema.sideOf settings.direction.startSide).OnlyLiterals)
    (ran : Yields targets settings schema input (.ok value)) :
    ∃ node ∈ (schema.sideOf settings.direction.startSide).flattened,
      ∃ literal, node.kind = .literal literal ∧ literal.accepts input = true := by
  induction schema using childInduction generalizing settings value with
  | node schema ih =>
      have level := yields_iff_step.mp ran
      have shape := only.mayBe
      generalize kindAt : schema.kind = kind at shape
      cases shape with
      | leaf isLeaf =>
          have leaf := isLeaf_of_kind kindAt isLeaf
          exact literal_of_leaf leaf only ((step_leaf leaf).mp level).1
      | union members =>
          obtain ⟨member, inMembers, memberRan⟩ :=
            exists_of_union_ok ((yields_union kindAt).mp ran)
          have below := member_mem_children kindAt inMembers
          exact exists_literal_of_member tell derived kindAt only inMembers fun memberOnly =>
            @ih member below settings.failingFast (derived.child below) value memberOnly
              (outcome?_eq_some.mp memberRan)
      | refinement source filter onInput =>
          have below := refined_mem_children kindAt
          cases directed : settings.direction with
          | decode =>
              have sourceRan := ((step_refinement_decode kindAt directed).mp level).1
              have viewed : schema.sideOf settings.direction.startSide =
                  source.sideOf settings.direction.startSide := by
                rw [directed]
                exact inputSide_refinement kindAt
              rw [viewed] at only
              rw [← directed, viewed]
              exact ih source below (derived.child below) only (outcome?_eq_some.mp sourceRan)
          | encode =>
              rw [directed] at onInput
              cases onInput
      | transform source target decode encode strict =>
          cases directed : settings.direction with
          | decode =>
              obtain ⟨given, _, sourceRan, _⟩ := (step_transform_decode kindAt directed).mp level
              have below := source_mem_children kindAt
              have viewed : schema.sideOf settings.direction.startSide =
                  source.sideOf settings.direction.startSide := by
                rw [directed]
                exact inputSide_transform kindAt
              rw [viewed] at only
              rw [← directed, viewed]
              exact ih source below (derived.child below) only (outcome?_eq_some.mp sourceRan)
          | encode =>
              obtain ⟨given, _, targetRan, _⟩ := (step_transform_encode kindAt directed).mp level
              have below := target_mem_children kindAt
              have viewed : schema.sideOf settings.direction.startSide =
                  target.sideOf settings.direction.startSide := by
                rw [directed]
                exact outputSide_transform kindAt
              rw [viewed] at only
              rw [← directed, viewed]
              exact ih target below (derived.child below) only (outcome?_eq_some.mp targetRan)

/-- If the output side comes down to literals, a decoded value is one of them. -/
private theorem literal_of_decoded {roots : List Schema} (tell : IdentitiesTell roots)
    {settings : Settings}
    {schema : Schema} (derived : Derived roots schema)
    (checks : schema.All (·.kind.ChecksResults)) {input value : Value}
    (only : (schema.sideOf .output).OnlyLiterals)
    (ran : Yields targets settings.decoding schema input (.ok value)) :
    ∃ node ∈ (schema.sideOf .output).flattened,
      ∃ literal, node.kind = .literal literal ∧ literal.accepts value = true := by
  induction schema using childInduction generalizing settings input value with
  | node schema ih =>
      have level := yields_iff_step.mp ran
      have shape := only.mayBe
      generalize kindAt : schema.kind = kind at shape
      cases shape with
      | leaf isLeaf =>
          have leaf := isLeaf_of_kind kindAt isLeaf
          obtain ⟨admits, rfl⟩ := (step_leaf leaf).mp level
          exact literal_of_leaf leaf only admits
      | refinement source filter onInput => cases onInput
      | union members =>
          obtain ⟨member, inMembers, memberRan⟩ :=
            exists_of_union_ok ((yields_union kindAt).mp ran)
          have below := member_mem_children kindAt inMembers
          exact exists_literal_of_member tell derived kindAt only inMembers fun memberOnly =>
            @ih member below settings.failingFast (derived.child below) (checks.child below) input
              value memberOnly (outcome?_eq_some.mp memberRan)
      | transform source target decode encode strict =>
          have isStrict : strict = true := by
            have here := checks.here
            rw [kindAt] at here
            exact here
          obtain ⟨given, result, _, _, after⟩ := (step_transform_decode kindAt rfl).mp level
          rw [if_pos isStrict] at after
          have below := target_mem_children kindAt
          rw [outputSide_transform kindAt] at only ⊢
          exact ih target below (derived.child below) (checks.child below) only
            (outcome?_eq_some.mp after)

/-! ### Tags -/

/-- A required field runs on its member, or on undefined if it is absent, and contributes what comes
of it. -/
theorem FieldsYield.of_required {run : Schema → Value → Option Outcome} {exact : Bool}
    {members entries : Members} {fields : List (Field Schema)} {field : Field Schema}
    (yields : FieldsYield run exact members fields entries) (inFields : field ∈ fields)
    (required : field.optional = false) :
    ∃ value result, run field.schema value = some (.ok result) ∧
      (Table.find? field.name members = some value ∨ value = .undefined) ∧
      (field.name, result) ∈ entries := by
  induction yields with
  | nil => cases inFields
  | present found ran _ ih =>
      rcases List.mem_cons.mp inFields with rfl | later
      · exact ⟨_, _, ran, Or.inl found, List.mem_cons_self⟩
      · obtain ⟨value, result, laterRan, given, contributed⟩ := ih later
        exact ⟨value, result, laterRan, given, List.mem_cons_of_mem _ contributed⟩
  | leftOut _ optional _ ih =>
      rcases List.mem_cons.mp inFields with rfl | later
      · rw [required] at optional
        cases optional
      · exact ih later
  | supplied _ _ _ ran _ ih =>
      rcases List.mem_cons.mp inFields with rfl | later
      · exact ⟨_, _, ran, Or.inr rfl, List.mem_cons_self⟩
      · obtain ⟨value, result, laterRan, given, contributed⟩ := ih later
        exact ⟨value, result, laterRan, given, List.mem_cons_of_mem _ contributed⟩

/-- Where a tag comes from. -/
theorem exists_field_of_mem_tags {direction : Direction} {fields : List (Field Schema)} {tag : Tag}
    (inTags : tag ∈ fields.filterMap (Field.tag? direction)) :
    ∃ field ∈ fields, field.optional = false ∧ field.name = tag.key ∧
      (field.schema.sideOf direction.startSide).kind = .literal tag.literal := by
  obtain ⟨field, inFields, made⟩ := List.mem_filterMap.mp inTags
  obtain ⟨required, named, viewed, isLiteral⟩ := Field.tag?_eq_some made
  exact ⟨field, inFields, required, named.symm, viewed ▸ isLiteral⟩

/-- A literal that is run, or seen from the side where the run starts, is found in the input. -/
theorem fits_of_field {tag : Tag} {members : Members} {value : Value}
    (accepted : tag.literal.accepts value = true)
    (found : Table.find? tag.key members = some value ∨ value = .undefined) :
    tag.Fits (.object members) := by
  rcases found with found | rfl
  · exact ⟨members, value, rfl, found, Literal.text_of_accepts accepted⟩
  · rw [Literal.not_accepts_undefined] at accepted
    cases accepted

private theorem flattened_of_literal {schema : Schema} {literal : Literal}
    (isLiteral : schema.kind = .literal literal) : schema.flattened = [schema] :=
  flattened_of_not_plain (not_plain_of_kind isLiteral nofun)

theorem onlyLiterals_of_literal {schema : Schema} {literal : Literal}
    (isLiteral : schema.kind = .literal literal) : schema.OnlyLiterals := by
  intro node inside _
  rw [flattened_of_literal isLiteral] at inside
  rw [List.mem_singleton.mp inside]
  exact ⟨literal, isLiteral⟩

/-- Of a single literal, the one that takes the value is the literal itself. -/
theorem accepts_of_flattened {schema : Schema} {literal : Literal} {value : Value}
    (isLiteral : schema.kind = .literal literal)
    (taken : ∃ node ∈ schema.flattened,
      ∃ other, node.kind = .literal other ∧ other.accepts value = true) :
    literal.accepts value = true := by
  obtain ⟨node, inside, other, isOther, accepted⟩ := taken
  rw [flattened_of_literal isLiteral] at inside
  rw [List.mem_singleton.mp inside, isLiteral] at isOther
  cases isOther
  exact accepted

/-- A value that decodes by the output side of a schema has the tags that encoding asks for. -/
private theorem fits_of_outputSide {settings : Settings} (decoding : settings.direction = .decode)
    {schema : Schema} {input value : Value}
    (ran : Yields targets settings schema.outputSide input (.ok value)) {tag : Tag}
    (inTags : tag ∈ schema.tags .encode) : tag.Fits input := by
  induction schema using childInduction generalizing value with
  | node schema ih =>
      have level := yields_iff_step.mp ran
      obtain ⟨id, annotations, kind⟩ := schema
      cases kind with
      | struct fields indexes =>
          obtain ⟨field, inFields, required, named, isLiteral⟩ := exists_field_of_mem_tags inTags
          have viewed : (Schema.node id annotations (.struct fields indexes)).outputSide.kind = _ :=
            kind_sideOf_struct rfl
          have parts : ¬(fields.map (Field.sideOf .output) = [] ∧
              indexes.map (IndexSignature.sideOf .output) = []) := by
            rintro ⟨none, _⟩
            rw [List.map_eq_nil_iff.mp none] at inFields
            cases inFields
          obtain ⟨members, rfl, _, declared, _, yields, _⟩ := (step_struct viewed parts).mp level
          obtain ⟨given, result, fieldRan, found, _⟩ :=
            yields.of_required (List.mem_map_of_mem inFields) required
          have leaf : (field.schema.sideOf .output).kind.IsLeaf := by
            rw [show (field.schema.sideOf .output).kind = _ from isLiteral]
            trivial
          have admits := ((step_leaf leaf).mp
            (yields_iff_step.mp (outcome?_eq_some.mp fieldRan))).1
          rw [show (field.schema.sideOf .output).kind = _ from isLiteral] at admits
          exact fits_of_field admits (named ▸ found)
      | refinement source filter =>
          have viewed :
              (Schema.node id annotations (.refinement source filter)).outputSide.kind = _ :=
            kind_outputSide_refinement rfl
          have sourceRan := ((step_refinement_decode viewed decoding).mp level).1
          exact ih source (List.mem_singleton.mpr rfl) (outcome?_eq_some.mp sourceRan) inTags
      | transform source target decode encode strict =>
          have viewed : (Schema.node id annotations
              (.transform source target decode encode strict)).outputSide = _ :=
            outputSide_transform rfl
          rw [viewed] at ran
          exact ih target (List.mem_cons_of_mem _ List.mem_cons_self) ran inTags
      | _ => cases inTags

/-- An input on which a run succeeds has all tags of the schema. -/
theorem fits_of_run {roots : List Schema} (tell : IdentitiesTell roots) {settings : Settings}
    {schema : Schema} (derived : Derived roots schema) {input value : Value}
    (ran : Yields targets settings schema input (.ok value)) {tag : Tag}
    (inTags : tag ∈ schema.tags settings.direction) : tag.Fits input := by
  induction schema using childInduction generalizing value with
  | node schema ih =>
      have level := yields_iff_step.mp ran
      obtain ⟨id, annotations, kind⟩ := schema
      cases kind with
      | struct fields indexes =>
          obtain ⟨field, inFields, required, named, isLiteral⟩ := exists_field_of_mem_tags inTags
          have parts : ¬(fields = [] ∧ indexes = []) := by
            rintro ⟨rfl, _⟩
            cases inFields
          obtain ⟨members, rfl, _, declared, _, yields, _⟩ := (step_struct rfl parts).mp level
          obtain ⟨given, result, fieldRan, found, _⟩ := yields.of_required inFields required
          have below : field.schema ∈ (Kind.struct fields indexes).children :=
            List.mem_append_left _ (List.mem_map_of_mem inFields)
          have taken := literal_of_run tell (derived.child below)
            (onlyLiterals_of_literal isLiteral) (outcome?_eq_some.mp fieldRan)
          exact fits_of_field (accepts_of_flattened isLiteral taken) (named ▸ found)
      | refinement source filter =>
          cases directed : settings.direction with
          | decode =>
              have sourceRan := ((step_refinement_decode rfl directed).mp level).1
              have below : source ∈ (Kind.refinement source filter).children :=
                List.mem_singleton.mpr rfl
              exact ih source below (derived.child below) (outcome?_eq_some.mp sourceRan) inTags
          | encode =>
              obtain ⟨given, validated, _⟩ := (step_refinement_encode rfl directed).mp level
              rw [directed] at inTags
              exact fits_of_outputSide rfl (outcome?_eq_some.mp validated) inTags
      | transform source target decode encode strict =>
          cases directed : settings.direction with
          | decode =>
              obtain ⟨given, _, sourceRan, _⟩ := (step_transform_decode rfl directed).mp level
              have below : source ∈ (Kind.transform source target decode encode strict).children :=
                List.mem_cons_self
              rw [directed] at inTags ih
              exact ih source below (derived.child below) (outcome?_eq_some.mp sourceRan) inTags
          | encode =>
              obtain ⟨given, _, targetRan, _⟩ := (step_transform_encode rfl directed).mp level
              have below : target ∈ (Kind.transform source target decode encode strict).children :=
                List.mem_cons_of_mem _ List.mem_cons_self
              rw [directed] at inTags ih
              exact ih target below (derived.child below) (outcome?_eq_some.mp targetRan) inTags
      | _ => cases inTags

/-- A decoded value has all tags that encoding asks for. -/
theorem fits_of_decoded {roots : List Schema} (tell : IdentitiesTell roots) {settings : Settings}
    {schema : Schema} (derived : Derived roots schema)
    (regular : schema.All fun node => node.kind.WellFormed ∧ node.kind.ChecksResults)
    {input value : Value} (ran : Yields targets settings.decoding schema input (.ok value))
    {tag : Tag} (inTags : tag ∈ schema.tags .encode) : tag.Fits value := by
  induction schema using childInduction generalizing input value with
  | node schema ih =>
      have level := yields_iff_step.mp ran
      obtain ⟨id, annotations, kind⟩ := schema
      cases kind with
      | struct fields indexes =>
          obtain ⟨field, inFields, required, named, isLiteral⟩ := exists_field_of_mem_tags inTags
          have parts : ¬(fields = [] ∧ indexes = []) := by
            rintro ⟨rfl, _⟩
            cases inFields
          obtain ⟨members, rfl, _, declared, indexed, yields, indexesYield, rfl⟩ :=
            (step_struct rfl parts).mp level
          obtain ⟨given, result, fieldRan, _, contributed⟩ := yields.of_required inFields required
          have below : field.schema ∈ (Kind.struct fields indexes).children :=
            List.mem_append_left _ (List.mem_map_of_mem inFields)
          change (field.schema.sideOf .output).kind = .literal tag.literal at isLiteral
          have checks := (regular.child below).imp fun node here => here.2
          have taken := literal_of_decoded tell (derived.child below) checks
            (onlyLiterals_of_literal isLiteral) (outcome?_eq_some.mp fieldRan)
          have found := find?_structOutput settings.options.excess regular.here.1.1 yields
            indexesYield contributed
          exact fits_of_field (accepts_of_flattened isLiteral taken) (Or.inl (named ▸ found))
      | refinement source filter =>
          have sourceRan := ((step_refinement_decode rfl rfl).mp level).1
          have below : source ∈ (Kind.refinement source filter).children :=
            List.mem_singleton.mpr rfl
          exact ih source below (derived.child below) (regular.child below)
            (outcome?_eq_some.mp sourceRan) inTags
      | transform source target decode encode strict =>
          have isStrict : strict = true := regular.here.2
          obtain ⟨given, result, _, _, after⟩ := (step_transform_decode rfl rfl).mp level
          rw [if_pos isStrict] at after
          have below : target ∈ (Kind.transform source target decode encode strict).children :=
            List.mem_cons_of_mem _ List.mem_cons_self
          exact ih target below (derived.child below) (regular.child below)
            (outcome?_eq_some.mp after) inTags
      | _ => cases inTags

end Run

end SchemaCodec
