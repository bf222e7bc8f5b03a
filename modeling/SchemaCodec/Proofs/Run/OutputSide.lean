import SchemaCodec.Proofs.Run.Layout
import SchemaCodec.Proofs.Schema.WellFormed
import SchemaCodec.Schema.Refine

/-!
The output side and the results of decoding. Where no union chooses between shapes, where filters
read nothing but the value and transformations check what they make, the output side of a schema
takes every value that the schema decodes to, and leaves it as it is.
-/

namespace SchemaCodec

/-- Whether the filter passes depends on the value alone. -/
def Filter.ReadsValue (filter : Filter) : Prop :=
  ∀ options other expected otherExpected value,
    filter options expected value = none → filter other otherExpected value = none

theorem Schema.propertyFilter_readsValue (property : Value → Bool) :
    (propertyFilter property).ReadsValue := by
  intro options other expected otherExpected value passes
  unfold propertyFilter at passes ⊢
  by_cases holds : property value = true
  · rw [if_pos holds]
  · rw [if_neg holds] at passes
    cases passes

/-- What the results of decoding must not depend on: the choice of a union, a function of a
declaration, the order of two index signatures, the surroundings of a filter, or a function whose
result nobody checks. -/
def Kind.Steady : Kind Schema → Prop
  | .struct fields indexes =>
    (Kind.struct fields indexes).WellFormed ∧
      (indexes.map fun index => index.parameter.tellsSymbols).Nodup
  | .refinement _ filter => filter.ReadsValue
  | .transform _ _ _ _ strict => strict = true
  | .union _ => False
  | .declaration _ _ _ => False
  | _ => True

namespace Run

open Schema

/-! ### Parts of sides -/

section Sides

variable {run : Schema → Value → Option Outcome} {side : Side} {fields : List (Field Schema)}
  {indexes : List (IndexSignature Schema)}

theorem ItemsMatch.sides {relates : Schema → Value → Value → Prop} {schemas : List Schema}
    {items results : List Value}
    (matched : ItemsMatch (fun schema => relates (schema.sideOf side)) schemas items results) :
    ItemsMatch relates (schemas.map (Schema.sideOf side)) items results := by
  induction matched with
  | nil schemas => exact .nil _
  | cons head _ ih => exact .cons head ih

theorem ItemsMatch.of_sides {relates : Schema → Value → Value → Prop} {schemas : List Schema}
    {items results : List Value}
    (matched : ItemsMatch relates (schemas.map (Schema.sideOf side)) items results) :
    ItemsMatch (fun schema => relates (schema.sideOf side)) schemas items results := by
  induction schemas generalizing items results with
  | nil =>
      cases matched
      exact .nil _
  | cons first rest ih =>
      cases matched with
      | nil => exact .nil _
      | cons head tail => exact .cons head (ih tail)

theorem requiredCount_sides (elements : List (Element Schema)) (rest : List Schema) :
    requiredCount (elements.map (Element.sideOf side)) (rest.map (Schema.sideOf side)) =
      requiredCount elements rest := by
  unfold requiredCount
  rw [List.filter_map, List.length_map, List.length_map]
  rfl

theorem isDeclared_sides (fields : List (Field Schema)) (key : PropertyKey) :
    isDeclared (fields.map (Field.sideOf side)) key = isDeclared fields key := by
  unfold isDeclared
  rw [List.any_map]
  rfl

theorem FieldsYield.sides {exact : Bool} {members entries : Members}
    (yields : FieldsYield (fun schema => run (schema.sideOf side)) exact members fields entries) :
    FieldsYield run exact members (fields.map (Field.sideOf side)) entries := by
  induction yields with
  | nil => exact .nil
  | @present field _ _ _ _ found ran _ ih =>
      exact @FieldsYield.present _ _ _ (field.sideOf side) _ _ _ _ found ran ih
  | @leftOut field _ _ absent optional _ ih =>
      exact @FieldsYield.leftOut _ _ _ (field.sideOf side) _ _ absent optional ih
  | @supplied field _ _ _ absent required loose ran _ ih =>
      exact @FieldsYield.supplied _ _ _ (field.sideOf side) _ _ _ absent required loose ran ih

theorem FieldsYield.of_sides {exact : Bool} {members entries : Members}
    (yields : FieldsYield run exact members (fields.map (Field.sideOf side)) entries) :
    FieldsYield (fun schema => run (schema.sideOf side)) exact members fields entries := by
  induction fields generalizing entries with
  | nil =>
      cases yields
      exact .nil
  | cons field rest ih =>
      cases yields with
      | present found ran tail => exact .present found ran (ih tail)
      | leftOut absent optional tail => exact .leftOut absent optional (ih tail)
      | supplied absent required loose ran tail => exact .supplied absent required loose ran (ih tail)

private theorem parameter_outputSide {index : IndexSignature Schema}
    (parameter : index.parameter.isParameter = true) :
    (index.sideOf .output).parameter = index.parameter :=
  Schema.sideOf_output_of_isParameter parameter

private theorem indexMembers_outputSide {index : IndexSignature Schema}
    (parameter : index.parameter.isParameter = true) (members : Members) :
    indexMembers (fields.map (Field.sideOf .output)) (index.sideOf .output) members =
      indexMembers fields index members := by
  unfold indexMembers
  rw [parameter_outputSide parameter]
  simp only [isDeclared_sides]

theorem IndexesYield.outputSide {members entries : Members}
    (parameters : ∀ index ∈ indexes, index.parameter.isParameter = true)
    (yields : IndexesYield (fun schema => run (schema.sideOf .output)) fields members indexes
      entries) :
    IndexesYield run (fields.map (Field.sideOf .output)) members
      (indexes.map (IndexSignature.sideOf .output)) entries := by
  induction yields with
  | nil => exact .nil
  | cons head _ ih =>
      have here := parameters _ List.mem_cons_self
      refine .cons ?_ (ih fun index later => parameters index (List.mem_cons_of_mem _ later))
      rw [indexMembers_outputSide here]
      exact head.imp fun member entry made => ⟨made.key, made.taken, made.ran⟩

theorem IndexesYield.of_outputSide {members entries : Members}
    (parameters : ∀ index ∈ indexes, index.parameter.isParameter = true)
    (yields : IndexesYield run (fields.map (Field.sideOf .output)) members
      (indexes.map (IndexSignature.sideOf .output)) entries) :
    IndexesYield (fun schema => run (schema.sideOf .output)) fields members indexes entries := by
  induction indexes generalizing entries with
  | nil =>
      cases yields
      exact .nil
  | cons index rest ih =>
      cases yields with
      | cons head tail =>
          have here := parameters index List.mem_cons_self
          rw [indexMembers_outputSide here] at head
          refine .cons (head.imp fun member entry made => ⟨made.key, made.taken, made.ran⟩)
            (ih (fun other later => parameters other (List.mem_cons_of_mem _ later)) tail)

theorem takesKey_outputSide {decodeKey : Schema → Value → Option Outcome}
    (parameters : ∀ index ∈ indexes, index.parameter.isParameter = true) (key : PropertyKey) :
    takesKey decodeKey key (indexes.map (IndexSignature.sideOf .output)) =
      takesKey decodeKey key indexes := by
  induction indexes with
  | nil => rfl
  | cons index rest ih =>
      have later := ih fun other inRest => parameters other (List.mem_cons_of_mem _ inRest)
      rw [List.map_cons, takesKey, takesKey, later,
        parameter_outputSide (parameters index List.mem_cons_self)]

end Sides

/-! ### Decoded values stay -/

variable {targets : Targets} {settings : Settings} {schema : Schema} {input value : Value}

/-- What the output side of a schema does to what a run of the schema gives. -/
private def Keeps (targets : Targets) (settings : Settings)
    (run : Schema → Value → Option Outcome) (schema : Schema) : Prop :=
  ∀ input value, run schema input = some (.ok value) →
    Yields targets settings (schema.sideOf .output) value (.ok value)

private theorem takesKey_of_parse {depth : Nat} {indexes : List (IndexSignature Schema)}
    {key : PropertyKey} {taken : Bool}
    (takes : takesKey (parse targets depth settings) key indexes = some taken) :
    takesKey (outcome? targets settings) key indexes = some taken := by
  refine extending.rel_takesKey (fun index _ => ?_) key taken takes
  exact fun input outcome found => outcome?_eq_some.mpr ⟨depth, found⟩

theorem Expects.of_parse {depth : Nat} {fields : List (Field Schema)}
    {indexes : List (IndexSignature Schema)} {key : PropertyKey}
    (expected : Expects (parse targets depth settings) fields indexes key) :
    Expects (outcome? targets settings) fields indexes key :=
  expected.imp_right takesKey_of_parse

theorem Expects.outputSide {depth : Nat} {fields : List (Field Schema)}
    {indexes : List (IndexSignature Schema)} {key : PropertyKey}
    (parameters : ∀ index ∈ indexes, index.parameter.isParameter = true)
    (expected : Expects (parse targets depth settings) fields indexes key) :
    Expects (outcome? targets settings) (fields.map (Field.sideOf .output))
      (indexes.map (IndexSignature.sideOf .output)) key := by
  unfold Expects
  rw [isDeclared_sides, takesKey_outputSide parameters]
  exact expected.of_parse

private theorem keeps_tuple {depth : Nat} {elements : List (Element Schema)} {rest : List Schema}
    (isTuple : schema.kind = .tuple elements rest)
    (children : ∀ child ∈ schema.kind.children,
      Keeps targets settings (parse targets depth settings) child) :
    Keeps targets settings (parse targets (depth + 1) settings) schema := by
  intro input value found
  rw [parse_succ] at found
  obtain ⟨items, rfl, required, bounded, results, yields, rfl⟩ := (step_tuple isTuple).mp found
  rw [yields_iff_step, step_tuple (kind_sideOf_tuple isTuple)]
  have kept : ∀ child ∈ slots elements rest items.length, ∀ item result,
      parse targets depth settings child item = some (.ok result) →
      Yields targets settings (child.sideOf .output) result (.ok result) := fun child inSlots =>
    children child (by rw [isTuple]; exact mem_slots inSlots)
  have again : ItemsMatch (fun child result other =>
      outcome? targets settings (child.sideOf .output) result = some (.ok other))
      (slots elements rest items.length) results results := by
    obtain ⟨others, matched⟩ := @ItemsMatch.exists_match _ (fun child result other =>
      other = result ∧ Yields targets settings (child.sideOf .output) result (.ok result)) _ _ _
      yields fun child inSlots item result ran => ⟨result, rfl, kept child inSlots item result ran⟩
    cases matched.eq_of fun child result other related => related.1
    refine matched.imp fun child _ result other related => ?_
    rw [outcome?_eq_some, related.1]
    exact related.2
  refine ⟨results, rfl, ?_, ?_, results, ?_, rfl⟩
  · rw [requiredCount_sides, yields.length_eq]
    exact required
  · rw [yields.length_eq, List.length_map]
    exact fun none => bounded (List.map_eq_nil_iff.mp none)
  · rw [slots_map, yields.length_eq]
    exact again.sides

private theorem keeps_struct {depth : Nat} {fields : List (Field Schema)}
    {indexes : List (IndexSignature Schema)} (isStruct : schema.kind = .struct fields indexes)
    (steady : schema.kind.Steady)
    (children : ∀ child ∈ schema.kind.children,
      Keeps targets settings.decoding (parse targets depth settings.decoding) child) :
    Keeps targets settings.decoding (parse targets (depth + 1) settings.decoding) schema := by
  intro input value found
  rw [parse_succ] at found
  rw [yields_iff_step]
  rw [isStruct] at steady
  have viewed : (schema.sideOf .output).kind = _ := kind_sideOf_struct isStruct
  by_cases parts : fields = [] ∧ indexes = []
  · obtain ⟨rfl, rfl⟩ := parts
    obtain ⟨notNullish, rfl⟩ := (step_struct_empty isStruct).mp found
    exact (step_struct_empty viewed).mpr ⟨notNullish, rfl⟩
  · obtain ⟨⟨distinct, parameters⟩, kinds⟩ := steady
    obtain ⟨members, rfl, expected, declared, indexed, fieldsYield, indexesYield, rfl⟩ :=
      (step_struct isStruct parts).mp found
    have partsToo : ¬(fields.map (Field.sideOf .output) = [] ∧
        indexes.map (IndexSignature.sideOf .output) = []) := by
      simpa only [List.map_eq_nil_iff] using parts
    rw [step_struct viewed partsToo]
    have fieldKept : ∀ field ∈ fields,
        Keeps targets settings.decoding (parse targets depth settings.decoding) field.schema :=
      fun field inFields => children _ (field_mem_children isStruct inFields)
    have indexKept : ∀ index ∈ indexes,
        Keeps targets settings.decoding (parse targets depth settings.decoding) index.schema :=
      fun index inIndexes => children _ (index_mem_children isStruct inIndexes).2
    obtain ⟨others, matched⟩ := @ObjectsMatch.of_run _ _ members
      (fun parameter key => ∃ result,
        Yields targets settings.decoding parameter key.toValue (.ok result))
      (fun child result other => other = result ∧
        Yields targets settings.decoding (child.sideOf .output) result (.ok result))
      settings.options.excess fields indexes declared indexed distinct kinds fieldsYield
      indexesYield (fun index _ key ⟨result, taken⟩ => ⟨result, depth, taken⟩)
      (fun field inFields input result ran =>
        ⟨result, rfl, fieldKept field inFields input result ran⟩)
      (fun index inIndexes input result ran =>
        ⟨result, rfl, indexKept index inIndexes input result ran⟩)
    cases matched.eq_of fun child result other related => related.1
    obtain ⟨declaredAgain, indexedAgain, fieldsAgain, indexesAgain, same⟩ :=
      @ObjectsMatch.runs (fun child => outcome? targets settings.decoding (child.sideOf .output))
        _ _ _ _ _ _ _ matched distinct kinds settings.options.exact
        (fun index inIndexes key ⟨result, taken⟩ => ⟨result, by
          rw [Schema.sideOf_output_of_isParameter (parameters index inIndexes), outcome?_eq_some]
          exact taken⟩)
        (fun field _ result other related => by
          rw [outcome?_eq_some, related.1]
          exact related.2)
        (fun index _ result other related => by
          rw [outcome?_eq_some, related.1]
          exact related.2)
    refine ⟨_, rfl, fun strict member inMembers => ?_, declaredAgain, indexedAgain,
      fieldsAgain.sides, indexesAgain.outputSide parameters, congrArg Value.object same⟩
    exact (expects_structOutput distinct fieldsYield indexesYield (expected strict)
      inMembers).outputSide parameters

/-- The output side takes what decoding gives, and leaves it as it is. -/
theorem outputSide_keeps (steady : schema.Throughout targets fun node => node.kind.Steady)
    (ran : Yields targets settings.decoding schema input (.ok value)) :
    Yields targets settings.decoding schema.outputSide value (.ok value) := by
  obtain ⟨depth, found⟩ := ran
  induction depth generalizing schema input value with
  | zero => cases found
  | succ depth ih =>
      have children : ∀ child ∈ schema.kind.children,
          Keeps targets settings.decoding (parse targets depth settings.decoding) child :=
        fun child below input value found => ih (steady.child below) found
      have level := found
      rw [parse_succ] at level
      cases kindAt : schema.kind with
      | tuple elements rest => exact keeps_tuple kindAt children input value found
      | struct fields indexes => exact keeps_struct kindAt steady.here children input value found
      | union members =>
          have refuted := steady.here
          rw [kindAt] at refuted
          exact refuted.elim
      | declaration parameters decode encode =>
          have refuted := steady.here
          rw [kindAt] at refuted
          exact refuted.elim
      | lazy cell =>
          rw [step_lazy kindAt] at level
          have kept := ih (steady.enter kindAt) level
          have viewed : schema.outputSide.kind = _ := kind_sideOf_lazy kindAt
          rw [yields_iff_step, step_lazy viewed, outcome?_eq_some]
          exact kept
      | refinement source filter =>
          have reads : filter.ReadsValue := by
            have here := steady.here
            rw [kindAt] at here
            exact here
          obtain ⟨ran, passes⟩ := (step_refinement_decode kindAt rfl).mp level
          have below := refined_mem_children kindAt
          have viewed : schema.outputSide.kind = _ := kind_outputSide_refinement kindAt
          rw [yields_iff_step, step_refinement_decode viewed rfl, outcome?_eq_some]
          exact ⟨children source below _ _ ran, reads _ _ _ _ value passes⟩
      | transform source target decode encode strict =>
          have checks : strict = true := by
            have here := steady.here
            rw [kindAt] at here
            exact here
          obtain ⟨given, result, _, _, after⟩ := (step_transform_decode kindAt rfl).mp level
          rw [if_pos checks] at after
          have below := target_mem_children kindAt
          have viewed : schema.outputSide = _ := outputSide_transform kindAt
          rw [viewed]
          exact children target below _ _ after
      | _ =>
          have leaf := isLeaf_of_kind kindAt trivial
          have same := ((step_leaf leaf).mp level).2
          have viewed : schema.outputSide = schema := sideOf_leaf leaf
          rw [viewed]
          rw [← same] at found
          exact ⟨depth + 1, found⟩

end Run

end SchemaCodec
