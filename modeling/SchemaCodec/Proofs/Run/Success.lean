import Mathlib.Data.List.Forall2
import SchemaCodec.Proofs.Run.Depth
import SchemaCodec.Proofs.Schema.SideView

/-!
When a level of a run succeeds. Each kind of node has one law, which says what the runs below it
give and what becomes of their values; it holds for runs of any depth and for outcomes without a
bound alike. What a level collects does not depend on whether it stops at the first fault.
-/

namespace SchemaCodec

/-- The values that a kind without parts takes. -/
def Kind.admits : Kind Schema → Value → Bool
  | .keyword word, input => word.accepts input
  | .literal single, input => single.accepts input
  | .uniqueSymbol symbol, .symbol s => s == symbol
  | .enums members, input => members.any fun member => member.value.accepts input
  | .template pattern, .string text => pattern.accepts text
  | _, _ => false

namespace Run

def Settings.encoding (settings : Settings) : Settings :=
  { settings with direction := .encode }

/-! ### Collecting -/

/-- A result that only a value can lead on to. -/
private theorem bind_eq_ok_iff {ε η α β : Type} {result : Option (Except ε α)}
    {next : Except ε α → Option (Except η β)}
    (fails : ∀ fault value, next (.error fault) ≠ some (.ok value)) (value : β) :
    (result >>= next) = some (.ok value) ↔
      ∃ given, result = some (.ok given) ∧ next (.ok given) = some (.ok value) := by
  constructor
  · intro found
    obtain ⟨outcome, reached, after⟩ := Option.bind_eq_some_iff.mp found
    cases outcome with
    | error fault => exact absurd after (fails fault value)
    | ok given => exact ⟨given, reached, after⟩
  · rintro ⟨given, rfl, after⟩
    exact after

theorem mem_faultsOf {α : Type} {all : List (Except Fault α)} {fault : Fault}
    (member : .error fault ∈ all) : fault ∈ faultsOf all := by
  induction all with
  | nil => cases member
  | cons result rest ih =>
      rcases List.mem_cons.mp member with rfl | later
      · exact List.mem_cons_self
      · cases result with
        | error _ => exact List.mem_cons_of_mem _ (ih later)
        | ok _ => exact ih later

abbrev Succeed {α : Type} : List (Option (Except Fault α)) → List α → Prop :=
  List.Forall₂ fun step value => step = some (.ok value)

private theorem succeed_nil_iff {α : Type} {values : List α} : Succeed [] values ↔ values = [] :=
  List.forall₂_nil_left_iff

private theorem succeed_cons_iff {α : Type} {step : Option (Except Fault α)}
    {rest : List (Option (Except Fault α))} {values : List α} :
    Succeed (step :: rest) values ↔
      ∃ value others, step = some (.ok value) ∧ Succeed rest others ∧ values = value :: others :=
  List.forall₂_cons_left_iff

private theorem results_eq_some_iff {α : Type} (mode : FaultMode)
    (steps : List (Option (Except Fault α)))
    (values : List α) :
    (∃ all, results mode steps = some all ∧ faultsOf all = [] ∧ valuesOf all = values) ↔
      Succeed steps values := by
  induction steps generalizing values with
  | nil =>
      rw [succeed_nil_iff]
      constructor
      · rintro ⟨all, found, _, rfl⟩
        cases found
        rfl
      · rintro rfl
        exact ⟨[], rfl, rfl, rfl⟩
  | cons step rest ih =>
      rw [succeed_cons_iff]
      rcases step with _ | fault | value
      · constructor
        · rintro ⟨all, found, _⟩
          cases found
        · rintro ⟨value, others, absent, _⟩
          cases absent
      · constructor
        · rintro ⟨all, found, clean, _⟩
          cases mode with
          | first =>
              cases found
              cases clean
          | all =>
              obtain ⟨others, _, made⟩ := Option.bind_eq_some_iff.mp found
              cases made
              cases clean
        · rintro ⟨value, others, absent, _⟩
          cases absent
      · constructor
        · rintro ⟨all, found, clean, rfl⟩
          obtain ⟨others, later, made⟩ := Option.bind_eq_some_iff.mp found
          cases made
          exact ⟨value, valuesOf others, rfl, (ih _).mp ⟨others, later, clean, rfl⟩, rfl⟩
        · rintro ⟨_, others, sameStep, follows, rfl⟩
          cases sameStep
          obtain ⟨all, later, clean, same⟩ := (ih others).mpr follows
          refine ⟨.ok value :: all, ?_, clean, by rw [valuesOf, same]⟩
          simp only [results, later]
          rfl

theorem settle_eq_ok_iff {α : Type} {all : List (Except Fault α)} {values : List α} :
    settle all = .ok values ↔ faultsOf all = [] ∧ valuesOf all = values := by
  unfold settle
  cases faultsOf all with
  | nil => exact ⟨fun same => ⟨rfl, Except.ok.inj same⟩, fun same => congrArg Except.ok same.2⟩
  | cons fault rest => exact ⟨nofun, nofun⟩

/-- A level succeeds if all steps do, in either fault mode. -/
private theorem collect_eq_ok_iff {α : Type} (mode : FaultMode)
    (steps : List (Option (Except Fault α)))
    (values : List α) :
    collect mode steps = some (.ok values) ↔
      Succeed steps values := by
  rw [← results_eq_some_iff mode]
  constructor
  · intro found
    obtain ⟨all, reached, settled⟩ := Option.bind_eq_some_iff.mp found
    exact ⟨all, reached, settle_eq_ok_iff.mp (Option.some.inj settled)⟩
  · intro ⟨all, reached, clean⟩
    exact Option.bind_eq_some_iff.mpr ⟨all, reached, congrArg some (settle_eq_ok_iff.mpr clean)⟩

private theorem succeed_append_iff {α : Type} {steps others : List (Option (Except Fault α))}
    {values : List α} :
    Succeed (steps ++ others) values ↔
      ∃ front back, Succeed steps front ∧ Succeed others back ∧ front ++ back = values := by
  constructor
  · intro succeed
    exact ⟨_, _, List.forall₂_take_append values steps others succeed.flip |>.flip,
      List.forall₂_drop_append values steps others succeed.flip |>.flip, List.take_append_drop _ _⟩
  · rintro ⟨front, back, succeed, succeedToo, rfl⟩
    exact List.rel_append succeed succeedToo

private theorem not_succeed_error {α : Type} {fault : Fault} {rest : List (Option (Except Fault α))}
    {values : List α} : ¬Succeed (pure (.error fault) :: rest) values := by
  intro succeed
  cases succeed with
  | cons head _ => cases head

theorem collect_map_eq_ok_iff {α β : Type} (mode : FaultMode)
    (steps : List (Option (Except Fault α))) (function : List α → β) (value : β) :
    (do return (← collect mode steps).map function) = some (.ok value) ↔
      ∃ values, Succeed steps values ∧
        function values = value := by
  rw [bind_eq_ok_iff fun _ _ absent => by cases absent]
  constructor
  · rintro ⟨values, collected, made⟩
    cases made
    exact ⟨values, (collect_eq_ok_iff mode steps values).mp collected, rfl⟩
  · rintro ⟨values, follows, rfl⟩
    exact ⟨values, (collect_eq_ok_iff mode steps values).mpr follows, rfl⟩

/-! ### Tuples -/

variable {run : Schema → Value → Option Outcome}

private theorem itemStep_eq_ok_iff (position : Nat) (schema : Schema) (item result : Value) :
    itemStep run position schema item = some (.ok result) ↔ run schema item = some (.ok result) := by
  rw [itemStep, bind_eq_ok_iff fun _ _ absent => by cases absent]
  constructor
  · rintro ⟨given, ran, made⟩
    cases made
    exact ran
  · intro ran
    exact ⟨result, ran, rfl⟩

/-- Each item related to a result by the schema of its position; there may be more schemas than
items. -/
inductive ItemsMatch (relates : Schema → Value → Value → Prop) :
    List Schema → List Value → List Value → Prop where
  | nil (schemas : List Schema) : ItemsMatch relates schemas [] []
  | cons {schema : Schema} {schemas : List Schema} {item result : Value}
      {items results : List Value} (head : relates schema item result)
      (tail : ItemsMatch relates schemas items results) :
      ItemsMatch relates (schema :: schemas) (item :: items) (result :: results)

abbrev ItemsYield (run : Schema → Value → Option Outcome) :
    List Schema → List Value → List Value → Prop :=
  ItemsMatch fun schema item result => run schema item = some (.ok result)

private theorem itemSteps_succeed_iff (first : Nat) {schemas : List Schema} {items : List Value}
    (enough : items.length ≤ schemas.length) (results : List Value) :
    Succeed (itemSteps run first schemas items)
      results ↔ ItemsYield run schemas items results := by
  induction items generalizing first schemas results with
  | nil =>
      have none : itemSteps run first schemas [] = [] := by cases schemas <;> rfl
      rw [none, succeed_nil_iff]
      constructor
      · rintro rfl
        exact .nil schemas
      · intro yields
        cases yields
        rfl
  | cons item items ih =>
      cases schemas with
      | nil => simp at enough
      | cons schema schemas =>
          rw [itemSteps, succeed_cons_iff]
          have later := ih (first + 1) (Nat.le_of_succ_le_succ enough)
          constructor
          · rintro ⟨result, others, head, tail, rfl⟩
            exact .cons ((itemStep_eq_ok_iff first schema item result).mp head)
              ((later others).mp tail)
          · intro yields
            cases yields with
            | cons head tail =>
                exact ⟨_, _, (itemStep_eq_ok_iff first schema item _).mpr head,
                  (later _).mpr tail, rfl⟩

theorem ItemsMatch.exists_of_mem_zip {relates : Schema → Value → Value → Prop}
    {schemas : List Schema} {items results : List Value}
    (matched : ItemsMatch relates schemas items results) {schema : Schema} {result : Value}
    (together : (schema, result) ∈ schemas.zip results) : ∃ item, relates schema item result := by
  induction matched with
  | nil schemas =>
      rw [List.zip_nil_right] at together
      cases together
  | cons head _ ih =>
      rcases List.mem_cons.mp together with here | later
      · cases here
        exact ⟨_, head⟩
      · exact ih later

theorem ItemsMatch.at_position {relates : Schema → Value → Value → Prop} {schemas : List Schema}
    {items results : List Value} (matched : ItemsMatch relates schemas items results)
    {position : Nat} {schema : Schema} {item : Value} (inSchemas : schemas[position]? = some schema)
    (inItems : items[position]? = some item) : ∃ result, relates schema item result := by
  induction matched generalizing position with
  | nil _ => cases inItems
  | cons head _ ih =>
      cases position with
      | zero =>
          cases inSchemas
          cases inItems
          exact ⟨_, head⟩
      | succ position => exact ih inSchemas inItems

theorem length_slots (elements : List (Element Schema)) {rest : List Schema} (count : Nat)
    (open_ : rest = [] → count ≤ elements.length) : count ≤ (slots elements rest count).length := by
  cases rest with
  | nil => simpa [slots] using open_ rfl
  | cons repeated trailing =>
      simp only [slots, List.length_append, List.length_map, List.length_replicate]
      omega

theorem slots_map (side : Side) (elements : List (Element Schema)) (rest : List Schema)
    (count : Nat) :
    slots (elements.map (Element.sideOf side)) (rest.map (Schema.sideOf side)) count =
      (slots elements rest count).map (Schema.sideOf side) := by
  have leading : (elements.map (Element.sideOf side)).map Element.schema =
      (elements.map Element.schema).map (Schema.sideOf side) := by
    rw [List.map_map, List.map_map]
    rfl
  cases rest with
  | nil => simp only [slots, List.map_nil, leading]
  | cons repeated trailing =>
      simp only [slots, List.map_cons, leading, List.map_append, List.length_map,
        List.map_replicate]

private theorem missingItems_succeed_iff (elements : List (Element Schema)) (rest : List Schema)
    (count : Nat) (values : List Value) :
    Succeed (missingItems elements rest count) values ↔
      requiredCount elements rest ≤ count ∧ values = [] := by
  unfold missingItems
  cases more : requiredCount elements rest - count with
  | zero =>
      rw [List.range'_zero, List.map_nil, succeed_nil_iff]
      exact ⟨fun none => ⟨by omega, none⟩, fun here => here.2⟩
  | succ missing =>
      rw [List.range'_succ, List.map_cons]
      exact ⟨fun succeed => absurd succeed not_succeed_error, fun here => by omega⟩

private theorem excessItems_succeed_iff (first : Nat) (extra values : List Value) :
    Succeed (excessItems first extra) values ↔ extra = [] ∧ values = [] := by
  cases extra with
  | nil =>
      rw [excessItems, succeed_nil_iff]
      exact ⟨fun none => ⟨rfl, none⟩, fun here => here.2⟩
  | cons item rest =>
      rw [excessItems]
      exact ⟨fun succeed => absurd succeed not_succeed_error, fun here => by cases here.1⟩

/-- A tuple succeeds if no item is missing or beyond the elements, and each item succeeds. -/
theorem tuple_eq_ok_iff (mode : FaultMode) (elements : List (Element Schema)) (rest : List Schema)
    (items : List Value) (value : Value) :
    tuple run mode elements rest items = some (.ok value) ↔
      requiredCount elements rest ≤ items.length ∧
      (rest = [] → items.length ≤ elements.length) ∧
      ∃ results, ItemsYield run (slots elements rest items.length) items results ∧
        Value.array results = value := by
  have excess : ∀ values : List Value,
      Succeed (if rest.isEmpty then excessItems elements.length (items.drop elements.length) else [])
        values ↔ (rest = [] → items.length ≤ elements.length) ∧ values = [] := by
    intro values
    cases rest with
    | nil =>
        rw [List.isEmpty_nil, if_pos rfl, excessItems_succeed_iff, List.drop_eq_nil_iff]
        exact and_congr_left fun _ => ⟨fun bounded _ => bounded, fun bounded => bounded rfl⟩
    | cons repeated trailing =>
        rw [List.isEmpty_cons, if_neg Bool.false_ne_true, succeed_nil_iff]
        exact ⟨fun none => ⟨nofun, none⟩, fun here => here.2⟩
  unfold tuple
  rw [collect_map_eq_ok_iff]
  constructor
  · rintro ⟨values, succeed, made⟩
    obtain ⟨front, results, errors, ran, rfl⟩ := succeed_append_iff.mp succeed
    obtain ⟨missing, extra, noMissing, noExtra, rfl⟩ := succeed_append_iff.mp errors
    obtain ⟨required, rfl⟩ := (missingItems_succeed_iff _ _ _ _).mp noMissing
    obtain ⟨bounded, rfl⟩ := (excess extra).mp noExtra
    have enough := length_slots elements items.length bounded
    exact ⟨required, bounded, results, (itemSteps_succeed_iff 0 enough results).mp ran, made⟩
  · rintro ⟨required, bounded, results, ran, made⟩
    have enough := length_slots elements items.length bounded
    refine ⟨results, succeed_append_iff.mpr ⟨[], results, ?_, ?_, rfl⟩, made⟩
    · exact succeed_append_iff.mpr ⟨[], [], (missingItems_succeed_iff _ _ _ _).mpr ⟨required, rfl⟩,
        (excess []).mpr ⟨bounded, rfl⟩, rfl⟩
    · exact (itemSteps_succeed_iff 0 enough results).mpr ran

/-! ### Structs -/

private theorem excessStep_eq_ok_iff {decodeKey : Schema → Value → Option Outcome}
    {fields : List (Field Schema)} {indexes : List (IndexSignature Schema)}
    {member : PropertyKey × Value} {result : Option (PropertyKey × Value)} :
    excessStep decodeKey fields indexes member = some (.ok result) ↔
      (isDeclared fields member.1 = true ∨ takesKey decodeKey member.1 indexes = some true) ∧
        result = none := by
  unfold excessStep
  by_cases declared : isDeclared fields member.1 = true
  · rw [if_pos declared]
    constructor
    · intro found
      cases found
      exact ⟨Or.inl declared, rfl⟩
    · rintro ⟨_, rfl⟩
      rfl
  · rw [if_neg declared]
    constructor
    · intro found
      obtain ⟨taken, takes, made⟩ := Option.bind_eq_some_iff.mp found
      cases taken with
      | false => cases made
      | true =>
          cases made
          exact ⟨Or.inr takes, rfl⟩
    · rintro ⟨isDeclared | takes, rfl⟩
      · exact absurd isDeclared declared
      · rw [takes]
        rfl

inductive FieldsYield (run : Schema → Value → Option Outcome) (exact : Bool) (members : Members) :
    List (Field Schema) → Members → Prop where
  | nil : FieldsYield run exact members [] []
  | present {field : Field Schema} {fields : List (Field Schema)} {entries : Members}
      {value result : Value} (found : Table.find? field.name members = some value)
      (ran : run field.schema value = some (.ok result))
      (tail : FieldsYield run exact members fields entries) :
      FieldsYield run exact members (field :: fields) ((field.name, result) :: entries)
  | leftOut {field : Field Schema} {fields : List (Field Schema)} {entries : Members}
      (absent : Table.find? field.name members = none) (optional : field.optional = true)
      (tail : FieldsYield run exact members fields entries) :
      FieldsYield run exact members (field :: fields) entries
  /-- An absent field counts as undefined. -/
  | supplied {field : Field Schema} {fields : List (Field Schema)} {entries : Members}
      {result : Value} (absent : Table.find? field.name members = none)
      (required : field.optional = false) (loose : exact = false)
      (ran : run field.schema .undefined = some (.ok result))
      (tail : FieldsYield run exact members fields entries) :
      FieldsYield run exact members (field :: fields) ((field.name, result) :: entries)

/-- What a single field contributes to. -/
theorem FieldsYield.exists_run {exact : Bool} {members entries : Members}
    {fields : List (Field Schema)} (yields : FieldsYield run exact members fields entries)
    {field : Field Schema} (inFields : field ∈ fields) :
    (∃ value result, Table.find? field.name members = some value ∧
      run field.schema value = some (.ok result)) ∨
    (Table.find? field.name members = none ∧ (field.optional = true ∨
      (exact = false ∧ ∃ result, run field.schema .undefined = some (.ok result)))) := by
  induction yields with
  | nil => cases inFields
  | present found ran _ ih =>
      rcases List.mem_cons.mp inFields with rfl | later
      · exact Or.inl ⟨_, _, found, ran⟩
      · exact ih later
  | leftOut absent optional _ ih =>
      rcases List.mem_cons.mp inFields with rfl | later
      · exact Or.inr ⟨absent, Or.inl optional⟩
      · exact ih later
  | supplied absent _ loose ran _ ih =>
      rcases List.mem_cons.mp inFields with rfl | later
      · exact Or.inr ⟨absent, Or.inr ⟨loose, _, ran⟩⟩
      · exact ih later

/-- Each entry comes from the member of its field, or from nothing where the member is absent. -/
theorem FieldsYield.exists_source {run : Schema → Value → Option Outcome} {exact : Bool}
    {members entries : Members} {fields : List (Field Schema)}
    (yields : FieldsYield run exact members fields entries) {entry : PropertyKey × Value}
    (contributed : entry ∈ entries) :
    ∃ field ∈ fields, field.name = entry.1 ∧ ∃ value : Value,
      (Table.find? field.name members = some value ∨ value = .undefined) ∧
        run field.schema value = some (.ok entry.2) := by
  induction yields with
  | nil => cases contributed
  | present found ran _ ih =>
      rcases List.mem_cons.mp contributed with rfl | later
      · exact ⟨_, List.mem_cons_self, rfl, _, Or.inl found, ran⟩
      · obtain ⟨field, inFields, made⟩ := ih later
        exact ⟨field, List.mem_cons_of_mem _ inFields, made⟩
  | leftOut _ _ _ ih =>
      obtain ⟨field, inFields, made⟩ := ih contributed
      exact ⟨field, List.mem_cons_of_mem _ inFields, made⟩
  | supplied _ _ _ ran _ ih =>
      rcases List.mem_cons.mp contributed with rfl | later
      · exact ⟨_, List.mem_cons_self, rfl, _, Or.inr rfl, ran⟩
      · obtain ⟨field, inFields, made⟩ := ih later
        exact ⟨field, List.mem_cons_of_mem _ inFields, made⟩

theorem FieldsYield.imp {others : Schema → Value → Option Outcome} {exact : Bool}
    {members entries : Members} {fields : List (Field Schema)}
    (yields : FieldsYield run exact members fields entries)
    (implies : ∀ field ∈ fields, ∀ value result, run field.schema value = some (.ok result) →
      others field.schema value = some (.ok result)) :
    FieldsYield others exact members fields entries := by
  induction yields with
  | nil => exact .nil
  | present found ran _ ih =>
      exact .present found (implies _ List.mem_cons_self _ _ ran)
        (ih fun field inRest => implies field (List.mem_cons_of_mem _ inRest))
  | leftOut absent optional _ ih =>
      exact .leftOut absent optional
        (ih fun field inRest => implies field (List.mem_cons_of_mem _ inRest))
  | supplied absent required loose ran _ ih =>
      exact .supplied absent required loose (implies _ List.mem_cons_self _ _ ran)
        (ih fun field inRest => implies field (List.mem_cons_of_mem _ inRest))

private theorem memberStep_eq_ok_iff {ran : Option Outcome} {key : PropertyKey}
    {fault : Faults → Fault} {result : Option (PropertyKey × Value)} :
    (do
      match ← ran with
      | .ok parsed => return .ok (some (key, parsed))
      | .error faults => return .error (fault faults) : Option MemberResult) = some (.ok result) ↔
      ∃ value, ran = some (.ok value) ∧ result = some (key, value) := by
  rw [bind_eq_ok_iff fun _ _ absent => by cases absent]
  constructor
  · rintro ⟨value, found, made⟩
    cases made
    exact ⟨value, found, rfl⟩
  · rintro ⟨value, found, rfl⟩
    exact ⟨value, found, rfl⟩

section Heads

variable {exact : Bool} {members entries : Members} {field : Field Schema}
  {fields : List (Field Schema)}

private theorem FieldsYield.cons_of_present {value : Value}
    (found : Table.find? field.name members = some value) :
    FieldsYield run exact members (field :: fields) entries ↔
      ∃ result tail, run field.schema value = some (.ok result) ∧
        FieldsYield run exact members fields tail ∧ entries = (field.name, result) :: tail := by
  constructor
  · intro yields
    cases yields with
    | present foundToo ran tail =>
        cases found.symm.trans foundToo
        exact ⟨_, _, ran, tail, rfl⟩
    | leftOut absent _ _ => cases found.symm.trans absent
    | supplied absent _ _ _ _ => cases found.symm.trans absent
  · rintro ⟨result, tail, ran, yields, rfl⟩
    exact .present found ran yields

private theorem FieldsYield.cons_of_leftOut (absent : Table.find? field.name members = none)
    (optional : field.optional = true) :
    FieldsYield run exact members (field :: fields) entries ↔
      FieldsYield run exact members fields entries := by
  constructor
  · intro yields
    cases yields with
    | present found _ _ => cases absent.symm.trans found
    | leftOut _ _ tail => exact tail
    | supplied _ required _ _ _ => cases optional.symm.trans required
  · exact .leftOut absent optional

private theorem FieldsYield.cons_of_required (absent : Table.find? field.name members = none)
    (required : field.optional = false) :
    FieldsYield run exact members (field :: fields) entries ↔
      exact = false ∧ ∃ result tail, run field.schema .undefined = some (.ok result) ∧
        FieldsYield run exact members fields tail ∧ entries = (field.name, result) :: tail := by
  constructor
  · intro yields
    cases yields with
    | present found _ _ => cases absent.symm.trans found
    | leftOut _ optional _ => cases required.symm.trans optional
    | supplied _ _ loose ran tail => exact ⟨loose, _, _, ran, tail, rfl⟩
  · rintro ⟨loose, result, tail, ran, yields, rfl⟩
    exact .supplied absent required loose ran yields

end Heads

/-- A step that gives an entry, in front of steps that give entries. -/
private theorem succeed_entry_cons_iff {ran : Option Outcome} {key : PropertyKey}
    {fault : Faults → Fault} {steps : List (Option MemberResult)} {gives : Members → Prop}
    (rest : ∀ results, Succeed steps results ↔ ∃ entries, gives entries ∧ results = entries.map some)
    (results : List (Option (PropertyKey × Value))) :
    Succeed ((do
      match ← ran with
      | .ok parsed => return .ok (some (key, parsed))
      | .error faults => return .error (fault faults) : Option MemberResult) :: steps) results ↔
      ∃ entries, (∃ value tail, ran = some (.ok value) ∧ gives tail ∧ entries = (key, value) :: tail) ∧
        results = entries.map some := by
  rw [succeed_cons_iff]
  constructor
  · rintro ⟨result, others, head, tail, rfl⟩
    obtain ⟨value, found, rfl⟩ := memberStep_eq_ok_iff.mp head
    obtain ⟨entries, given, rfl⟩ := (rest others).mp tail
    exact ⟨_, ⟨value, entries, found, given, rfl⟩, rfl⟩
  · rintro ⟨_, ⟨value, entries, found, given, rfl⟩, rfl⟩
    exact ⟨_, _, memberStep_eq_ok_iff.mpr ⟨value, found, rfl⟩, (rest _).mpr ⟨entries, given, rfl⟩, rfl⟩

private theorem fieldSteps_succeed_iff (exact : Bool) (members : Members)
    (fields : List (Field Schema))
    (results : List (Option (PropertyKey × Value))) :
    Succeed (fields.filterMap (fieldStep? run exact members)) results ↔
      ∃ entries, FieldsYield run exact members fields entries ∧ results = entries.map some := by
  induction fields generalizing results with
  | nil =>
      rw [List.filterMap_nil, succeed_nil_iff]
      constructor
      · rintro rfl
        exact ⟨[], .nil, rfl⟩
      · rintro ⟨entries, yields, rfl⟩
        cases yields
        rfl
  | cons field fields ih =>
      rw [List.filterMap_cons, fieldStep?]
      cases found : Table.find? field.name members with
      | some value =>
          simp only [FieldsYield.cons_of_present found]
          exact succeed_entry_cons_iff ih results
      | none =>
          cases optional : field.optional with
          | true =>
              simp only [if_true, FieldsYield.cons_of_leftOut found optional]
              exact ih results
          | false =>
              simp only [Bool.false_eq_true, if_false, FieldsYield.cons_of_required found optional]
              cases exact with
              | true =>
                  simp only [if_true, Bool.true_eq_false, false_and, exists_false, iff_false]
                  exact not_succeed_error
              | false =>
                  simp only [Bool.false_eq_true, if_false, true_and]
                  exact succeed_entry_cons_iff ih results

/-- The index signature takes the key of the member and makes the entry of its value. -/
structure EntryYields (run : Schema → Value → Option Outcome) (index : IndexSignature Schema)
    (member entry : PropertyKey × Value) : Prop where
  key : entry.1 = member.1
  taken : ∃ key, run index.parameter member.1.toValue = some (.ok key)
  ran : run index.schema member.2 = some (.ok entry.2)

inductive IndexesYield (run : Schema → Value → Option Outcome) (fields : List (Field Schema))
    (members : Members) : List (IndexSignature Schema) → Members → Prop where
  | nil : IndexesYield run fields members [] []
  | cons {index : IndexSignature Schema} {indexes : List (IndexSignature Schema)}
      {block entries : Members}
      (head : List.Forall₂ (EntryYields run index) (indexMembers fields index members) block)
      (tail : IndexesYield run fields members indexes entries) :
      IndexesYield run fields members (index :: indexes) (block ++ entries)

theorem IndexesYield.imp {others : Schema → Value → Option Outcome}
    {fields : List (Field Schema)} {members entries : Members}
    {indexes : List (IndexSignature Schema)}
    (yields : IndexesYield run fields members indexes entries)
    (implies : ∀ index ∈ indexes, ∀ child ∈ [index.parameter, index.schema], ∀ value result,
      run child value = some (.ok result) → others child value = some (.ok result)) :
    IndexesYield others fields members indexes entries := by
  induction yields with
  | nil => exact .nil
  | cons head _ ih =>
      have here := implies _ List.mem_cons_self
      refine .cons (head.imp fun member entry made => ?_)
        (ih fun index inRest => implies index (List.mem_cons_of_mem _ inRest))
      obtain ⟨key, taken⟩ := made.taken
      exact ⟨made.key, ⟨key, here _ List.mem_cons_self _ _ taken⟩,
        here _ (List.mem_cons_of_mem _ List.mem_cons_self) _ _ made.ran⟩

private theorem indexStep_eq_ok_iff {index : IndexSignature Schema} {member : PropertyKey × Value}
    {result : Option (PropertyKey × Value)} :
    indexStep run index member = some (.ok result) ↔
      ∃ entry, EntryYields run index member entry ∧ result = some entry := by
  unfold indexStep
  rw [bind_eq_ok_iff fun _ _ absent => by cases absent]
  constructor
  · rintro ⟨key, taken, after⟩
    obtain ⟨value, ran, rfl⟩ := memberStep_eq_ok_iff.mp after
    exact ⟨(member.1, value), ⟨rfl, ⟨key, taken⟩, ran⟩, rfl⟩
  · rintro ⟨⟨entryKey, value⟩, ⟨sameKey, ⟨key, taken⟩, ran⟩, rfl⟩
    cases sameKey
    exact ⟨key, taken, memberStep_eq_ok_iff.mpr ⟨value, ran, rfl⟩⟩

private theorem blockSteps_succeed_iff (index : IndexSignature Schema) (members : Members)
    (results : List (Option (PropertyKey × Value))) :
    Succeed (members.map (indexStep run index)) results ↔
      ∃ block, List.Forall₂ (EntryYields run index) members block ∧ results = block.map some := by
  induction members generalizing results with
  | nil =>
      rw [List.map_nil, succeed_nil_iff]
      constructor
      · rintro rfl
        exact ⟨[], .nil, rfl⟩
      · rintro ⟨block, follows, rfl⟩
        cases follows
        rfl
  | cons member members ih =>
      rw [List.map_cons, succeed_cons_iff]
      constructor
      · rintro ⟨result, others, head, tail, rfl⟩
        obtain ⟨entry, yields, rfl⟩ := indexStep_eq_ok_iff.mp head
        obtain ⟨block, follows, rfl⟩ := (ih others).mp tail
        exact ⟨_, .cons yields follows, rfl⟩
      · rintro ⟨block, follows, rfl⟩
        cases follows with
        | cons yields later =>
            exact ⟨_, _, indexStep_eq_ok_iff.mpr ⟨_, yields, rfl⟩, (ih _).mpr ⟨_, later, rfl⟩, rfl⟩

private theorem indexSteps_succeed_iff (fields : List (Field Schema)) (members : Members)
    (indexes : List (IndexSignature Schema)) (results : List (Option (PropertyKey × Value))) :
    Succeed (indexes.flatMap fun index =>
        (indexMembers fields index members).map (indexStep run index)) results ↔
      ∃ entries, IndexesYield run fields members indexes entries ∧ results = entries.map some := by
  induction indexes generalizing results with
  | nil =>
      rw [List.flatMap_nil, succeed_nil_iff]
      constructor
      · rintro rfl
        exact ⟨[], .nil, rfl⟩
      · rintro ⟨entries, yields, rfl⟩
        cases yields
        rfl
  | cons index indexes ih =>
      rw [List.flatMap_cons, succeed_append_iff]
      constructor
      · rintro ⟨front, back, head, tail, rfl⟩
        obtain ⟨block, follows, rfl⟩ := (blockSteps_succeed_iff index _ front).mp head
        obtain ⟨entries, yields, rfl⟩ := (ih back).mp tail
        exact ⟨_, .cons follows yields, List.map_append.symm⟩
      · rintro ⟨entries, yields, rfl⟩
        cases yields with
        | cons head tail =>
            exact ⟨_, _, (blockSteps_succeed_iff index _ _).mpr ⟨_, head, rfl⟩,
              (ih _).mpr ⟨_, tail, rfl⟩, List.map_append.symm⟩

def structOutput (excess : ExcessPolicy) (members entries : Members) : Members :=
  if excess = .preserve then preserve (Table.ofEntries entries) members else Table.ofEntries entries

def Expects (decodeKey : Schema → Value → Option Outcome) (fields : List (Field Schema))
    (indexes : List (IndexSignature Schema)) (key : PropertyKey) : Prop :=
  isDeclared fields key = true ∨ takesKey decodeKey key indexes = some true

private theorem excessSteps_succeed_iff {decodeKey : Schema → Value → Option Outcome}
    {fields : List (Field Schema)} {indexes : List (IndexSignature Schema)} {members : Members}
    {results : List (Option (PropertyKey × Value))} :
    Succeed (members.map (excessStep decodeKey fields indexes)) results ↔
      (∀ member ∈ members, Expects decodeKey fields indexes member.1) ∧
        results = members.map fun _ => none := by
  induction members generalizing results with
  | nil =>
      rw [List.map_nil, succeed_nil_iff]
      exact ⟨fun none => ⟨nofun, none⟩, fun here => here.2⟩
  | cons member members ih =>
      rw [List.map_cons, succeed_cons_iff, List.forall_mem_cons, List.map_cons]
      constructor
      · rintro ⟨result, others, head, tail, rfl⟩
        obtain ⟨expected, rfl⟩ := excessStep_eq_ok_iff.mp head
        obtain ⟨expectedToo, rfl⟩ := ih.mp tail
        exact ⟨⟨expected, expectedToo⟩, rfl⟩
      · rintro ⟨⟨expected, expectedToo⟩, rfl⟩
        exact ⟨none, _, excessStep_eq_ok_iff.mpr ⟨expected, rfl⟩, ih.mpr ⟨expectedToo, rfl⟩, rfl⟩

private theorem excess_succeeds_iff {decodeKey : Schema → Value → Option Outcome}
    (excess : ExcessPolicy) (fields : List (Field Schema)) (indexes : List (IndexSignature Schema))
    (members : Members) :
    (∃ results, Succeed (if excess = .error then members.map (excessStep decodeKey fields indexes)
        else []) results ∧ results.filterMap id = []) ↔
      (excess = .error → ∀ member ∈ members, Expects decodeKey fields indexes member.1) := by
  by_cases strict : excess = .error
  · simp only [if_pos strict]
    constructor
    · rintro ⟨results, succeed, _⟩ _
      exact (excessSteps_succeed_iff.mp succeed).1
    · intro expected
      exact ⟨_, excessSteps_succeed_iff.mpr ⟨expected strict, rfl⟩, by simp⟩
  · simp only [if_neg strict]
    exact ⟨fun _ isStrict => absurd isStrict strict, fun _ => ⟨[], .nil, rfl⟩⟩

private theorem excess_contributes_nothing {decodeKey : Schema → Value → Option Outcome}
    {excess : ExcessPolicy} {fields : List (Field Schema)} {indexes : List (IndexSignature Schema)}
    {members : Members} {results : List (Option (PropertyKey × Value))}
    (succeed : Succeed (if excess = .error then
      members.map (excessStep decodeKey fields indexes) else []) results) :
    results.filterMap id = [] := by
  by_cases strict : excess = .error
  · rw [if_pos strict] at succeed
    rw [(excessSteps_succeed_iff.mp succeed).2]
    simp
  · rw [if_neg strict] at succeed
    rw [succeed_nil_iff.mp succeed]
    rfl

/-- A struct succeeds if no member is unexpected where none may be, and all its parts succeed. -/
theorem struct_eq_ok_iff {decodeKey : Schema → Value → Option Outcome} (options : Options)
    (fields : List (Field Schema)) (indexes : List (IndexSignature Schema)) (members : Members)
    (value : Value) :
    struct run decodeKey options fields indexes members = some (.ok value) ↔
      (options.excess = .error → ∀ member ∈ members, Expects decodeKey fields indexes member.1) ∧
      ∃ declared indexed, FieldsYield run options.exact members fields declared ∧
        IndexesYield run fields members indexes indexed ∧
        Value.object (structOutput options.excess members (declared ++ indexed)) = value := by
  have entries : ∀ (front : List (Option (PropertyKey × Value))) (declared indexed : Members),
      front.filterMap id = [] →
      (front ++ declared.map some ++ indexed.map some).filterMap (fun result => result) =
        declared ++ indexed := by
    intro front declared indexed none
    change (front ++ declared.map some ++ indexed.map some).filterMap id = _
    rw [List.filterMap_append, List.filterMap_append, none, List.filterMap_map, List.filterMap_map]
    simp
  unfold struct
  rw [collect_map_eq_ok_iff]
  constructor
  · rintro ⟨results, succeed, made⟩
    obtain ⟨front, back, head, tail, rfl⟩ := succeed_append_iff.mp succeed
    obtain ⟨unneeded, middle, first, second, rfl⟩ := succeed_append_iff.mp head
    obtain ⟨declared, fieldsYield, rfl⟩ := (fieldSteps_succeed_iff _ _ _ _).mp second
    obtain ⟨indexed, indexesYield, rfl⟩ := (indexSteps_succeed_iff _ _ _ _).mp tail
    have nothing := excess_contributes_nothing first
    refine ⟨(excess_succeeds_iff _ _ _ _).mp ⟨unneeded, first, nothing⟩, declared, indexed,
      fieldsYield, indexesYield, ?_⟩
    rw [← made, entries unneeded declared indexed nothing]
    rfl
  · rintro ⟨expected, declared, indexed, fieldsYield, indexesYield, made⟩
    obtain ⟨unneeded, first, nothing⟩ := (excess_succeeds_iff _ _ _ _).mpr expected
    refine ⟨unneeded ++ declared.map some ++ indexed.map some, ?_, ?_⟩
    · refine succeed_append_iff.mpr ⟨_, _, succeed_append_iff.mpr ⟨_, _, first, ?_, rfl⟩, ?_, rfl⟩
      · exact (fieldSteps_succeed_iff _ _ _ _).mpr ⟨declared, fieldsYield, rfl⟩
      · exact (indexSteps_succeed_iff _ _ _ _).mpr ⟨indexed, indexesYield, rfl⟩
    · rw [entries unneeded declared indexed nothing, ← made]
      rfl

/-! ### One level -/

section Level

variable {enter : LazyCell → Option Schema} {run : Settings → Schema → Value → Option Outcome}
  {settings : Settings} {schema : Schema} {input value : Value}

private theorem check_eq_ok_iff {accepted : Bool} :
    (pure (check accepted schema input) : Option Outcome) = some (.ok value) ↔
      accepted = true ∧ value = input := by
  unfold check
  cases accepted with
  | false => exact ⟨fun absent => (by cases absent), fun here => (by cases here.1)⟩
  | true =>
      constructor
      · intro found
        cases found
        exact ⟨rfl, rfl⟩
      · rintro ⟨_, rfl⟩
        rfl

theorem step_leaf (leaf : schema.kind.IsLeaf) :
    step enter run settings schema input = some (.ok value) ↔
      schema.kind.admits input = true ∧ value = input := by
  rw [← check_eq_ok_iff]
  unfold step
  cases kindAt : schema.kind with
  | keyword _ => rfl
  | literal _ => rfl
  | uniqueSymbol _ => cases input <;> rfl
  | enums _ => rfl
  | template _ => cases input <;> rfl
  | _ => rw [kindAt] at leaf; exact leaf.elim

theorem step_array {elements : List (Element Schema)} {rest : List Schema}
    (isTuple : schema.kind = .tuple elements rest) (items : List Value) :
    step enter run settings schema (.array items) =
      tuple (run settings) settings.options.faults elements rest items := by
  unfold step
  rw [isTuple]

theorem step_tuple {elements : List (Element Schema)} {rest : List Schema}
    (isTuple : schema.kind = .tuple elements rest) :
    step enter run settings schema input = some (.ok value) ↔
      ∃ items, input = .array items ∧ requiredCount elements rest ≤ items.length ∧
        (rest = [] → items.length ≤ elements.length) ∧
        ∃ results, ItemsYield (run settings) (slots elements rest items.length) items results ∧
          Value.array results = value := by
  cases input with
  | array items =>
      rw [step_array isTuple, tuple_eq_ok_iff]
      constructor
      · exact fun here => ⟨items, rfl, here⟩
      · rintro ⟨_, same, here⟩
        cases same
        exact here
  | _ =>
      unfold step
      rw [isTuple]
      constructor
      · intro absent
        cases absent
      · rintro ⟨_, same, _⟩
        cases same

/-- A struct without parts takes every value that is neither undefined nor null. -/
theorem step_struct_empty (isStruct : schema.kind = .struct [] []) :
    step enter run settings schema input = some (.ok value) ↔
      input.isNullish = false ∧ value = input := by
  unfold step
  rw [isStruct]
  have checked : (pure (check (!input.isNullish) schema input) : Option Outcome) =
      some (.ok value) ↔ (!input.isNullish) = true ∧ value = input := check_eq_ok_iff
  simpa using checked

theorem step_object {fields : List (Field Schema)} {indexes : List (IndexSignature Schema)}
    (isStruct : schema.kind = .struct fields indexes) (parts : ¬(fields = [] ∧ indexes = []))
    (members : Members) :
    step enter run settings schema (.object members) =
      struct (run settings) (run settings.decoding) settings.options fields indexes members := by
  have notEmpty : ¬((fields.isEmpty && indexes.isEmpty) = true) := by
    simpa [List.isEmpty_iff] using parts
  unfold step
  rw [isStruct]
  simp only [if_neg notEmpty]

theorem step_struct {fields : List (Field Schema)} {indexes : List (IndexSignature Schema)}
    (isStruct : schema.kind = .struct fields indexes) (parts : ¬(fields = [] ∧ indexes = [])) :
    step enter run settings schema input = some (.ok value) ↔
      ∃ members, input = .object members ∧
        (settings.options.excess = .error →
          ∀ member ∈ members, Expects (run settings.decoding) fields indexes member.1) ∧
        ∃ declared indexed,
          FieldsYield (run settings) settings.options.exact members fields declared ∧
          IndexesYield (run settings) fields members indexes indexed ∧
          Value.object (structOutput settings.options.excess members (declared ++ indexed)) =
            value := by
  cases input with
  | object members =>
      rw [step_object isStruct parts, struct_eq_ok_iff]
      constructor
      · exact fun here => ⟨members, rfl, here⟩
      · rintro ⟨_, same, here⟩
        cases same
        exact here
  | _ =>
      have notEmpty : ¬((fields.isEmpty && indexes.isEmpty) = true) := by
        simpa [List.isEmpty_iff] using parts
      unfold step
      rw [isStruct]
      simp only [if_neg notEmpty]
      constructor
      · intro absent
        cases absent
      · rintro ⟨_, same, _⟩
        cases same

theorem step_lazy {cell : LazyCell} {targets : Targets} (isLazy : schema.kind = .lazy cell) :
    step (fun cell => some (cell.resolve targets)) run settings schema input =
      run settings (cell.resolve targets) input := by
  unfold step
  rw [isLazy]
  rfl

theorem step_refinement_decode {source : Schema} {filter : Filter}
    (isRefinement : schema.kind = .refinement source filter)
    (decoding : settings.direction = .decode) :
    step enter run settings schema input = some (.ok value) ↔
      run settings source input = some (.ok value) ∧
        filter settings.options schema.expected value = none := by
  unfold step
  rw [isRefinement]
  simp only [decoding]
  rw [bind_eq_ok_iff fun _ _ absent => by cases absent]
  constructor
  · rintro ⟨given, ran, after⟩
    simp only at after
    split at after
    · cases after
    · cases after
      exact ⟨ran, ‹_›⟩
  · rintro ⟨ran, passes⟩
    refine ⟨value, ran, ?_⟩
    simp only [passes]
    rfl

theorem step_refinement_encode {source : Schema} {filter : Filter}
    (isRefinement : schema.kind = .refinement source filter)
    (encoding : settings.direction = .encode) :
    step enter run settings schema input = some (.ok value) ↔
      ∃ given, run settings.decoding schema.outputSide input = some (.ok given) ∧
        run settings source.withoutRefinements given = some (.ok value) := by
  unfold step
  rw [isRefinement]
  simp only [encoding]
  exact bind_eq_ok_iff (fun _ _ absent => by cases absent) value

private theorem transform_eq_ok_iff {run : Schema → Value → Option Outcome} {near far : Schema}
    {function : Transformer} {expected : Expected} {strict : Bool} :
    transform run settings expected near far function strict input = some (.ok value) ↔
      ∃ given result, run near input = some (.ok given) ∧
        transformer settings function expected given = .ok result ∧
        if strict then run far result = some (.ok value) else value = result := by
  unfold transform
  rw [bind_eq_ok_iff fun _ _ absent => by cases absent]
  refine exists_congr fun given => ?_
  constructor
  · rintro ⟨ran, after⟩
    simp only at after
    split at after
    · cases after
    · rename_i result applied
      refine ⟨result, ran, applied, ?_⟩
      cases strict with
      | true => exact after
      | false =>
          cases after
          rfl
  · rintro ⟨result, ran, applied, after⟩
    refine ⟨ran, ?_⟩
    simp only [applied]
    cases strict with
    | true => exact after
    | false =>
        cases after
        rfl

theorem step_transform_decode {source target : Schema} {decode encode : Transformer} {strict : Bool}
    (isTransform : schema.kind = .transform source target decode encode strict)
    (decoding : settings.direction = .decode) :
    step enter run settings schema input = some (.ok value) ↔
      ∃ given result, run settings source input = some (.ok given) ∧
        transformer settings decode schema.expected given = .ok result ∧
        if strict then run settings target result = some (.ok value) else value = result := by
  unfold step
  rw [isTransform]
  simp only [decoding]
  exact transform_eq_ok_iff

theorem step_transform_encode {source target : Schema} {decode encode : Transformer} {strict : Bool}
    (isTransform : schema.kind = .transform source target decode encode strict)
    (encoding : settings.direction = .encode) :
    step enter run settings schema input = some (.ok value) ↔
      ∃ given result, run settings target input = some (.ok given) ∧
        transformer settings encode schema.expected given = .ok result ∧
        if strict then run settings source result = some (.ok value) else value = result := by
  unfold step
  rw [isTransform]
  simp only [encoding]
  exact transform_eq_ok_iff

end Level

end Run

end SchemaCodec
