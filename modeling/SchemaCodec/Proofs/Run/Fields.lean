import SchemaCodec.Proofs.Run.Depth
import SchemaCodec.Proofs.Run.Layout

/-!
Fields side by side. Two lists of fields contribute what the first contributes and then what the second
does, each from its own members; in another order fields contribute the same members in another order.
A struct that has nothing but fields gives just what these contribute.
-/

namespace SchemaCodec.Run

variable {run : Schema → Value → Option Outcome} {exact : Bool} {members entries : Members}
  {fields others : List (Field Schema)}

theorem FieldsYield.append_iff :
    FieldsYield run exact members (fields ++ others) entries ↔
      ∃ front back, FieldsYield run exact members fields front ∧
        FieldsYield run exact members others back ∧ entries = front ++ back := by
  constructor
  · intro yields
    induction fields generalizing entries with
    | nil => exact ⟨[], entries, .nil, yields, rfl⟩
    | cons field rest ih =>
        cases yields with
        | present found ran tail =>
            obtain ⟨front, back, inFront, inBack, rfl⟩ := ih tail
            exact ⟨_, back, .present found ran inFront, inBack, rfl⟩
        | leftOut absent optional tail =>
            obtain ⟨front, back, inFront, inBack, rfl⟩ := ih tail
            exact ⟨front, back, .leftOut absent optional inFront, inBack, rfl⟩
        | supplied absent required loose ran tail =>
            obtain ⟨front, back, inFront, inBack, rfl⟩ := ih tail
            exact ⟨_, back, .supplied absent required loose ran inFront, inBack, rfl⟩
  · rintro ⟨front, back, inFront, inBack, rfl⟩
    induction inFront with
    | nil => exact inBack
    | present found ran _ ih => exact .present found ran ih
    | leftOut absent optional _ ih => exact .leftOut absent optional ih
    | supplied absent required loose ran _ ih => exact .supplied absent required loose ran ih

theorem FieldsYield.cons_iff {field : Field Schema} :
    FieldsYield run exact members (field :: fields) entries ↔
      ∃ front back, FieldsYield run exact members [field] front ∧
        FieldsYield run exact members fields back ∧ entries = front ++ back :=
  @append_iff run exact members entries [field] fields

/-- In another order the fields contribute the same members in another order. -/
theorem FieldsYield.perm (reordered : fields.Perm others)
    (yields : FieldsYield run exact members fields entries) :
    ∃ moved, entries.Perm moved ∧ FieldsYield run exact members others moved := by
  induction reordered generalizing entries with
  | nil => exact ⟨entries, .refl _, yields⟩
  | cons field _ ih =>
      obtain ⟨front, back, inFront, inBack, rfl⟩ := FieldsYield.cons_iff.mp yields
      obtain ⟨moved, same, movedYield⟩ := ih inBack
      exact ⟨front ++ moved, same.append_left front,
        FieldsYield.cons_iff.mpr ⟨front, moved, inFront, movedYield, rfl⟩⟩
  | swap first second rest =>
      obtain ⟨front, _, inFront, later, rfl⟩ := FieldsYield.cons_iff.mp yields
      obtain ⟨middle, back, inMiddle, inBack, rfl⟩ := FieldsYield.cons_iff.mp later
      have behind := FieldsYield.cons_iff.mpr ⟨front, back, inFront, inBack, rfl⟩
      exact ⟨middle ++ (front ++ back), List.perm_append_comm_assoc _ _ _,
        FieldsYield.cons_iff.mpr ⟨middle, _, inMiddle, behind, rfl⟩⟩
  | trans _ _ ih ihToo =>
      obtain ⟨between, same, betweenYield⟩ := ih yields
      obtain ⟨moved, sameToo, movedYield⟩ := ihToo betweenYield
      exact ⟨moved, same.trans sameToo, movedYield⟩

/-- Only the members under the names of the fields matter. -/
theorem FieldsYield.of_same_members {given : Members}
    (same : ∀ field ∈ fields, Table.find? field.name given = Table.find? field.name members)
    (yields : FieldsYield run exact members fields entries) :
    FieldsYield run exact given fields entries := by
  induction yields with
  | nil => exact .nil
  | present found ran _ ih =>
      obtain ⟨here, later⟩ := List.forall_mem_cons.mp same
      exact .present (here.trans found) ran (ih later)
  | leftOut absent optional _ ih =>
      obtain ⟨here, later⟩ := List.forall_mem_cons.mp same
      exact .leftOut (here.trans absent) optional (ih later)
  | supplied absent required loose ran _ ih =>
      obtain ⟨here, later⟩ := List.forall_mem_cons.mp same
      exact .supplied (here.trans absent) required loose ran (ih later)

theorem FieldsYield.unique {given : Members}
    (yields : FieldsYield run exact members fields entries)
    (yieldsToo : FieldsYield run exact members fields given) : entries = given := by
  induction yields generalizing given with
  | nil =>
      cases yieldsToo
      rfl
  | present found ran _ ih =>
      cases yieldsToo with
      | present foundToo ranToo tail =>
          cases found.symm.trans foundToo
          cases ran.symm.trans ranToo
          rw [ih tail]
      | leftOut absent _ _ => cases found.symm.trans absent
      | supplied absent _ _ _ _ => cases found.symm.trans absent
  | leftOut absent optional _ ih =>
      cases yieldsToo with
      | present found _ _ => cases found.symm.trans absent
      | leftOut _ _ tail => exact ih tail
      | supplied _ required _ _ _ => cases optional.symm.trans required
  | supplied absent required _ ran _ ih =>
      cases yieldsToo with
      | present found _ _ => cases found.symm.trans absent
      | leftOut _ optional _ => cases optional.symm.trans required
      | supplied _ _ _ ranToo tail =>
          cases ran.symm.trans ranToo
          rw [ih tail]

/-- Fields that give what they give once more contribute the same to what they contributed. -/
theorem FieldsYield.again (distinct : (fields.map Field.name).Nodup)
    (keeps : ∀ field ∈ fields, ∀ value result, run field.schema value = some (.ok result) →
      run field.schema result = some (.ok result))
    (yields : FieldsYield run exact members fields entries) :
    FieldsYield run exact entries fields entries := by
  -- An entry in front has another name than the fields behind it, which therefore do not see it.
  have behind : ∀ {field : Field Schema} {rest : List (Field Schema)} {given : Members}
      (result : Value), field.name ∉ rest.map Field.name →
      FieldsYield run exact given rest given →
      FieldsYield run exact ((field.name, result) :: given) rest given := by
    intro field rest given result apart again
    refine again.of_same_members fun other inRest => ?_
    have different : field.name ≠ other.name :=
      fun same => apart (same ▸ List.mem_map_of_mem inRest)
    rw [Table.find?, if_neg different]
  induction yields with
  | nil => exact .nil
  | @present field _ _ _ _ found ran tail ih =>
      obtain ⟨apart, rest⟩ := List.nodup_cons.mp distinct
      obtain ⟨here, later⟩ := List.forall_mem_cons.mp keeps
      exact .present (if_pos rfl) (here _ _ ran) (behind _ apart (ih rest later))
  | @leftOut field _ _ absent optional tail ih =>
      obtain ⟨apart, rest⟩ := List.nodup_cons.mp distinct
      have stillAbsent := fun present => apart (tail.keys_sublist.subset present)
      exact .leftOut (Table.find?_eq_none_iff.mpr stillAbsent) optional
        (ih rest (List.forall_mem_cons.mp keeps).2)
  | @supplied field _ _ _ absent required loose ran tail ih =>
      obtain ⟨apart, rest⟩ := List.nodup_cons.mp distinct
      obtain ⟨here, later⟩ := List.forall_mem_cons.mp keeps
      exact .present (if_pos rfl) (here _ _ ran) (behind _ apart (ih rest later))

/-! ### Structs that have nothing but fields -/

variable {targets : Targets} {settings : Settings} {schema : Schema} {input value : Value}

/-- Where members that are not mentioned are dropped a struct gives what its fields contribute. -/
theorem yields_fields_iff (isStruct : schema.kind = .struct fields []) (some : fields ≠ [])
    (distinct : (fields.map Field.name).Nodup) (ignoring : settings.options.excess = .ignore) :
    Yields targets settings schema input (.ok value) ↔
      ∃ members entries, input = .object members ∧
        FieldsYield (outcome? targets settings) settings.options.exact members fields entries ∧
        value = .object entries := by
  have parts : ¬(fields = [] ∧ ([] : List (IndexSignature Schema)) = []) := fun none => some none.1
  have output : ∀ {members entries : Members}, FieldsYield (outcome? targets settings)
      settings.options.exact members fields entries →
      structOutput settings.options.excess members (entries ++ []) = entries := by
    intro members entries yields
    rw [structOutput, if_neg (by rw [ignoring]; exact nofun), List.append_nil]
    exact Table.ofEntries_of_nodup (yields.keys_sublist.nodup distinct)
  rw [yields_iff_step, step_struct isStruct parts]
  constructor
  · rintro ⟨members, rfl, _, entries, indexed, yields, indexesYield, rfl⟩
    cases indexesYield
    exact ⟨members, entries, rfl, yields, congrArg Value.object (output yields)⟩
  · rintro ⟨members, entries, rfl, yields, rfl⟩
    refine ⟨members, rfl, fun strict => ?_, entries, [], yields, .nil,
      congrArg Value.object (output yields)⟩
    rw [ignoring] at strict
    cases strict

/-- A struct without fields takes whatever is there; else the fields must all contribute. -/
theorem succeeds_fields_iff (isStruct : schema.kind = .struct fields [])
    (distinct : (fields.map Field.name).Nodup) (ignoring : settings.options.excess = .ignore) :
    (∃ value, Yields targets settings schema input (.ok value)) ↔
      input.isNullish = false ∧ (fields = [] ∨ ∃ members entries, input = .object members ∧
        FieldsYield (outcome? targets settings) settings.options.exact members fields entries) := by
  by_cases none : fields = []
  · subst none
    simp only [yields_iff_step, step_struct_empty isStruct]
    simp
  · simp only [yields_fields_iff isStruct none distinct ignoring, none, false_or]
    constructor
    · rintro ⟨value, members, entries, rfl, yields, _⟩
      exact ⟨rfl, members, entries, rfl, yields⟩
    · rintro ⟨_, members, entries, rfl, yields⟩
      exact ⟨_, members, entries, rfl, yields, rfl⟩

/-! ### Members under the names of fields -/

def membersOf (fields : List (Field Schema)) (members : Members) : Members :=
  members.filter fun member => isDeclared fields member.1

theorem find?_membersOf {key : PropertyKey} (declared : key ∈ fields.map Field.name) :
    Table.find? key (membersOf fields members) = Table.find? key members := by
  rw [membersOf, Table.find?_filter, if_pos (isDeclared_eq_true_iff.mpr declared)]

private theorem FieldsYield.membersOf_eq (yields : FieldsYield run exact members fields entries) :
    membersOf fields entries = entries :=
  List.filter_eq_self.mpr fun _ inEntries =>
    isDeclared_eq_true_iff.mpr (yields.keys_sublist.subset (Table.mem_keys inEntries))

/-- Whether a struct has fields or takes everything, what it gives has under the names of its fields
what these contribute. -/
theorem exists_object_iff (isStruct : schema.kind = .struct fields [])
    (distinct : (fields.map Field.name).Nodup) (ignoring : settings.options.excess = .ignore) :
    (∃ given, Yields targets settings schema (.object members) (.ok (.object given)) ∧
        membersOf fields given = entries) ↔
      FieldsYield (outcome? targets settings) settings.options.exact members fields entries := by
  by_cases none : fields = []
  · subst none
    have nothing : ∀ given, membersOf [] given = [] := fun given => List.filter_eq_nil_iff.mpr nofun
    simp only [yields_iff_step, step_struct_empty isStruct, nothing]
    constructor
    · rintro ⟨_, _, rfl⟩
      exact .nil
    · intro yields
      cases yields
      exact ⟨members, ⟨rfl, rfl⟩, rfl⟩
  · simp only [yields_fields_iff isStruct none distinct ignoring]
    constructor
    · rintro ⟨_, ⟨_, _, sameMembers, yields, same⟩, rfl⟩
      cases sameMembers
      cases same
      rwa [yields.membersOf_eq]
    · intro yields
      exact ⟨entries, ⟨members, entries, rfl, yields, rfl⟩, yields.membersOf_eq⟩

/-- A struct that has fields gives nothing else. -/
theorem membersOf_eq_of_yields (isStruct : schema.kind = .struct fields []) (some : fields ≠ [])
    (distinct : (fields.map Field.name).Nodup) (ignoring : settings.options.excess = .ignore)
    (ran : Yields targets settings schema input (.ok (.object entries))) :
    membersOf fields entries = entries := by
  obtain ⟨_, _, _, yields, same⟩ := (yields_fields_iff isStruct some distinct ignoring).mp ran
  cases same
  exact yields.membersOf_eq

/-- A struct without index signatures gives objects for objects, and only for these. -/
theorem object_iff_object (isStruct : schema.kind = .struct fields [])
    (distinct : (fields.map Field.name).Nodup) (ignoring : settings.options.excess = .ignore)
    (ran : Yields targets settings schema input (.ok value)) :
    (∃ members, input = .object members) ↔ ∃ given, value = .object given := by
  by_cases none : fields = []
  · subst none
    rw [yields_iff_step, step_struct_empty isStruct] at ran
    rw [ran.2]
  · obtain ⟨members, given, rfl, _, rfl⟩ := (yields_fields_iff isStruct none distinct ignoring).mp ran
    exact ⟨fun _ => ⟨given, rfl⟩, fun _ => ⟨members, rfl⟩⟩

end SchemaCodec.Run
