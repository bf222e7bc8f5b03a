import SchemaCodec.Proofs.Run.FaultOrigin

/-!
When a level of a run fails. A level that fails has a part that is missing, unexpected or itself
fails; a level that comes to an end where nothing of that kind happens has succeeded.
-/

namespace SchemaCodec.Run

variable {run : Schema → Value → Option Outcome}

theorem first_mem_toList (faults : Faults) : faults.first ∈ faults.toList := by
  cases faults <;> exact List.mem_cons_self

/-! ### Tuples -/

/-- A tuple fails because of the number of items, or because an item fails. -/
theorem exists_error_of_tuple {mode : FaultMode} {elements : List (Element Schema)}
    {rest : List Schema} {items : List Value} {failure : Faults}
    (found : tuple run mode elements rest items = some (.error failure)) :
    items.length < requiredCount elements rest ∨
    (rest = [] ∧ elements.length < items.length) ∨
    ∃ schema item, (schema, item) ∈ (slots elements rest items.length).zip items ∧
      ∃ faults, run schema item = some (.error faults) := by
  have told := fault_of_tuple found (first_mem_toList failure)
  generalize failure.first = fault at told
  cases told with
  | missing absent required => exact Or.inl (by omega)
  | unexpected closed beyond atPosition =>
      obtain ⟨inBounds, _⟩ := List.getElem?_eq_some_iff.mp atPosition
      exact Or.inr (Or.inl ⟨closed, by omega⟩)
  | @item position schema item faults inSlots atPosition ran =>
      have inZip : ((slots elements rest items.length).zip items)[position]? = some (schema, item) :=
        List.getElem?_zip_eq_some.mpr ⟨inSlots, atPosition⟩
      exact Or.inr (Or.inr ⟨schema, item, List.mem_of_getElem? inZip, faults, ran⟩)

/-! ### Structs -/

/-- Where no index signature takes a key, each that is about it has rejected it. -/
theorem error_of_takesKey {decodeKey : Schema → Value → Option Outcome} {key : PropertyKey}
    {indexes : List (IndexSignature Schema)} (untaken : takesKey decodeKey key indexes = some false)
    {index : IndexSignature Schema} (inIndexes : index ∈ indexes)
    (fits : keyFits key index.parameter = true) :
    ∃ faults, decodeKey index.parameter key.toValue = some (.error faults) := by
  induction indexes with
  | nil => cases inIndexes
  | cons first rest ih =>
      rw [takesKey] at untaken
      split at untaken
      · obtain ⟨outcome, ran, after⟩ := Option.bind_eq_some_iff.mp untaken
        cases outcome with
        | ok _ => cases after
        | error faults =>
            rcases List.mem_cons.mp inIndexes with rfl | later
            · exact ⟨faults, ran⟩
            · exact ih after later
      · rename_i unfit
        rcases List.mem_cons.mp inIndexes with rfl | later
        · exact absurd fits unfit
        · exact ih untaken later

/-- A key is taken by an index signature that is about it and decodes it. -/
theorem exists_index_of_takesKey {decodeKey : Schema → Value → Option Outcome} {key : PropertyKey}
    {indexes : List (IndexSignature Schema)} (taken : takesKey decodeKey key indexes = some true) :
    ∃ index ∈ indexes, keyFits key index.parameter = true ∧
      ∃ value, decodeKey index.parameter key.toValue = some (.ok value) := by
  induction indexes with
  | nil => cases taken
  | cons first rest ih =>
      rw [takesKey] at taken
      split at taken
      · rename_i fits
        obtain ⟨outcome, ran, after⟩ := Option.bind_eq_some_iff.mp taken
        cases outcome with
        | ok value => exact ⟨first, List.mem_cons_self, fits, value, ran⟩
        | error _ =>
            obtain ⟨index, inRest, found⟩ := ih after
            exact ⟨index, List.mem_cons_of_mem _ inRest, found⟩
      · obtain ⟨index, inRest, found⟩ := ih taken
        exact ⟨index, List.mem_cons_of_mem _ inRest, found⟩

/-- A key is taken where the index signatures can decide about it and one that is about it decodes
it. -/
theorem takesKey_of_index {decodeKey : Schema → Value → Option Outcome} {key : PropertyKey}
    {indexes : List (IndexSignature Schema)} {taken : Bool}
    (decided : takesKey decodeKey key indexes = some taken)
    {index : IndexSignature Schema} (inIndexes : index ∈ indexes)
    (fits : keyFits key index.parameter = true) {value : Value}
    (ran : decodeKey index.parameter key.toValue = some (.ok value)) :
    takesKey decodeKey key indexes = some true := by
  cases taken with
  | true => exact decided
  | false =>
      obtain ⟨faults, failed⟩ := error_of_takesKey decided inIndexes fits
      cases ran.symm.trans failed

/-- A struct fails because of a member that is unexpected, of a field that is missing or fails, or
of a key or a value that an index signature rejects. -/
theorem exists_error_of_struct {decodeKey : Schema → Value → Option Outcome} {options : Options}
    {fields : List (Field Schema)} {indexes : List (IndexSignature Schema)} {members : Members}
    {failure : Faults}
    (found : struct run decodeKey options fields indexes members = some (.error failure)) :
    (options.excess = .error ∧ ∃ member ∈ members, isDeclared fields member.1 = false ∧
      takesKey decodeKey member.1 indexes = some false) ∨
    (∃ field ∈ fields,
      (Table.find? field.name members = none ∧ field.optional = false ∧
        (options.exact = true ∨ ∃ faults, run field.schema .undefined = some (.error faults))) ∨
      ∃ value faults, Table.find? field.name members = some value ∧
        run field.schema value = some (.error faults)) ∨
    ∃ index ∈ indexes, ∃ member ∈ indexMembers fields index members, ∃ faults,
      run index.parameter member.1.toValue = some (.error faults) ∨
      run index.schema member.2 = some (.error faults) := by
  have told := fault_of_struct found (first_mem_toList failure)
  generalize failure.first = fault at told
  cases told with
  | unexpected strict inMembers undeclared untaken =>
      exact Or.inl ⟨strict, _, inMembers, undeclared, untaken⟩
  | missing inFields absent required rejected =>
      exact Or.inr (Or.inl ⟨_, inFields, Or.inl ⟨absent, required, rejected⟩⟩)
  | field inFields present ran =>
      exact Or.inr (Or.inl ⟨_, inFields, Or.inr ⟨_, _, present, ran⟩⟩)
  | parameter inIndexes about ran =>
      exact Or.inr (Or.inr ⟨_, inIndexes, _, about, _, Or.inl ran⟩)
  | index inIndexes about ran =>
      exact Or.inr (Or.inr ⟨_, inIndexes, _, about, _, Or.inr ran⟩)

end SchemaCodec.Run
