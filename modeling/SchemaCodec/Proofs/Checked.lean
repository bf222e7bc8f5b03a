import SchemaCodec.BuildError
import SchemaCodec.Proofs.Pairing

/-!
Laws of constructions that may be refused: what is accepted as a whole was accepted step by step.
-/

namespace SchemaCodec

variable {ε α β : Type}

theorem exists_ok_of_bind {result : Except ε α} {next : α → Except ε β} {value : β}
    (made : result >>= next = .ok value) :
    ∃ given, result = .ok given ∧ next given = .ok value := by
  cases result with
  | error reason => cases made
  | ok given => exact ⟨given, rfl, made⟩

theorem error_of_bind {result : Except ε α} {next : α → Except ε β} {reason : ε}
    (refused : result >>= next = .error reason) :
    result = .error reason ∨ ∃ given, result = .ok given ∧ next given = .error reason := by
  cases result with
  | error _ =>
      cases refused
      exact Or.inl rfl
  | ok given => exact Or.inr ⟨given, rfl, refused⟩

theorem exists_ok_of_map {result : Except ε α} {function : α → β} {value : β}
    (made : result.map function = .ok value) :
    ∃ given, result = .ok given ∧ function given = value := by
  cases result with
  | error reason => cases made
  | ok given =>
      cases made
      exact ⟨given, rfl, rfl⟩

/-- A list none of whose items is refused. -/
theorem mapM_eq_ok {step : α → Except ε β} {function : α → β} {list : List α}
    (each : ∀ given ∈ list, step given = .ok (function given)) :
    list.mapM step = .ok (list.map function) := by
  induction list with
  | nil => rfl
  | cons given rest ih =>
      obtain ⟨here, later⟩ := List.forall_mem_cons.mp each
      rw [List.mapM_cons, here, ih later]
      rfl

/-- What is refused along a list is refused at one of its items. -/
theorem exists_error_of_foldlM {step : β → α → Except ε β} {list : List α} {state : β} {reason : ε}
    (refused : list.foldlM step state = .error reason) :
    ∃ given ∈ list, ∃ before, step before given = .error reason := by
  induction list generalizing state with
  | nil => cases refused
  | cons given rest ih =>
      rw [List.foldlM_cons] at refused
      rcases error_of_bind refused with here | ⟨between, _, later⟩
      · exact ⟨given, List.mem_cons_self, state, here⟩
      · obtain ⟨other, inRest, refusedThere⟩ := ih later
        exact ⟨other, List.mem_cons_of_mem _ inRest, refusedThere⟩

/-- Each result of a list comes from the list. -/
theorem exists_ok_of_mapM {step : α → Except ε β} {list : List α} {results : List β}
    (made : list.mapM step = .ok results) {result : β} (member : result ∈ results) :
    ∃ given ∈ list, step given = .ok result := by
  induction list generalizing results with
  | nil =>
      cases made
      cases member
  | cons given rest ih =>
      rw [List.mapM_cons] at made
      obtain ⟨first, stepped, after⟩ := exists_ok_of_bind made
      obtain ⟨others, later, all⟩ := exists_ok_of_bind after
      cases all
      rcases List.mem_cons.mp member with rfl | inOthers
      · exact ⟨given, List.mem_cons_self, stepped⟩
      · obtain ⟨source, inRest, made⟩ := ih later inOthers
        exact ⟨source, List.mem_cons_of_mem _ inRest, made⟩

/-- Each item of a list gives one of its results. -/
theorem exists_mem_of_mapM {step : α → Except ε β} {list : List α} {results : List β}
    (made : list.mapM step = .ok results) {given : α} (member : given ∈ list) :
    ∃ result ∈ results, step given = .ok result := by
  induction list generalizing results with
  | nil => cases member
  | cons head rest ih =>
      rw [List.mapM_cons] at made
      obtain ⟨first, stepped, after⟩ := exists_ok_of_bind made
      obtain ⟨others, later, all⟩ := exists_ok_of_bind after
      cases all
      rcases List.mem_cons.mp member with rfl | inRest
      · exact ⟨first, List.mem_cons_self, stepped⟩
      · obtain ⟨result, inOthers, made⟩ := ih later inRest
        exact ⟨result, List.mem_cons_of_mem _ inOthers, made⟩

abbrev Numbered (step : Nat → α → Except ε β) (first : Nat) (list : List α) (results : List β) :
    Prop :=
  List.Forall₂ (fun numbered result => step numbered.2 numbered.1 = .ok result) (list.zipIdx first)
    results

/-- What a walk makes that numbers the members of a list on the way. -/
theorem numbered_of_ok {step : Nat → α → Except ε β} {collect : Nat → List α → Except ε (List β)}
    {first : Nat} {list : List α} {results : List β} (made : collect first list = .ok results)
    (nil : ∀ first, collect first [] = .ok [])
    (cons : ∀ first given rest, collect first (given :: rest) = do
      let value ← step first given
      return value :: (← collect (first + 1) rest)) : Numbered step first list results := by
  induction list generalizing first results with
  | nil =>
      rw [nil] at made
      cases made
      exact .nil
  | cons given rest ih =>
      rw [cons] at made
      obtain ⟨head, stepped, after⟩ := exists_ok_of_bind made
      obtain ⟨others, later, all⟩ := exists_ok_of_bind after
      cases all
      exact .cons stepped (ih later)

/-- Each result comes from the list. -/
theorem Numbered.exists_given {step : Nat → α → Except ε β} {first : Nat} {list : List α}
    {results : List β} (numbered : Numbered step first list results) {result : β}
    (member : result ∈ results) : ∃ given ∈ list, ∃ number, step number given = .ok result := by
  obtain ⟨⟨given, number⟩, inList, stepped⟩ := exists_of_forall₂ numbered member
  exact ⟨given, List.fst_mem_of_mem_zipIdx inList, number, stepped⟩

theorem exists_ok_of_numbered {step : Nat → α → Except ε β}
    {collect : Nat → List α → Except ε (List β)} {first : Nat} {list : List α} {results : List β}
    (made : collect first list = .ok results) {result : β} (member : result ∈ results)
    (nil : ∀ first, collect first [] = .ok [])
    (cons : ∀ first given rest, collect first (given :: rest) = do
      let value ← step first given
      return value :: (← collect (first + 1) rest)) :
    ∃ given ∈ list, ∃ number, step number given = .ok result :=
  (numbered_of_ok made nil cons).exists_given member

end SchemaCodec
