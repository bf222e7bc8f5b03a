import SchemaCodec.Proofs.Run.Success
import SchemaCodec.Proofs.Schema.Construction

/-!
Which positions of a tuple are checked. A leading element that is required always meets an item,
since the elements before it are required as well. The elements after a repeated one meet the last
items only where the array has room for all leading elements before them: missing items are found by
counting the required ones, and an optional element takes its item first.
-/

namespace SchemaCodec.Run

variable {run : Schema → Value → Option Outcome} {elements : List (Element Schema)}
  {rest : List Schema}

/-! ### Schemas at positions -/

theorem slots_leading {position : Nat} {element : Element Schema}
    (atPosition : elements[position]? = some element) (count : Nat) :
    (slots elements rest count)[position]? = some element.schema := by
  have inLeading : (elements.map Element.schema)[position]? = some element.schema := by
    simp [atPosition]
  cases rest with
  | nil => exact inLeading
  | cons repeated trailing =>
      have inBounds := (List.getElem?_eq_some_iff.mp inLeading).1
      rw [slots, List.append_assoc, List.getElem?_append_left inBounds]
      exact inLeading

/-- The trailing schemas stand at the last positions, if there is room for them. -/
private theorem slots_trailing {count place : Nat} {schema : Schema}
    (room : elements.length + rest.tail.length ≤ count)
    (inTrailing : rest.tail[place]? = some schema) :
    (slots elements rest count)[count - rest.tail.length + place]? = some schema := by
  cases rest with
  | nil => cases inTrailing
  | cons repeated trailing =>
      simp only [List.tail_cons] at room inTrailing ⊢
      have before : (elements.map Element.schema ++ List.replicate
          (count - trailing.length - (elements.map Element.schema).length) repeated).length =
          count - trailing.length := by
        simp only [List.length_append, List.length_map, List.length_replicate]
        omega
      rw [slots, List.getElem?_append_right (by omega), before, Nat.add_sub_cancel_left]
      exact inTrailing

/-! ### Required items -/

private theorem lt_required {position : Nat} {element : Element Schema}
    (ordered : Schema.RequiredFirst elements) (atPosition : elements[position]? = some element)
    (required : element.optional = false) :
    position < (elements.filter fun element => !element.optional).length := by
  induction elements generalizing position with
  | nil => cases atPosition
  | cons first others ih =>
      obtain ⟨apart, orderedToo⟩ := List.pairwise_cons.mp ordered
      cases position with
      | zero =>
          cases atPosition
          simp [required]
      | succ position =>
          have firstRequired := apart element (List.mem_of_getElem? atPosition) required
          have later := ih orderedToo atPosition
          simp only [List.filter_cons, firstRequired, Bool.not_false, if_true, List.length_cons]
          omega

private theorem requiredCount_of_required
    (required : ∀ element ∈ elements, element.optional = false) :
    requiredCount elements rest = elements.length + rest.tail.length := by
  have all : elements.filter (fun element => !element.optional) = elements := by
    rw [List.filter_eq_self]
    intro element member
    simp [required element member]
  rw [requiredCount, all, List.length_tail]

/-! ### Items that are met -/

private theorem exists_accepted {schemas : List Schema} {items results : List Value}
    (yields : ItemsYield run schemas items results) {position : Nat} {schema : Schema}
    (inSchemas : schemas[position]? = some schema) (inBounds : position < items.length) :
    ∃ item, items[position]? = some item ∧ ∃ result, run schema item = some (.ok result) := by
  have atPosition : items[position]? = some items[position] := List.getElem?_eq_getElem inBounds
  exact ⟨items[position], atPosition, yields.at_position inSchemas atPosition⟩

/-- In a tuple that was built, each required leading element accepts the item of its position. The
elements after the repeated one accept the last items in order, which are other items, if no leading
element is optional or there are as many items as elements. -/
theorem required_positions_accept {targets : Targets} {settings : Settings} {id : NodeId}
    {parts : List Schema.TuplePart} {schema : Schema} {items : List Value} {value : Value}
    (built : Schema.tuple id parts = .ok schema) (isTuple : schema.kind = .tuple elements rest)
    (ran : Yields targets settings schema (.array items) (.ok value)) :
    (∀ (position : Nat) (element : Element Schema), elements[position]? = some element →
      element.optional = false →
      ∃ item, items[position]? = some item ∧
        ∃ result, Yields targets settings element.schema item (.ok result)) ∧
    ((∀ element ∈ elements, element.optional = false) ∨
        elements.length + rest.tail.length ≤ items.length →
      ∀ (place : Nat) (trailing : Schema), rest.tail[place]? = some trailing →
        elements.length ≤ items.length - rest.tail.length + place ∧
        ∃ item, items[items.length - rest.tail.length + place]? = some item ∧
          ∃ result, Yields targets settings trailing item (.ok result)) := by
  obtain ⟨_, same, enough, _, results, yields, _⟩ :=
    (step_tuple isTuple).mp (yields_iff_step.mp ran)
  cases same
  constructor
  · intro position element atPosition required
    have ordered := Schema.requiredFirst_of_tuple built isTuple
    have inBounds : position < items.length := by
      have counted := lt_required ordered atPosition required
      rw [requiredCount] at enough
      omega
    simpa only [outcome?_eq_some] using
      exists_accepted yields (slots_leading atPosition items.length) inBounds
  · intro roomy place trailing inTrailing
    have room : elements.length + rest.tail.length ≤ items.length := by
      rcases roomy with required | room
      · rwa [requiredCount_of_required required] at enough
      · exact room
    have inTail : place < rest.tail.length := (List.getElem?_eq_some_iff.mp inTrailing).1
    refine ⟨by omega, ?_⟩
    simpa only [outcome?_eq_some] using
      exists_accepted yields (slots_trailing room inTrailing) (by omega)

/-- A repeated element between an optional one and a required one, with an item for each. -/
theorem three_items_accept :
    ∃ schema, Schema.tuple (.made 0) [.optional .string, .rest .number, .element .boolean] =
      .ok schema ∧
    ∃ item, [Value.string "a", .number 1, .boolean true][2]? = some item ∧
      ∃ result, Yields (fun _ => .never) ⟨.sync, {}, .decode⟩ .boolean item (.ok result) := by
  obtain ⟨schema, built, isTuple⟩ : ∃ schema,
      Schema.tuple (.made 0) [.optional .string, .rest .number, .element .boolean] = .ok schema ∧
        schema.kind = .tuple [⟨.string, true⟩] [.number, .boolean] := ⟨_, rfl, rfl⟩
  have ran : Yields (fun _ => .never) ⟨.sync, {}, .decode⟩ schema
      (.array [.string "a", .number 1, .boolean true])
      (.ok (.array [.string "a", .number 1, .boolean true])) := by
    cases built
    exact ⟨2, rfl⟩
  have accepted := (required_positions_accept built isTuple ran).2 (.inr (by decide)) 0 .boolean rfl
  exact ⟨schema, built, accepted.2⟩

/-! ### Elements that meet no item -/

private theorem itemSteps_take (first : Nat) (schemas : List Schema) (items : List Value) :
    itemSteps run first (schemas.take items.length) items = itemSteps run first schemas items := by
  induction items generalizing first schemas with
  | nil => cases schemas <;> rfl
  | cons item items ih =>
      cases schemas with
      | nil => rfl
      | cons schema schemas => simp [itemSteps, ih]

/-- Without room for all elements the last of them does not matter, whatever it asks for. -/
theorem tuple_last_unmet (mode : FaultMode) (repeated last other : Schema) (trailing : List Schema)
    {items : List Value} (short : items.length ≤ elements.length + trailing.length) :
    tuple run mode elements (repeated :: (trailing ++ [last])) items =
      tuple run mode elements (repeated :: (trailing ++ [other])) items := by
  have met : ∀ final : Schema,
      (slots elements (repeated :: (trailing ++ [final])) items.length).take items.length =
        (elements.map Element.schema ++ trailing).take items.length := by
    intro final
    have none : items.length - (trailing ++ [final]).length -
        (elements.map Element.schema).length = 0 := by simp; omega
    rw [slots, none, List.replicate_zero, List.append_nil, ← List.append_assoc]
    exact List.take_append_of_le_length (by simpa using short)
  have steps : ∀ final : Schema,
      itemSteps run 0 (slots elements (repeated :: (trailing ++ [final])) items.length) items =
        itemSteps run 0 (elements.map Element.schema ++ trailing) items := by
    intro final
    rw [← itemSteps_take, met final, itemSteps_take]
  simp only [tuple, steps, missingItems, requiredCount, List.isEmpty_cons, List.length_cons,
    List.length_append, List.length_nil]

/-- The only item is taken by the optional element, and nothing is a boolean. -/
theorem boolean_unmet :
    ∃ schema, Schema.tuple (.made 0) [.optional .string, .rest .number, .element .boolean] =
      .ok schema ∧
    Yields (fun _ => .never) ⟨.sync, {}, .decode⟩ schema (.array [.string "a"])
      (.ok (.array [.string "a"])) ∧
    ∀ item ∈ [Value.string "a"], ∀ result,
      ¬Yields (fun _ => .never) ⟨.sync, {}, .decode⟩ .boolean item (.ok result) := by
  refine ⟨_, rfl, ⟨2, rfl⟩, fun item only result accepted => ?_⟩
  rw [List.mem_singleton.mp only] at accepted
  have leaf : Schema.boolean.kind.IsLeaf := trivial
  have admitted := ((step_leaf leaf).mp (yields_iff_step.mp accepted)).1
  cases admitted

end SchemaCodec.Run
