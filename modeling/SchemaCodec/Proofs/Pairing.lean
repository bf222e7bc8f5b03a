import Mathlib.Data.List.Forall2

/-!
Lists side by side. What stands in one of two lists that are related item by item has a partner in
the other.
-/

namespace SchemaCodec

variable {α β : Type} {relates : α → β → Prop} {items : List α} {others : List β}

theorem exists_of_forall₂ (follows : List.Forall₂ relates items others) {other : β}
    (member : other ∈ others) : ∃ item ∈ items, relates item other := by
  induction follows with
  | nil => cases member
  | cons head _ ih =>
      rcases List.mem_cons.mp member with rfl | later
      · exact ⟨_, List.mem_cons_self, head⟩
      · obtain ⟨item, inItems, related⟩ := ih later
        exact ⟨item, List.mem_cons_of_mem _ inItems, related⟩

theorem exists_of_forall₂_at (related : List.Forall₂ relates items others) {position : Nat}
    {partner : β} (atPosition : others[position]? = some partner) :
    ∃ item, items[position]? = some item ∧ relates item partner := by
  induction related generalizing position with
  | nil => cases atPosition
  | cons head _ ih =>
      cases position with
      | zero =>
          cases atPosition
          exact ⟨_, rfl, head⟩
      | succ position => exact ih atPosition

theorem exists_forall₂ (each : ∀ item ∈ items, ∃ other, relates item other) :
    ∃ matching, List.Forall₂ relates items matching := by
  induction items with
  | nil => exact ⟨[], .nil⟩
  | cons item rest ih =>
      obtain ⟨other, related⟩ := each item List.mem_cons_self
      obtain ⟨matching, follows⟩ := ih fun later inRest =>
        each later (List.mem_cons_of_mem _ inRest)
      exact ⟨other :: matching, .cons related follows⟩

end SchemaCodec
