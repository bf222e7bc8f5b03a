import Mathlib.Data.List.Induction
import SchemaCodec.Schema.Sequence

/-!
The order of the parts of a tuple. Exactly the lists of parts that are in order make a tuple, of these
parts; any other list begins with parts in order and one that cannot follow them, and what is reported
is about that one, whatever comes after it.
-/

namespace SchemaCodec.Schema

/-- Parts in order: required elements, then optional ones, then perhaps a repeated element with
required ones behind it. -/
structure TupleOrder where
  required : List Schema
  optional : List Schema
  repeated : Option (Schema × List Schema)

namespace TupleOrder

def ending : Option (Schema × List Schema) → List TuplePart
  | none => []
  | some (repeated, behind) => .rest repeated :: behind.map .element

def parts (order : TupleOrder) : List TuplePart :=
  order.required.map .element ++ (order.optional.map .optional ++ ending order.repeated)

def elements (order : TupleOrder) : List (Element Schema) :=
  order.required.map (⟨·, false⟩) ++ order.optional.map (⟨·, true⟩)

def rest (order : TupleOrder) : List Schema :=
  match order.repeated with
  | none => []
  | some (repeated, behind) => repeated :: behind

/-- The part cannot follow the parts in order, for this reason. -/
inductive Misplaced (order : TupleOrder) : TuplePart → String → Prop where
  | element {schema : Schema} (afterOptional : order.optional ≠ []) (noRest : order.repeated = none) :
      Misplaced order (.element schema) "a required element cannot follow an optional element"
  | optional {schema : Schema} (afterRest : order.repeated ≠ none) :
      Misplaced order (.optional schema) "an optional element cannot follow a rest element"
  | rest {schema : Schema} (afterRest : order.repeated ≠ none) :
      Misplaced order (.rest schema) "a rest element cannot follow another rest element"

variable {order : TupleOrder} {part : TuplePart} {reason : String}

/-- A part behind parts in order is in order itself or misplaced. -/
private theorem follows_or_misplaced (order : TupleOrder) (part : TuplePart) :
    (∃ longer : TupleOrder, longer.parts = order.parts ++ [part]) ∨
      ∃ reason, order.Misplaced part reason := by
  obtain ⟨required, optional, repeated⟩ := order
  cases part with
  | element schema =>
      cases repeated with
      | none =>
          cases optional with
          | nil => exact Or.inl ⟨⟨required ++ [schema], [], none⟩, by simp [parts, ending]⟩
          | cons first others => exact Or.inr ⟨_, .element (List.cons_ne_nil first others) rfl⟩
      | some opened =>
          obtain ⟨schemas, behind⟩ := opened
          exact Or.inl ⟨⟨required, optional, some (schemas, behind ++ [schema])⟩, by
            simp [parts, ending]⟩
  | optional schema =>
      cases repeated with
      | none => exact Or.inl ⟨⟨required, optional ++ [schema], none⟩, by simp [parts, ending]⟩
      | some opened => exact Or.inr ⟨_, .optional (Option.some_ne_none opened)⟩
  | rest schema =>
      cases repeated with
      | none => exact Or.inl ⟨⟨required, optional, some (schema, [])⟩, by simp [parts, ending]⟩
      | some opened => exact Or.inr ⟨_, .rest (Option.some_ne_none opened)⟩

/-- All parts are in order, or there is a first one that is misplaced. -/
private theorem exists_order_or_misplaced (parts : List TuplePart) :
    (∃ order : TupleOrder, order.parts = parts) ∨
      ∃ (order : TupleOrder) (part : TuplePart) (after : List TuplePart) (reason : String),
        order.parts ++ part :: after = parts ∧ order.Misplaced part reason := by
  induction parts using List.reverseRecOn with
  | nil => exact Or.inl ⟨⟨[], [], none⟩, rfl⟩
  | append_singleton front last ih =>
      rcases ih with ⟨order, rfl⟩ | ⟨order, part, after, reason, rfl, misplaced⟩
      · rcases order.follows_or_misplaced last with inOrder | ⟨reason, misplaced⟩
        · exact Or.inl inOrder
        · exact Or.inr ⟨order, last, [], reason, rfl, misplaced⟩
      · refine Or.inr ⟨order, part, after ++ [last], reason, ?_, misplaced⟩
        rw [List.append_assoc, List.cons_append]

/-! ### Drafts -/

def draft (order : TupleOrder) : TupleDraft := ⟨order.elements, order.rest, none⟩

/-- A draft of parts in order ends with an optional element if there is any. -/
private theorem endsOptional_draft (order : TupleOrder) :
    order.draft.endsOptional = !order.optional.isEmpty := by
  obtain ⟨required, optional, repeated⟩ := order
  rw [TupleDraft.endsOptional, draft, elements]
  rcases List.eq_nil_or_concat optional with rfl | ⟨front, last, rfl⟩
  · rw [List.map_nil, List.append_nil, List.getLast?_map]
    cases required.getLast? with
    | none => rfl
    | some last => rfl
  · simp

private theorem foldl_required (required : List Schema) :
    (required.map TuplePart.element).foldl TupleDraft.add .empty =
      draft ⟨required, [], none⟩ := by
  induction required using List.reverseRecOn with
  | nil => rfl
  | append_singleton front last ih =>
      have notOptional := endsOptional_draft ⟨front, [], none⟩
      rw [List.map_append, List.foldl_append, ih]
      simp only [List.map_cons, List.map_nil, List.foldl_cons, List.foldl_nil, TupleDraft.add,
        notOptional]
      simp [draft, elements, rest]

private theorem foldl_optional (required optional : List Schema) :
    (optional.map TuplePart.optional).foldl TupleDraft.add (draft ⟨required, [], none⟩) =
      draft ⟨required, optional, none⟩ := by
  induction optional using List.reverseRecOn with
  | nil => rfl
  | append_singleton front last ih =>
      rw [List.map_append, List.foldl_append, ih]
      simp [draft, elements, rest, TupleDraft.add]

private theorem foldl_behind (required optional : List Schema) (repeated : Schema)
    (behind : List Schema) :
    (behind.map TuplePart.element).foldl TupleDraft.add
        (draft ⟨required, optional, some (repeated, [])⟩) =
      draft ⟨required, optional, some (repeated, behind)⟩ := by
  induction behind using List.reverseRecOn with
  | nil => rfl
  | append_singleton front last ih =>
      rw [List.map_append, List.foldl_append, ih]
      simp [draft, elements, rest, TupleDraft.add]

private theorem foldl_parts (order : TupleOrder) :
    order.parts.foldl TupleDraft.add .empty = order.draft := by
  obtain ⟨required, optional, repeated⟩ := order
  rw [parts, List.foldl_append, List.foldl_append, foldl_required, foldl_optional]
  cases repeated with
  | none => rfl
  | some opened => exact foldl_behind required optional opened.1 opened.2

private theorem problem_add_misplaced (misplaced : order.Misplaced part reason) :
    (order.draft.add part).problem = some reason := by
  have restEmpty : order.draft.rest.isEmpty = order.repeated.isNone := by
    rw [draft, rest]
    cases order.repeated with
    | none => rfl
    | some opened => rfl
  cases misplaced with
  | element afterOptional noRest =>
      have someOptional : order.optional.isEmpty = false := by
        rw [List.isEmpty_eq_false_iff]
        exact afterOptional
      rw [TupleDraft.add, restEmpty, noRest, endsOptional_draft, someOptional]
      rfl
  | optional afterRest =>
      have opened : order.repeated.isNone = false := by
        rwa [Option.isNone_eq_false_iff, Option.isSome_iff_ne_none]
      rw [TupleDraft.add, restEmpty, opened]
      rfl
  | rest afterRest =>
      have opened : order.repeated.isNone = false := by
        rwa [Option.isNone_eq_false_iff, Option.isSome_iff_ne_none]
      rw [TupleDraft.add, restEmpty, opened]
      rfl

/-- What was noted first stays. -/
private theorem problem_add {draft : TupleDraft} (noted : draft.problem = some reason)
    (part : TuplePart) :
    (draft.add part).problem = some reason := by
  have rejected : ∀ later, (draft.reject later).problem = some reason := fun later => by
    rw [TupleDraft.reject, noted, Option.getD_some]
  cases part with
  | element schema =>
      rw [TupleDraft.add]
      split
      · exact noted
      · split
        · exact rejected _
        · exact noted
  | optional schema =>
      rw [TupleDraft.add]
      split
      · exact noted
      · exact rejected _
  | rest schema =>
      rw [TupleDraft.add]
      split
      · exact noted
      · exact rejected _

private theorem problem_foldl {draft : TupleDraft} (noted : draft.problem = some reason)
    (after : List TuplePart) : (after.foldl TupleDraft.add draft).problem = some reason := by
  induction after generalizing draft with
  | nil => exact noted
  | cons part rest ih => exact ih (problem_add noted part)

/-! ### Tuples -/

private theorem tuple_parts (order : TupleOrder) (id : NodeId) :
    Schema.tuple id order.parts = .ok (plain id (.tuple order.elements order.rest)) := by
  rw [Schema.tuple, foldl_parts]
  rfl

private theorem tuple_misplaced (misplaced : order.Misplaced part reason) (id : NodeId)
    (after : List TuplePart) :
    Schema.tuple id (order.parts ++ part :: after) = .error (.tuple reason) := by
  have noted := problem_foldl (problem_add_misplaced misplaced) after
  rw [Schema.tuple, List.foldl_append, foldl_parts, List.foldl_cons, TupleDraft.build, noted]

/-- No parts in order begin with a misplaced one. -/
private theorem not_isPrefix_of_misplaced (misplaced : order.Misplaced part reason)
    (legal : TupleOrder) :
    ¬order.parts ++ [part] <+: legal.parts := by
  rintro ⟨after, same⟩
  have fails := tuple_misplaced misplaced (.made 0) after
  rw [← List.singleton_append, ← List.append_assoc, same, tuple_parts] at fails
  cases fails

end TupleOrder

/-- The parts make a tuple exactly if they are in order, namely the tuple of their elements with their
flags and of what comes from the repeated element on. Otherwise what is wrong with the first part out
of order is reported. -/
theorem tuple_of_parts (id : NodeId) (parts : List TuplePart) :
    (∀ schema, Schema.tuple id parts = .ok schema ↔
      ∃ order : TupleOrder, order.parts = parts ∧
        schema = plain id (.tuple order.elements order.rest)) ∧
    ∀ error, Schema.tuple id parts = .error error ↔
      ∃ (order : TupleOrder) (part : TuplePart) (after : List TuplePart) (reason : String),
        order.parts ++ part :: after = parts ∧
        (∀ legal : TupleOrder, ¬order.parts ++ [part] <+: legal.parts) ∧
        order.Misplaced part reason ∧ error = .tuple reason := by
  constructor
  · intro schema
    constructor
    · intro built
      rcases TupleOrder.exists_order_or_misplaced parts with
        ⟨order, rfl⟩ | ⟨order, part, after, reason, rfl, misplaced⟩
      · rw [order.tuple_parts] at built
        cases built
        exact ⟨order, rfl, rfl⟩
      · rw [TupleOrder.tuple_misplaced misplaced] at built
        cases built
    · rintro ⟨order, rfl, rfl⟩
      exact order.tuple_parts id
  · intro error
    constructor
    · intro failed
      rcases TupleOrder.exists_order_or_misplaced parts with
        ⟨order, rfl⟩ | ⟨order, part, after, reason, rfl, misplaced⟩
      · rw [order.tuple_parts] at failed
        cases failed
      · rw [TupleOrder.tuple_misplaced misplaced] at failed
        cases failed
        exact ⟨order, part, after, reason, rfl, TupleOrder.not_isPrefix_of_misplaced misplaced,
          misplaced, rfl⟩
    · rintro ⟨order, part, after, reason, rfl, _, misplaced, rfl⟩
      exact TupleOrder.tuple_misplaced misplaced id after

-- Two parts are out of order, and what is reported is about the first of them.
example (id : NodeId) (a b c d : Schema) :
    Schema.tuple id [.optional a, .element b, .rest c, .optional d] =
      .error (.tuple "a required element cannot follow an optional element") := rfl

end SchemaCodec.Schema
