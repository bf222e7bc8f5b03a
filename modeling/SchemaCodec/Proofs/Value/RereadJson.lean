import SchemaCodec.Proofs.Number.Whole
import SchemaCodec.Proofs.Value.Parts
import SchemaCodec.Proofs.Value.Written

/-!
Values that are written as JSON and read again. The JSON forms of a value stand or fall together. What
comes back is the value without the members that JSON leaves out, with its dates as texts, and with null
and zero where JSON has nothing else to say.
-/

namespace SchemaCodec.Value

/-- The value is undefined or a symbol, or a big whole number stands at a place that JSON keeps. -/
def LacksJson (value : Value) : Prop :=
  value.isUnrepresentable = true ∨ value.KeepsBigint

/-- What is left of a number: those that are not finite are nothing, and zero has no sign. -/
def numberThroughJson (n : Float) : Value :=
  if n.isFinite then .number (if n == 0 then 0 else n) else .null

mutual

def throughJson : Value → Value
  | .undefined => .null
  | .symbol _ => .null
  | .null => .null
  | .boolean b => .boolean b
  | .number n => numberThroughJson n
  | .bigint i => .bigint i
  | .string text => .string text
  | .date instant => .string instant.text
  | .array items => .array (itemsThroughJson items)
  | .object members => .object (membersThroughJson members)

def itemsThroughJson : List Value → List Value
  | [] => []
  | item :: rest => item.throughJson :: itemsThroughJson rest

/-- Members under symbols are left out, and those that are undefined or symbols. -/
def membersThroughJson : List (PropertyKey × Value) → List (PropertyKey × Value)
  | [] => []
  | (key, value) :: rest =>
    if key.isSymbol || value.isUnrepresentable then membersThroughJson rest
    else (key, value.throughJson) :: membersThroughJson rest

end

/-! ### What comes back -/

private theorem ofJson_jsonNumber (n : Float) : ofJson (jsonNumber n) = numberThroughJson n := by
  rw [jsonNumber, numberThroughJson, ← Number.isSome_parts?_iff]
  cases whole : Number.safeWhole? n with
  | some i =>
      obtain ⟨_, parts, partsAt, _⟩ := Number.safeWhole?_eq_some whole
      rw [partsAt, Option.isSome_some, if_pos rfl, ← Number.ofInteger_of_safeWhole? whole]
      rfl
  | none =>
      rw [Number.beq_zero_eq_false_of_safeWhole? whole]
      simp only
      split <;> rfl

private theorem keys_membersThroughJson_sublist (members : Members) :
    (Table.keys (membersThroughJson members)).Sublist (Table.keys members) := by
  induction members with
  | nil => exact .slnil
  | cons member rest ih =>
      obtain ⟨key, value⟩ := member
      rw [membersThroughJson]
      split
      · exact ih.cons key
      · exact ih.cons_cons key

mutual

private theorem ofJson_of_embedded? : ∀ (value : Value) (json : Json), value.Proper →
    value.embedded? = some json → ofJson json = value.throughJson
  | .undefined, json, _, embedded | .symbol _, json, _, embedded | .null, json, _, embedded
  | .boolean _, json, _, embedded | .string _, json, _, embedded | .date _, json, _, embedded => by
      cases embedded
      rfl
  | .bigint _, json, _, embedded => by cases embedded
  | .number n, json, _, embedded => by
      cases embedded
      exact ofJson_jsonNumber n
  | .array items, json, proper, embedded => by
      obtain ⟨jsons, made, rfl⟩ := Option.map_eq_some_iff.mp embedded
      rw [ofJson, throughJson,
        ofJsonItems_of_embedded? items jsons (fun _ inItems => proper.item inItems) made]
  | .object members, json, proper, embedded => by
      obtain ⟨jsons, made, rfl⟩ := Option.map_eq_some_iff.mp embedded
      have same := ofJsonMembers_of_embedded? members jsons
        (fun _ inMembers => proper.member inMembers) made
      have distinct := proper.distinct.sublist (keys_membersThroughJson_sublist members)
      rw [ofJson, throughJson, same, ofMembers, Table.ofEntries_of_nodup distinct]

private theorem ofJsonItems_of_embedded? : ∀ (items : List Value) (jsons : List Json),
    (∀ item ∈ items, item.Proper) → embeddedItems? items = some jsons →
      ofJsonItems jsons = itemsThroughJson items
  | [], jsons, _, embedded => by
      cases embedded
      rfl
  | item :: rest, jsons, proper, embedded => by
      obtain ⟨first, others⟩ := List.forall_mem_cons.mp proper
      rw [embeddedItems?] at embedded
      split at embedded
      · rename_i json later here there
        cases embedded
        rw [ofJsonItems, itemsThroughJson, ofJson_of_embedded? item json first here,
          ofJsonItems_of_embedded? rest later others there]
      · cases embedded

private theorem ofJsonMembers_of_embedded? : ∀ (members : Members) (jsons : List (String × Json)),
    (∀ member ∈ members, member.2.Proper) → embeddedMembers? members = some jsons →
      ofJsonMembers jsons = membersThroughJson members
  | [], jsons, _, embedded => by
      cases embedded
      rfl
  | (.symbol _, _) :: rest, jsons, proper, embedded =>
      ofJsonMembers_of_embedded? rest jsons (List.forall_mem_cons.mp proper).2 embedded
  | (.string name, value) :: rest, jsons, proper, embedded => by
      obtain ⟨first, others⟩ := List.forall_mem_cons.mp proper
      rw [embeddedMembers?] at embedded
      rw [membersThroughJson, PropertyKey.isSymbol, Bool.false_or]
      split at embedded
      · rename_i leftOut
        rw [if_pos leftOut]
        exact ofJsonMembers_of_embedded? rest jsons others embedded
      · rename_i kept
        rw [if_neg kept]
        split at embedded
        · rename_i json later here there
          cases embedded
          rw [ofJsonMembers, ofJson_of_embedded? value json first here,
            ofJsonMembers_of_embedded? rest later others there]
        · cases embedded

end

/-! ### Whole values -/

private theorem toJson_fails_iff {value : Value} :
    (∃ failure, value.toJson = .error failure) ↔ value.LacksJson := by
  rw [LacksJson, ← embedded?_eq_none_iff, toJson]
  constructor
  · rintro ⟨failure, failed⟩
    split at failed
    · rename_i leftOut
      exact Or.inl leftOut
    · split at failed
      · cases failed
      · rename_i none
        exact Or.inr none
  · rintro (leftOut | none)
    · exact ⟨_, if_pos leftOut⟩
    · rw [none]
      split <;> exact ⟨_, rfl⟩

private theorem map_fails_iff {ε α β : Type} {result : Except ε α} {function : α → β} :
    (∃ failure, result.map function = .error failure) ↔ ∃ failure, result = .error failure := by
  constructor
  · rintro ⟨failure, failed⟩
    cases result with
    | ok value => cases failed
    | error failure => exact ⟨failure, rfl⟩
  · rintro ⟨failure, rfl⟩
    exact ⟨failure, rfl⟩

/-- All conversions to JSON fail for a value that lacks a JSON form and for no other; and what is read
from the JSON form of a value is what is left of the value. -/
theorem json_conversion (value : Value) :
    ((∃ failure, value.toJson = .error failure) ↔ value.LacksJson) ∧
      ((∃ failure, value.jsonText = .error failure) ↔ value.LacksJson) ∧
      ((∃ failure, value.jsonLines = .error failure) ↔ value.LacksJson) ∧
      (value.Proper → ∀ json, value.toJson = .ok json → ofJson json = value.throughJson) := by
  refine ⟨toJson_fails_iff, ?_, ?_, fun proper json converted => ?_⟩
  · rw [jsonText, map_fails_iff, toJson_fails_iff]
  · rw [jsonLines, map_fails_iff, toJson_fails_iff]
  · rw [toJson] at converted
    split at converted
    · cases converted
    · split at converted
      · rename_i embedded
        cases converted
        exact ofJson_of_embedded? value json proper embedded
      · cases converted

def mixed : Value :=
  .object [(.string "when", .date ⟨0, 0⟩), (.string "gone", .undefined),
    (.string "some", .array [.undefined, .number Number.undefined, .number (-0)]),
    (.symbol ⟨1, none, false⟩, .bigint 1)]

private theorem mixed_proper : mixed.Proper := by
  have items : ∀ item ∈ [Value.undefined, .number Number.undefined, .number (-0)], item.Proper := by
    simp only [List.forall_mem_cons]
    exact ⟨.scalar rfl rfl, .scalar rfl rfl, .scalar rfl rfl, nofun⟩
  refine .object (by decide) ?_
  simp only [List.forall_mem_cons]
  exact ⟨.scalar rfl rfl, .scalar rfl rfl, .array items, .scalar rfl rfl, nofun⟩

theorem mixed_converted : mixed.Proper ∧ ∃ json, mixed.toJson = .ok json ∧
    ofJson json = .object [(.string "when", .string "1970-01-01T00:00:00.000Z"),
      (.string "some", .array [.null, .null, .number 0])] :=
  ⟨mixed_proper, _, rfl, (json_conversion mixed).2.2.2 mixed_proper _ rfl⟩

end SchemaCodec.Value
