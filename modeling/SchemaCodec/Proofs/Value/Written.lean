import SchemaCodec.Proofs.Table
import SchemaCodec.Value.Json

/-!
Which values have a JSON form. A value that is itself undefined or a symbol has none; any other value
has one, unless a big whole number stands at a place that JSON keeps. Values of JSON documents always
have one.
-/

namespace SchemaCodec.Value

/-- The value is neither undefined nor a symbol. -/
def Represented (value : Value) : Prop :=
  value.isUnrepresentable = false

/-- A big whole number stands at a place that JSON keeps; members under symbols are not kept. -/
inductive KeepsBigint : Value → Prop where
  | here {i : Int} : KeepsBigint (.bigint i)
  | item {items : List Value} {item : Value} (inItems : item ∈ items) (below : KeepsBigint item) :
      KeepsBigint (.array items)
  | member {members : Members} {name : String} {value : Value}
      (inMembers : (.string name, value) ∈ members) (below : KeepsBigint value) :
      KeepsBigint (.object members)

/-- No big whole number stands at a place that JSON keeps. -/
def FreeOfBigints (value : Value) : Prop :=
  ¬value.KeepsBigint

theorem freeOfBigints_array {items : List Value} :
    FreeOfBigints (.array items) ↔ ∀ item ∈ items, item.FreeOfBigints := by
  constructor
  · exact fun free item inItems below => free (.item inItems below)
  · rintro each ⟨⟩
    exact each _ ‹_› ‹_›

theorem freeOfBigints_object {members : Members} :
    FreeOfBigints (.object members) ↔
      ∀ member ∈ members, member.1.isSymbol = false → member.2.FreeOfBigints := by
  constructor
  · rintro free ⟨key, value⟩ inMembers notSymbol below
    cases key with
    | string name => exact free (.member inMembers below)
    | symbol symbol => cases notSymbol
  · rintro each ⟨⟩
    exact each _ ‹_› rfl ‹_›

theorem KeepsBigint.represented {value : Value} (keeps : value.KeepsBigint) : value.Represented := by
  cases keeps <;> rfl

/-! ### Embedding -/

private theorem embeddedItems?_eq_none_iff {items : List Value} :
    embeddedItems? items = none ↔ ∃ item ∈ items, item.embedded? = none := by
  induction items with
  | nil => simp [embeddedItems?]
  | cons item rest ih =>
      simp only [embeddedItems?, List.mem_cons, exists_eq_or_imp, ← ih]
      cases item.embedded? <;> cases embeddedItems? rest <;> simp

/-- Members that are left out are not the ones that cannot be embedded. -/
private theorem embeddedMembers?_eq_none_iff {members : Members} :
    embeddedMembers? members = none ↔
      ∃ name value, (.string name, value) ∈ members ∧ value.embedded? = none := by
  induction members with
  | nil => simp [embeddedMembers?]
  | cons member rest ih =>
      obtain ⟨key, first⟩ := member
      cases key with
      | symbol symbol =>
          rw [embeddedMembers?, ih]
          simp
      | string name =>
          have apart : (∃ other value, (PropertyKey.string other, value) ∈ (.string name, first) :: rest ∧
              value.embedded? = none) ↔
              first.embedded? = none ∨ embeddedMembers? rest = none := by
            rw [ih]
            simp only [List.mem_cons, Prod.mk.injEq, PropertyKey.string.injEq]
            grind
          rw [apart, embeddedMembers?]
          cases isLeftOut : first.isUnrepresentable with
          | true =>
              have embedded : first.embedded? ≠ none := by
                cases first <;> first | exact Option.some_ne_none _ | cases isLeftOut
              simp [embedded]
          | false =>
              cases first.embedded? <;> cases embeddedMembers? rest <;> simp

private theorem keepsBigint_of_embedded? : ∀ value :
    Value, value.embedded? = none → value.KeepsBigint
  | .bigint _, _ => .here
  | .array items, missing => by
      rw [embedded?, Option.map_eq_none_iff, embeddedItems?_eq_none_iff] at missing
      obtain ⟨item, inItems, below⟩ := missing
      exact .item inItems (keepsBigint_of_embedded? item below)
  | .object members, missing => by
      rw [embedded?, Option.map_eq_none_iff, embeddedMembers?_eq_none_iff] at missing
      obtain ⟨name, value, inMembers, below⟩ := missing
      exact .member inMembers (keepsBigint_of_embedded? value below)
termination_by value => sizeOf value
decreasing_by
  · have inList := List.sizeOf_lt_of_mem inItems
    rw [Value.array.sizeOf_spec]
    omega
  · have inList := List.sizeOf_lt_of_mem inMembers
    rw [Prod.mk.sizeOf_spec] at inList
    rw [Value.object.sizeOf_spec]
    omega

theorem embedded?_eq_none_iff {value : Value} : value.embedded? = none ↔ value.KeepsBigint := by
  refine ⟨keepsBigint_of_embedded? value, fun keeps => ?_⟩
  induction keeps with
  | here => rfl
  | item inItems _ ih =>
      rw [embedded?, Option.map_eq_none_iff, embeddedItems?_eq_none_iff]
      exact ⟨_, inItems, ih⟩
  | member inMembers _ ih =>
      rw [embedded?, Option.map_eq_none_iff, embeddedMembers?_eq_none_iff]
      exact ⟨_, _, inMembers, ih⟩

/-! ### Whole values -/

theorem toJson_of_keepsBigint {value : Value} (keeps : value.KeepsBigint) :
    value.toJson = .error .bigint := by
  have represented : value.isUnrepresentable = false := keeps.represented
  rw [toJson, represented, embedded?_eq_none_iff.mpr keeps]
  rfl

theorem exists_toJson {value : Value} (represented : value.Represented)
    (free : value.FreeOfBigints) : ∃ json, value.toJson = .ok json := by
  obtain ⟨json, embedded⟩ := Option.ne_none_iff_exists'.mp (mt embedded?_eq_none_iff.mp free)
  refine ⟨json, ?_⟩
  rw [toJson, show value.isUnrepresentable = false from represented, embedded]
  rfl

/-! ### Values of documents -/

theorem ofJson_represented (json : Json) : (ofJson json).Represented := by
  cases json <;> rfl

mutual

theorem ofJson_free : ∀ json : Json, (ofJson json).FreeOfBigints
  | .null | .boolean _ | .number _ | .string _ => nofun
  | .array items => freeOfBigints_array.mpr (ofJsonItems_free items)
  | .object members => freeOfBigints_object.mpr fun _ inMembers _ =>
      ofJsonMembers_free members _ (Table.mem_of_mem_ofEntries inMembers)

private theorem ofJsonItems_free : ∀ items :
    List Json, ∀ item ∈ ofJsonItems items, item.FreeOfBigints
  | [] => nofun
  | first :: rest => List.forall_mem_cons.mpr ⟨ofJson_free first, ofJsonItems_free rest⟩

private theorem ofJsonMembers_free : ∀ members : List (String × Json),
    ∀ member ∈ ofJsonMembers members, member.2.FreeOfBigints
  | [] => nofun
  | (_, first) :: rest => List.forall_mem_cons.mpr ⟨ofJson_free first, ofJsonMembers_free rest⟩

end

end SchemaCodec.Value
