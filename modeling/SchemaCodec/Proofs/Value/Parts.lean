import SchemaCodec.Proofs.Table
import SchemaCodec.Report.Issue

/-!
The parts of a value. A path leads from a value into arrays and objects, one step at a time; where
the keys of each object are distinct, every item and every member has a place that a path tells.
-/

namespace SchemaCodec.Value

/-! ### Distinct keys -/

/-- No object in the value has two members of one key. -/
inductive Proper : Value → Prop where
  | scalar {value : Value} (notArray : value.array? = none) (notObject : value.object? = none) :
      Proper value
  | array {items : List Value} (each : ∀ item ∈ items, Proper item) : Proper (.array items)
  | object {members : Members} (distinct : (Table.keys members).Nodup)
      (each : ∀ member ∈ members, Proper member.2) : Proper (.object members)

namespace Proper

theorem item {items : List Value} (proper : (Value.array items).Proper) {item : Value}
    (inItems : item ∈ items) : item.Proper := by
  cases proper with
  | scalar notArray _ => cases notArray
  | array each => exact each item inItems

theorem distinct {members : Members} (proper : (Value.object members).Proper) :
    (Table.keys members).Nodup := by
  cases proper with
  | scalar _ notObject => cases notObject
  | object distinct _ => exact distinct

theorem member {members : Members} (proper : (Value.object members).Proper)
    {member : PropertyKey × Value} (inMembers : member ∈ members) : member.2.Proper := by
  cases proper with
  | scalar _ notObject => cases notObject
  | object _ each => exact each member inMembers

theorem find?_of_mem {members : Members} (proper : (Value.object members).Proper)
    {member : PropertyKey × Value} (inMembers : member ∈ members) :
    Table.find? member.1 members = some member.2 :=
  Table.find?_of_mem proper.distinct inMembers

theorem key (name : PropertyKey) : name.toValue.Proper := by
  cases name <;> exact .scalar rfl rfl

end Proper

/-! ### Paths -/

def child? : Value → PathStep → Option Value
  | .array items, .index position => items[position]?
  | .object members, .key key => Table.find? key members
  | _, _ => none

def part? : List PathStep → Value → Option Value
  | [], value => some value
  | step :: rest, value => (value.child? step).bind (part? rest)

/-- The value could have a part under the step, and has none: an array that is not longer than the
position, or an object without the key. -/
def Lacks : Value → PathStep → Prop
  | .array items, .index position => items.length ≤ position
  | .object members, .key key => key ∉ Table.keys members
  | _, _ => False

theorem part?_cons {value child : Value} {step : PathStep} (below : value.child? step = some child)
    (path : List PathStep) : part? (step :: path) value = part? path child := by
  rw [part?, below]
  rfl

theorem part?_item {items : List Value} {position : Nat} {item : Value}
    (atPosition : items[position]? = some item) :
    part? [.index position] (.array items) = some item := by
  have below : (Value.array items).child? (.index position) = some item := atPosition
  exact part?_cons below []

theorem part?_member {members : Members} {key : PropertyKey} {value : Value}
    (present : Table.find? key members = some value) :
    part? [.key key] (.object members) = some value := by
  have below : (Value.object members).child? (.key key) = some value := present
  exact part?_cons below []

/-- A key of an object is a text or a symbol, and has no parts. -/
theorem part?_key {name : PropertyKey} {path : List PathStep} {part : Value}
    (found : part? path name.toValue = some part) : path = [] ∧ part = name.toValue := by
  cases path with
  | nil =>
      cases found
      exact ⟨rfl, rfl⟩
  | cons step rest => cases name <;> cases found

end SchemaCodec.Value
