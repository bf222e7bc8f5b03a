import SchemaCodec.Value.Basic

/-!
What can be wrong with a value. A fault is a leaf, or it tells the place of the faults below it; no
list of faults is empty.
-/

namespace SchemaCodec

structure Expected where
  /-- The kind of schema. -/
  tag : String
  /-- The schema as messages show it. -/
  label : String
  /-- The schema's own message for a value that does not meet it. -/
  message : Value → Option String

mutual

inductive Fault where
  /-- The value does not meet the schema; the message is the check's own. -/
  | type (expected : Expected) (actual : Value) (message : Option String)
  | forbidden
  | missing
  | unexpected (actual : Value)
  | index (position : Nat) (faults : Faults)
  | key (key : PropertyKey) (faults : Faults)
  | unionMember (faults : Faults)

inductive Faults where
  | single (fault : Fault)
  | cons (fault : Fault) (rest : Faults)

end

abbrev Outcome := Except Faults Value

namespace Faults

def toList : Faults → List Fault
  | .single fault => [fault]
  | .cons fault rest => fault :: rest.toList

def ofCons (fault : Fault) : List Fault → Faults
  | [] => .single fault
  | next :: rest => .cons fault (ofCons next rest)

def ofList? : List Fault → Option Faults
  | [] => none
  | fault :: rest => some (ofCons fault rest)

def first : Faults → Fault
  | .single fault => fault
  | .cons fault _ => fault

def length : Faults → Nat
  | .single _ => 1
  | .cons _ rest => rest.length + 1

@[simp]
theorem toList_ofCons (fault : Fault) (rest : List Fault) :
    (ofCons fault rest).toList = fault :: rest := by
  induction rest generalizing fault with
  | nil => rfl
  | cons next rest ih => simp [ofCons, toList, ih]

end Faults

namespace Fault

def children? : Fault → Option Faults
  | .index _ faults => some faults
  | .key _ faults => some faults
  | .unionMember faults => some faults
  | .type _ _ _ => none
  | .forbidden => none
  | .missing => none
  | .unexpected _ => none

def isWrapper (fault : Fault) : Bool :=
  fault.children?.isSome

end Fault

mutual

def Fault.leafCount : Fault → Nat
  | .index _ faults => faults.leafCount
  | .key _ faults => faults.leafCount
  | .unionMember faults => faults.leafCount
  | .type _ _ _ => 1
  | .forbidden => 1
  | .missing => 1
  | .unexpected _ => 1

def Faults.leafCount : Faults → Nat
  | .single fault => fault.leafCount
  | .cons fault rest => fault.leafCount + rest.leafCount

end

namespace Fault

def mismatch (expected : Expected) (actual : Value) : Fault :=
  .type expected actual none

end Fault

def Outcome.fail (fault : Fault) : Outcome :=
  .error (.single fault)

end SchemaCodec
