import SchemaCodec.Instant
import SchemaCodec.Number.Binary64
import SchemaCodec.PropertyKey
import SchemaCodec.Table

/-!
The dynamic values that schemas read and write. The members of an object keep their order and have
distinct keys.
-/

namespace SchemaCodec

inductive Value where
  | undefined
  | null
  | boolean (b : Bool)
  | number (n : Float)
  /-- A whole number of 128 bits with a sign. -/
  | bigint (i : Int)
  | string (text : String)
  | symbol (symbol : Symbol)
  | date (instant : Instant)
  | array (items : List Value)
  | object (members : List (PropertyKey × Value))
deriving Inhabited

abbrev Members := List (PropertyKey × Value)

def PropertyKey.toValue : PropertyKey → Value
  | .string text => .string text
  | .symbol s => .symbol s

namespace Value

/-- The object with the given members; of members with one key the last counts. -/
def ofMembers (members : Members) : Value :=
  .object (Table.ofEntries members)

def typeName : Value → String
  | .undefined => "undefined"
  | .null => "null"
  | .boolean _ => "boolean"
  | .number _ => "number"
  | .bigint _ => "bigint"
  | .string _ => "string"
  | .symbol _ => "symbol"
  | .date _ => "date"
  | .array _ => "array"
  | .object _ => "object"

def isUndefined : Value → Bool
  | .undefined => true
  | _ => false

/-- Undefined or null. -/
def isNullish : Value → Bool
  | .undefined => true
  | .null => true
  | _ => false

def isRecord : Value → Bool
  | .object _ => true
  | _ => false

/-- Objects, arrays and dates. -/
def isObjectLike : Value → Bool
  | .object _ => true
  | .array _ => true
  | .date _ => true
  | _ => false

def string? : Value → Option String
  | .string text => some text
  | _ => none

def number? : Value → Option Float
  | .number n => some n
  | _ => none

def boolean? : Value → Option Bool
  | .boolean b => some b
  | _ => none

def array? : Value → Option (List Value)
  | .array items => some items
  | _ => none

def object? : Value → Option Members
  | .object members => some members
  | _ => none

def member? (key : PropertyKey) (value : Value) : Option Value :=
  value.object?.bind (Table.find? key)

mutual

/-- Equal values. Numbers are compared as numbers, and the order of members does not count. -/
def same : Value → Value → Bool
  | .undefined, .undefined => true
  | .null, .null => true
  | .boolean a, .boolean b => a == b
  | .number a, .number b => a == b
  | .bigint a, .bigint b => a == b
  | .string a, .string b => a == b
  | .symbol a, .symbol b => a == b
  | .date a, .date b => a == b
  | .array a, .array b => sameItems a b
  | .object a, .object b => a.length == b.length && sameMembers a b
  | _, _ => false

def sameItems : List Value → List Value → Bool
  | [], [] => true
  | a :: as, b :: bs => a.same b && sameItems as bs
  | _, _ => false

def sameMembers : List (PropertyKey × Value) → List (PropertyKey × Value) → Bool
  | [], _ => true
  | (key, a) :: rest, others =>
    (match Table.find? key others with
      | some b => a.same b
      | none => false) && sameMembers rest others

end

end Value

end SchemaCodec
