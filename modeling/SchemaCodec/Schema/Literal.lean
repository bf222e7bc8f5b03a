import SchemaCodec.Value.Json

/-!
The schemas without parts: keywords, literals and enumerations.
-/

namespace SchemaCodec

inductive Keyword where
  | undefined
  | void
  | never
  | unknown
  | any
  | string
  | number
  | boolean
  | bigint
  | symbol
  | object
deriving DecidableEq, Repr

namespace Keyword

def name : Keyword → String
  | .undefined => "Undefined"
  | .void => "Void"
  | .never => "Never"
  | .unknown => "Unknown"
  | .any => "Any"
  | .string => "String"
  | .number => "Number"
  | .boolean => "Boolean"
  | .bigint => "BigInt"
  | .symbol => "Symbol"
  | .object => "Object"

def tag (keyword : Keyword) : String :=
  keyword.name ++ "Keyword"

def accepts : Keyword → Value → Bool
  | .undefined, value => value.isUndefined
  | .void, value => value.isUndefined
  | .never, _ => false
  | .unknown, _ => true
  | .any, _ => true
  | .string, value => value.string?.isSome
  | .number, value => value.number?.isSome
  | .boolean, value => value.boolean?.isSome
  | .bigint, .bigint _ => true
  | .bigint, _ => false
  | .symbol, .symbol _ => true
  | .symbol, _ => false
  | .object, value => value.isObjectLike

end Keyword

inductive Literal where
  | string (text : String)
  | number (n : Float)
  | boolean (b : Bool)
  | bigint (i : Int)
  | null
deriving DecidableEq

namespace Literal

/-- The value is the literal; numbers are compared as numbers. -/
def accepts : Literal → Value → Bool
  | .string a, .string b => a == b
  | .number a, .number b => a == b
  | .boolean a, .boolean b => a == b
  | .bigint a, .bigint b => a == b
  | .null, .null => true
  | _, _ => false

def toValue : Literal → Value
  | .string text => .string text
  | .number n => .number n
  | .boolean b => .boolean b
  | .bigint i => .bigint i
  | .null => .null

def ofValue? : Value → Option Literal
  | .string text => some (.string text)
  | .number n => some (.number n)
  | .boolean b => some (.boolean b)
  | .bigint i => some (.bigint i)
  | .null => some .null
  | _ => none

@[simp]
theorem ofValue?_toValue (literal : Literal) : ofValue? literal.toValue = some literal := by
  cases literal <;> rfl

/-- The text that stands for the literal in templates and tells tagged members apart. -/
def text : Literal → String
  | .string text => text
  | .number n => Number.text n
  | .boolean b => if b then "true" else "false"
  | .bigint i => Number.integerText i
  | .null => "null"

end Literal

inductive EnumValue where
  | string (text : String)
  | number (n : Float)
deriving DecidableEq

namespace EnumValue

def accepts : EnumValue → Value → Bool
  | .string a, .string b => a == b
  | .number a, .number b => a == b
  | _, _ => false

def toValue : EnumValue → Value
  | .string text => .string text
  | .number n => .number n

def ofValue? : Value → Option EnumValue
  | .string text => some (.string text)
  | .number n => some (.number n)
  | _ => none

@[simp]
theorem ofValue?_toValue (value : EnumValue) : ofValue? value.toValue = some value := by
  cases value <;> rfl

end EnumValue

structure EnumMember where
  name : String
  value : EnumValue
deriving DecidableEq

end SchemaCodec
