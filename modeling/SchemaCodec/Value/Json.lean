import SchemaCodec.Json.Writer
import SchemaCodec.Number.Decimal
import SchemaCodec.Value.Display

/-!
Values as JSON. Undefined and symbols are left out of objects and become null in arrays, members
under symbols are left out, dates become texts, and numbers that are not finite become null. A big
whole number in a place that is kept has no JSON form.
-/

namespace SchemaCodec

inductive JsonFailure where
  /-- The value itself is undefined or a symbol. -/
  | unrepresentable (typeName : String)
  /-- A big whole number is in the value. -/
  | bigint
deriving DecidableEq, Repr

namespace JsonFailure

def reason : JsonFailure → String
  | .unrepresentable typeName => typeName ++ " has no JSON representation"
  | .bigint => "BigInt value can't be serialized in JSON"

def message : JsonFailure → String
  | .unrepresentable typeName =>
    "Conversion error in json: " ++ (JsonFailure.unrepresentable typeName).reason
  | .bigint => "Serialization error: " ++ JsonFailure.bigint.reason

end JsonFailure

namespace Value

/-- Left out of objects, null in arrays. -/
def isUnrepresentable : Value → Bool
  | .undefined => true
  | .symbol _ => true
  | _ => false

/-- Whole numbers up to the largest safe one are whole in the document as well. -/
def jsonNumber (n : Float) : Json :=
  match Number.safeWhole? n with
  | some i => .number (.whole i)
  | none => if (Number.parts? n).isSome then .number (.real n) else .null

mutual

/-- The JSON form in a place that is kept; none if a big whole number is in it. -/
def embedded? : Value → Option Json
  | .undefined => some .null
  | .symbol _ => some .null
  | .null => some .null
  | .boolean b => some (.boolean b)
  | .number n => some (jsonNumber n)
  | .bigint _ => none
  | .string text => some (.string text)
  | .date instant => some (.string instant.text)
  | .array items => (embeddedItems? items).map .array
  | .object members => (embeddedMembers? members).map .object

def embeddedItems? : List Value → Option (List Json)
  | [] => some []
  | item :: rest =>
    match item.embedded?, embeddedItems? rest with
    | some json, some others => some (json :: others)
    | _, _ => none

def embeddedMembers? : List (PropertyKey × Value) → Option (List (String × Json))
  | [] => some []
  | (.symbol _, _) :: rest => embeddedMembers? rest
  | (.string name, value) :: rest =>
    if value.isUnrepresentable then embeddedMembers? rest
    else match value.embedded?, embeddedMembers? rest with
      | some json, some others => some ((name, json) :: others)
      | _, _ => none

end

def toJson (value : Value) : Except JsonFailure Json :=
  if value.isUnrepresentable then .error (.unrepresentable value.typeName)
  else match value.embedded? with
    | some json => .ok json
    | none => .error .bigint

def jsonText (value : Value) : Except JsonFailure String :=
  value.toJson.map Json.compact

def jsonLines (value : Value) : Except JsonFailure String :=
  value.toJson.map Json.indented

end Value

def JsonNumber.toFloat : JsonNumber → Float
  | .whole i => Number.ofInteger i
  | .real x => x

namespace Value

mutual

/-- The value of a document. Of members with one name the last counts. -/
def ofJson : Json → Value
  | .null => .null
  | .boolean b => .boolean b
  | .number n => .number n.toFloat
  | .string text => .string text
  | .array items => .array (ofJsonItems items)
  | .object members => ofMembers (ofJsonMembers members)

def ofJsonItems : List Json → List Value
  | [] => []
  | item :: rest => ofJson item :: ofJsonItems rest

def ofJsonMembers : List (String × Json) → List (PropertyKey × Value)
  | [] => []
  | (name, value) :: rest => (.string name, ofJson value) :: ofJsonMembers rest

end

/-- How a value is shown where it is not what was expected: its JSON text, if it has one. -/
def shown : Value → String
  | .undefined => "undefined"
  | .null => "null"
  | .number n => Number.text n
  | .symbol s => s.text
  | .date instant => instant.text
  | .bigint i => Number.integerText i ++ "n"
  | value => match value.jsonText with
    | .ok text => text
    | .error _ => value.display

end Value

end SchemaCodec
