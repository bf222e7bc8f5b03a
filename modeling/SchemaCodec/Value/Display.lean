import SchemaCodec.Instant.Text
import SchemaCodec.Number.Text
import SchemaCodec.Value.Basic

/-!
The plain text of a value: what it turns into where a text is needed.
-/

namespace SchemaCodec.Value

mutual

/-- Arrays show their items between commas, and nothing for items that are undefined or null. -/
def display : Value → String
  | .undefined => "undefined"
  | .null => "null"
  | .boolean b => if b then "true" else "false"
  | .number n => Number.text n
  | .bigint i => Number.integerText i
  | .string text => text
  | .symbol s => s.text
  | .date instant => instant.text
  | .array items => String.intercalate "," (displayItems items)
  | .object _ => "[object Object]"

def displayItems : List Value → List String
  | [] => []
  | item :: rest => (if item.isNullish then "" else item.display) :: displayItems rest

end

end SchemaCodec.Value
