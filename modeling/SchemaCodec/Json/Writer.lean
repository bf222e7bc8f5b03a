import SchemaCodec.Json.Basic
import SchemaCodec.Number.Integer
import SchemaCodec.Number.Text

/-!
JSON text. The compact form has no blanks; the indented form puts each item on a line of its own,
two spaces deeper than what holds it. Control characters are escaped, other characters stand as
they are.
-/

namespace SchemaCodec.Json

def twoHex (n : Nat) : List Char :=
  [Nat.digitChar (n / 16 % 16), Nat.digitChar (n % 16)]

def escapeChar (c : Char) : List Char :=
  if c = '"' then ['\\', '"']
  else if c = '\\' then ['\\', '\\']
  else if c = '\n' then ['\\', 'n']
  else if c = '\r' then ['\\', 'r']
  else if c = '\t' then ['\\', 't']
  else if c.toNat = 8 then ['\\', 'b']
  else if c.toNat = 12 then ['\\', 'f']
  else if c.toNat < 32 then ['\\', 'u', '0', '0'] ++ twoHex c.toNat
  else [c]

def quoteChars (text : List Char) : List Char :=
  '"' :: (text.flatMap escapeChar ++ ['"'])

def quote (text : String) : String :=
  String.ofList (quoteChars text.toList)

end Json

/-- The text of a finite number; a double is marked by a point or by an exponent. -/
def JsonNumber.text : JsonNumber → String
  | .whole i => Number.integerText i
  | .real x =>
    match Number.parts? x with
    | none => "null"
    | some parts =>
      let body := String.ofList (Number.documentLayout.write parts)
      if Number.isNegativeZero x then "-" ++ body else body

namespace Json

mutual

def compact : Json → String
  | .null => "null"
  | .boolean b => if b then "true" else "false"
  | .number n => n.text
  | .string text => quote text
  | .array items => "[" ++ String.intercalate "," (compactItems items) ++ "]"
  | .object members => "\x7b" ++ String.intercalate "," (compactMembers members) ++ "\x7d"

def compactItems : List Json → List String
  | [] => []
  | item :: rest => item.compact :: compactItems rest

def compactMembers : List (String × Json) → List String
  | [] => []
  | (name, value) :: rest => (quote name ++ ":" ++ value.compact) :: compactMembers rest

end

def lineBreak (level : Nat) : String :=
  String.ofList ('\n' :: List.replicate (2 * level) ' ')

/-- Parts on lines of their own between two brackets; no parts, no lines. -/
def enclose (opening closing : String) (level : Nat) (parts : List String) : String :=
  match parts with
  | [] => opening ++ closing
  | _ :: _ =>
    opening ++ lineBreak (level + 1) ++ String.intercalate ("," ++ lineBreak (level + 1)) parts
      ++ lineBreak level ++ closing

mutual

def indentedAt (level : Nat) : Json → String
  | .array items => enclose "[" "]" level (indentedItems (level + 1) items)
  | .object members => enclose "\x7b" "\x7d" level (indentedMembers (level + 1) members)
  | .null => "null"
  | .boolean b => if b then "true" else "false"
  | .number n => n.text
  | .string text => quote text

def indentedItems (level : Nat) : List Json → List String
  | [] => []
  | item :: rest => item.indentedAt level :: indentedItems level rest

def indentedMembers (level : Nat) : List (String × Json) → List String
  | [] => []
  | (name, value) :: rest =>
    (quote name ++ ": " ++ value.indentedAt level) :: indentedMembers level rest

end

def indented (json : Json) : String :=
  json.indentedAt 0

end SchemaCodec.Json
