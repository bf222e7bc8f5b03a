import SchemaCodec.Json.Basic
import SchemaCodec.Number.Binary64
import SchemaCodec.Number.Decimal
import SchemaCodec.Table
import SchemaCodec.Yaml.Node

/-!
The data of a document, whether it was written as JSON or as YAML. A plain scalar of YAML is null, a
boolean or a number if it is written like one, and a text otherwise; a quoted one is a text.
-/

namespace SchemaCodec

inductive DocumentFormat where
  | json
  | yaml
deriving DecidableEq, Repr

/-- The data of a document. Keys of mappings are data as well, and may occur more than once. -/
inductive Data where
  | null
  | boolean (b : Bool)
  | number (n : JsonNumber)
  | text (text : String)
  | list (items : List Data)
  | mapping (entries : List (Data × Data))

namespace Yaml

/-- Zero in front of other digits. -/
def isPadded (text : List Char) : Bool :=
  match (Number.takeSign text).2 with
  | '0' :: c :: rest => (c :: rest).all Char.isDigit
  | _ => false

def readBase? (base : Nat) (text : List Char) : Option Nat :=
  match text with
  | [] => none
  | _ => text.foldlM (fun sofar c =>
      (Number.hexValue? c).bind fun digit =>
        if digit < base then some (base * sofar + digit) else none) 0

/-- A whole number without sign: decimal, or in one of three bases after its mark. -/
def readWhole? (text : List Char) : Option Nat :=
  match text with
  | '0' :: 'x' :: digits => readBase? 16 digits
  | '0' :: 'o' :: digits => readBase? 8 digits
  | '0' :: 'b' :: digits => readBase? 2 digits
  | _ => if isPadded text then none else readBase? 10 text

/-- A whole number with or without a sign. -/
def readInteger? (text : List Char) : Option Int :=
  match text with
  | '-' :: digits => (readWhole? digits).map fun n => -(n : Int)
  | '+' :: digits => (readWhole? digits).map Int.ofNat
  | _ => (readWhole? text).map Int.ofNat

def readNonFinite? (text : String) : Option Float :=
  if [".inf", ".Inf", ".INF", "+.inf", "+.Inf", "+.INF"].contains text then some Number.infinity
  else if ["-.inf", "-.Inf", "-.INF"].contains text then some (-Number.infinity)
  else if [".nan", ".NaN", ".NAN"].contains text then some Number.undefined
  else none

def readReal? (text : List Char) : Option Float :=
  if isPadded text then none
  else ((Number.readDecimal? text).map Number.Decimal.toFloat).filter fun x =>
    (Number.parts? x).isSome

def readBoolean? (text : String) : Option Bool :=
  if ["true", "True", "TRUE"].contains text then some true
  else if ["false", "False", "FALSE"].contains text then some false
  else none

def isNull (text : String) : Bool :=
  ["", "~", "null", "Null", "NULL"].contains text

/-- The data of a plain scalar. Whole numbers that need more than 64 bits are refused. -/
def plainData? (text : String) : Option Data :=
  if isNull text then some .null
  else match readBoolean? text with
    | some b => some (.boolean b)
    | none =>
      match readInteger? text.toList with
      | some i =>
        if -Int.pow 2 63 ≤ i && i < Int.pow 2 64 then some (.number (.whole i))
        else if Number.fits128 i || (0 ≤ i && i < Int.pow 2 128) then none
        else some (((readReal? text.toList).map fun x => .number (.real x)).getD (.text text))
      | none =>
        match (readNonFinite? text).orElse fun _ => readReal? text.toList with
        | some x => some (.number (.real x))
        | none => some (.text text)

end Yaml

namespace Data

mutual

def ofYaml? : Yaml.Node → Option Data
  | .scalar word plain => if plain then Yaml.plainData? word else some (.text word)
  | .sequence items => (ofYamlItems? items).map .list
  | .mapping entries => (ofYamlEntries? entries).map .mapping

def ofYamlItems? : List Yaml.Node → Option (List Data)
  | [] => some []
  | item :: rest =>
    match ofYaml? item, ofYamlItems? rest with
    | some data, some others => some (data :: others)
    | _, _ => none

def ofYamlEntries? : List (Yaml.Node × Yaml.Node) → Option (List (Data × Data))
  | [] => some []
  | (key, value) :: rest =>
    match ofYaml? key, ofYaml? value, ofYamlEntries? rest with
    | some key, some value, some others => some ((key, value) :: others)
    | _, _, _ => none

end

mutual

def ofJson : Json → Data
  | .null => .null
  | .boolean b => .boolean b
  | .number n => .number n
  | .string word => .text word
  | .array items => .list (ofJsonItems items)
  | .object members => .mapping (ofJsonMembers members)

def ofJsonItems : List Json → List Data
  | [] => []
  | item :: rest => ofJson item :: ofJsonItems rest

def ofJsonMembers : List (String × Json) → List (Data × Data)
  | [] => []
  | (name, value) :: rest => (.text name, ofJson value) :: ofJsonMembers rest

end

/-- Numbers that are not finite are null in JSON. -/
def jsonNumber (n : JsonNumber) : Json :=
  match n with
  | .whole i => .number (.whole i)
  | .real x => if (Number.parts? x).isSome then .number (.real x) else .null

mutual

/-- The JSON value of data whose keys are texts. Of members with one name the last counts. -/
def toJson? : Data → Option Json
  | .null => some .null
  | .boolean b => some (.boolean b)
  | .number n => some (jsonNumber n)
  | .text word => some (.string word)
  | .list items => (toJsonItems? items).map .array
  | .mapping entries => (toJsonMembers? entries).map fun members => .object (Table.ofEntries members)

def toJsonItems? : List Data → Option (List Json)
  | [] => some []
  | item :: rest =>
    match item.toJson?, toJsonItems? rest with
    | some json, some others => some (json :: others)
    | _, _ => none

def toJsonMembers? : List (Data × Data) → Option (List (String × Json))
  | [] => some []
  | (.text name, value) :: rest =>
    match value.toJson?, toJsonMembers? rest with
    | some json, some others => some ((name, json) :: others)
    | _, _ => none
  | _ :: _ => none

end

mutual

def depth : Data → Nat
  | .null => 0
  | .boolean _ => 0
  | .number _ => 0
  | .text _ => 0
  | .list items => itemsDepth items + 1
  | .mapping entries => entriesDepth entries + 1

def itemsDepth : List Data → Nat
  | [] => 0
  | item :: rest => max item.depth (itemsDepth rest)

def entriesDepth : List (Data × Data) → Nat
  | [] => 0
  | (_, value) :: rest => max value.depth (entriesDepth rest)

end

end Data

end SchemaCodec
