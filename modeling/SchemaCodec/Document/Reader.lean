import SchemaCodec.Document.Members
import SchemaCodec.Document.SchemaNode
import SchemaCodec.Value.Json

/-!
Reading schema documents. A node is a mapping with a `type`; its other members belong to the shape, to
the notes, or to neither and are passed over. Members of the shape and the notes may occur once and
must have the right form; null stands for a note that is not given. A member of the shape may also be
written under its place among the members of that shape.
-/

namespace SchemaCodec

/-- The members of a node by name, in order; a name may occur more than once. -/
abbrev NodeMembers := List (String × Data)

/-- The name that a key stands for: a text, or a whole number for the name at that place among those
given. A key of another form is refused, and a number beyond the names stands for nothing. -/
def Data.memberName? (names : List String) : Data → Option (Option String)
  | .text name => some (some name)
  | .number (.whole (.ofNat place)) => some names[place]?
  | _ => none

def NodeMembers.ofEntries? (names : List String) (entries : List (Data × Data)) :
    Option NodeMembers := do
  let members ← entries.mapM fun (key, value) =>
    (key.memberName? names).map fun name => (name, value)
  return members.filterMap fun (name, value) => name.map fun name => (name, value)

namespace NodeMembers

def required? {α : Type} (members : NodeMembers) (name : String) (read : Data → Option α) :
    Option α :=
  match uniqueMember? name members with
  | some (some data) => read data
  | _ => none

/-- What is read from the member of a name; the default if it is not there. -/
def defaulted? {α : Type} (members : NodeMembers) (name : String) (default : α)
    (read : Data → Option α) : Option α :=
  match uniqueMember? name members with
  | some (some data) => read data
  | some none => some default
  | none => none

/-- What is read from the member of a name; nothing if it is not there or null. -/
def given? {α : Type} (members : NodeMembers) (name : String) (read : Data → Option α) :
    Option (Option α) :=
  members.defaulted? name none fun data =>
    match data with
    | .null => some none
    | _ => (read data).map some

end NodeMembers

namespace Data

def text? : Data → Option String
  | .text word => some word
  | _ => none

def boolean? : Data → Option Bool
  | .boolean b => some b
  | _ => none

def natural? : Data → Option Nat
  | .number (.whole (.ofNat n)) => some n
  | _ => none

def real? : Data → Option Float
  | .number n => some n.toFloat
  | _ => none

def list? {α : Type} (read : Data → Option α) : Data → Option (List α)
  | .list items => items.mapM read
  | _ => none

/-- The members of a mapping by name, each read; of members with one name the last counts. -/
def table? {α : Type} (read : Data → Option α) : Data → Option (List (String × α))
  | .mapping entries => do
    let members ← entries.mapM fun (key, value) => do
      let name ← key.text?
      let member ← read value
      return (name, member)
    return Table.ofEntries members
  | _ => none

def indexSignature? {α : Type} (read : Data → Option α) : Data → Option (α × α)
  | .list [key, value] => do return (← read key, ← read value)
  | .mapping entries => do
    let members ← NodeMembers.ofEntries? ["key", "value"] entries
    return (← members.required? "key" read, ← members.required? "value" read)
  | _ => none

end Data

def NodeNotes.read? (members : NodeMembers) : Option NodeNotes := do
  return {
    identifier := ← members.given? "identifier" Data.text?
    title := ← members.given? "title" Data.text?
    description := ← members.given? "description" Data.text?
    message := ← members.given? "message" Data.text?
    optional := ← members.defaulted? "optional" false Data.boolean?
    minLength := ← members.given? "minLength" Data.natural?
    maxLength := ← members.given? "maxLength" Data.natural?
    length := ← members.given? "length" Data.natural?
    pattern := ← members.given? "pattern" Data.text?
    minimum := ← members.given? "minimum" Data.real?
    maximum := ← members.given? "maximum" Data.real?
    int := ← members.defaulted? "int" false Data.boolean?
    minItems := ← members.given? "minItems" Data.natural?
    maxItems := ← members.given? "maxItems" Data.natural?
    brand := ← members.given? "brand" Data.text? }

def nodeTypes : List String :=
  ["string", "number", "boolean", "bigint", "symbol", "undefined", "void", "null", "unknown", "any",
    "never", "object", "date", "literal", "literals", "enums", "array", "tuple", "struct", "record",
    "union", "nullable", "ref", "template", "NumberFromString", "BigIntFromString", "DateFromString",
    "Trim"]

def nodeType? : Data → Option String
  | .text word => some word
  | .number (.whole (.ofNat n)) => nodeTypes[n]?
  | _ => none

def WordShape.ofType? : String → Option WordShape
  | "string" => some .string
  | "number" => some .number
  | "boolean" => some .boolean
  | "bigint" => some .bigint
  | "symbol" => some .symbol
  | "undefined" => some .undefined
  | "void" => some .void
  | "null" => some .null
  | "unknown" => some .unknown
  | "any" => some .any
  | "never" => some .never
  | "object" => some .object
  | "date" => some .date
  | "NumberFromString" => some .numberFromString
  | "BigIntFromString" => some .bigintFromString
  | "DateFromString" => some .dateFromString
  | "Trim" => some .trim
  | _ => none

def Shape.memberNames : String → List String
  | "literal" => ["value"]
  | "literals" => ["values"]
  | "enums" => ["members"]
  | "array" => ["items"]
  | "tuple" => ["elements", "rest", "postRest"]
  | "struct" => ["properties", "indexSignatures"]
  | "record" => ["key", "value"]
  | "union" => ["members"]
  | "nullable" => ["schema"]
  | "ref" => ["name"]
  | "template" => ["parts"]
  | _ => []

def Shape.read? {ν : Type} (node : Data → Option ν) (members : NodeMembers) :
    String → Option (Shape ν)
  | "literal" => (members.required? "value" Data.toJson?).map .literal
  | "literals" => (members.required? "values" (Data.list? Data.toJson?)).map .literals
  | "enums" => (members.required? "members" (Data.table? Data.toJson?)).map .enums
  | "array" => (members.required? "items" node).map .array
  | "tuple" => do
    let elements ← members.defaulted? "elements" [] (Data.list? node)
    let rest ← members.given? "rest" node
    let restElements ← members.defaulted? "postRest" [] (Data.list? node)
    return .tuple elements rest restElements
  | "struct" => do
    let properties ← members.defaulted? "properties" [] (Data.table? node)
    let indexes ← members.defaulted? "indexSignatures" [] (Data.list? (Data.indexSignature? node))
    return .struct properties indexes
  | "record" => do
    let key ← members.required? "key" node
    let value ← members.required? "value" node
    return .record key value
  | "union" => (members.required? "members" (Data.list? node)).map .union
  | "nullable" => (members.required? "schema" node).map .nullable
  | "ref" => (members.required? "name" Data.text?).map .reference
  | "template" => (members.required? "parts" (Data.list? node)).map .template
  | other => (WordShape.ofType? other).map .word

namespace SchemaNode

def ofEntries? : Nat → List (Data × Data) → Option SchemaNode
  | 0, _ => none
  | depth + 1, entries => do
    let members ← NodeMembers.ofEntries? [] entries
    let type ← members.required? "type" nodeType?
    let shapeMembers ← NodeMembers.ofEntries? (Shape.memberNames type) entries
    let below : Data → Option SchemaNode
      | .mapping inner => ofEntries? depth inner
      | _ => none
    let shape ← Shape.read? below shapeMembers type
    let notes ← NodeNotes.read? members
    return .node shape notes

def ofData? (data : Data) : Option SchemaNode :=
  match data with
  | .mapping entries => ofEntries? data.depth entries
  | _ => none

/-- The node of a YAML mapping; its own keys are names, whatever they look like. -/
def ofYaml? (node : Yaml.Node) : Option SchemaNode := do
  let members ← node.members?
  let entries ← members.mapM fun (name, value) =>
    (Data.ofYaml? value).map fun data => (Data.text name, data)
  ofData? (.mapping entries)

end SchemaNode

namespace SchemaDocument

def memberNames : List String := ["definitions", "root"]

def ofMembers? {α : Type} (definitions : α → Option (List (String × SchemaNode)))
    (root : α → Option (Option SchemaNode)) (members : List (String × α)) :
    Option SchemaDocument := do
  let defined ← (← uniqueMember? "definitions" members).mapM definitions
  let chosen ← (← uniqueMember? "root" members).mapM root
  return ⟨Table.ofEntries (defined.getD []), chosen.join⟩

def readAll? {α : Type} (read : α → Option SchemaNode) (members : List (String × α)) :
    Option (List (String × SchemaNode)) :=
  members.mapM fun (name, value) => (read value).map fun node => (name, node)

def jsonNode? (json : Json) : Option SchemaNode :=
  SchemaNode.ofData? (.ofJson json)

def jsonRoot? : Json → Option (Option SchemaNode)
  | .null => some none
  | json => (jsonNode? json).map some

/-- A root of null is no root. -/
def yamlRoot? (node : Yaml.Node) : Option (Option SchemaNode) :=
  match node with
  | .scalar text true => if Yaml.isNull text then some none else none
  | _ => (SchemaNode.ofYaml? node).map some

def read? (format : DocumentFormat) (text : String) : Option SchemaDocument :=
  match format with
  | .json => do
    let json ← Json.read? text
    ofMembers? (fun value => value.members?.bind (readAll? jsonNode?)) jsonRoot?
      (← json.record? memberNames)
  | .yaml => do
    let node ← Yaml.Node.read? text
    ofMembers? (fun value => value.members?.bind (readAll? SchemaNode.ofYaml?)) yamlRoot?
      (← node.record? memberNames)

end SchemaDocument

end SchemaCodec
