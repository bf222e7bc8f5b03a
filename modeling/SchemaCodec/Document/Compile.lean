import SchemaCodec.Document.Alias
import SchemaCodec.Registry
import SchemaCodec.Schema.Transform
import SchemaCodec.Value.Json

/-!
Schemas of documents. Each node becomes a schema: its shape first, then its checks in a fixed order,
then its annotations. A reference becomes a lazy node under its name, so definitions may refer to each
other in any order; the name must be one of the document or of the registry.
-/

namespace SchemaCodec

def WordShape.schema (id : NodeId) : WordShape → Schema
  | .string => .string
  | .number => .number
  | .boolean => .boolean
  | .bigint => .bigint
  | .symbol => .symbol
  | .undefined => .undefined
  | .void => .void
  | .null => .null
  | .unknown => .unknown
  | .any => .any
  | .never => .never
  | .object => .object
  | .date => .date
  | .numberFromString => .numberFromString id .string
  | .bigintFromString => .bigintFromString id .string
  | .dateFromString => .dateFromString id .string
  | .trim => .trim id .string

def Literal.ofJson : Json → Except BuildError Literal
  | .string text => .ok (.string text)
  | .number n => .ok (.number n.toFloat)
  | .boolean b => .ok (.boolean b)
  | .null => .ok .null
  | other => .error
    (.document ("literal must be a string, number, boolean or null, got " ++ other.compact))

def EnumMember.ofJson (name : String) : Json → Except BuildError EnumMember
  | .string text => .ok ⟨name, .string text⟩
  | .number n => .ok ⟨name, .number n.toFloat⟩
  | _ => .error (.document ("enum member " ++ name ++ " must be a string or a number"))

/-- The regular expressions that documents write, or that are made of their templates. -/
structure Patterns where
  /-- The texts in which the expression that a text writes is found; none if it is no expression. -/
  read? : String → Option (String → Bool)
  /-- The expression of the template is not too large to be made. -/
  takes : Template → Bool

def Patterns.usual : Patterns where
  read? text := (Regex.read? text).map Regex.isFoundIn
  takes _ := true

namespace NodeNotes

def applied {α : Type} (check : NodeId → Schema → α → Schema) (id : NodeId) (asked : Option α)
    (schema : Schema) : Schema :=
  match asked with
  | some bound => check id schema bound
  | none => schema

def check (notes : NodeNotes) (patterns : Patterns) (id : NodeId) (schema : Schema) :
    Except BuildError Schema := do
  let schema := applied Schema.minLength (.part id 2) notes.minLength schema
  let schema := applied Schema.maxLength (.part id 3) notes.maxLength schema
  let schema := applied Schema.length (.part id 4) notes.length schema
  let schema ← match notes.pattern with
    | some text => Schema.patternBy patterns.read? (.part id 5) schema text
    | none => .ok schema
  let schema := applied Schema.atLeast (.part id 6) notes.minimum schema
  let schema := applied Schema.atMost (.part id 7) notes.maximum schema
  let schema := if notes.int then Schema.int (.part id 8) schema else schema
  let schema := applied Schema.minItems (.part id 9) notes.minItems schema
  let schema := applied Schema.maxItems (.part id 10) notes.maxItems schema
  return applied Schema.brand (.part id 11) notes.brand schema

def annotate (notes : NodeNotes) (id : NodeId) (schema : Schema) : Schema :=
  let text (key : AnnotationId) (id : NodeId) (schema : Schema) (text : String) : Schema :=
    schema.annotate id key (.text text)
  let schema := applied (text .identifier) (.part id 12) notes.identifier schema
  let schema := applied (text .title) (.part id 13) notes.title schema
  let schema := applied (text .description) (.part id 14) notes.description schema
  applied (fun id schema text => schema.annotate id .message (.message fun _ => some text))
    (.part id 15) notes.message schema

end NodeNotes

structure DocumentScope where
  /-- The scope in which references look their names up. -/
  scope : Nat
  /-- The names that the document defines. -/
  defined : List String
  registry : Registry
  patterns : Patterns

def DocumentScope.knows (within : DocumentScope) (name : String) : Bool :=
  within.defined.contains name || within.registry.contains name

def DocumentScope.reference (within : DocumentScope) (id : NodeId) (name : String) :
    Except BuildError Schema :=
  if within.knows name then
    .ok ((Schema.lazyReference (.part id 0) within.scope name).withIdentifier id name)
  else .error (.notFound ("reference to unknown definition " ++ "\x60" ++ name ++ "\x60"))

/-- Texts made from parts, if the expression of each template can be made. -/
def DocumentScope.template (within : DocumentScope) (id : NodeId) (parts : List Schema) :
    Except BuildError Schema := do
  let templates ← Template.addParts [⟨"", []⟩] parts
  match templates.find? fun template => !template.spans.isEmpty && !within.patterns.takes template with
  | some refused => .error (.pattern refused.label)
  | none => Schema.templateLiteral id parts

def NodeNotes.finish (notes : NodeNotes) (patterns : Patterns) (id : NodeId) (schema : Schema) :
    Except BuildError Schema :=
  (notes.check patterns id schema).map (notes.annotate id)

/-- A field of a struct; the notes tell whether it is optional. -/
def NodeNotes.field (notes : NodeNotes) (name : String) (schema : Schema) : Field Schema :=
  ⟨.string name, schema, notes.optional⟩

/-- An element of a tuple; the notes tell whether it is optional. -/
def NodeNotes.element (notes : NodeNotes) (schema : Schema) : Schema.TuplePart :=
  if notes.optional then .optional schema else .element schema

namespace SchemaNode

mutual

/-- The schema of a node. What is below it is compiled first, from left to right. -/
def compile (within : DocumentScope) (id : NodeId) : SchemaNode → Except BuildError Schema
  | .node shape notes => do
    let base := NodeId.part id 0
    let below := NodeId.part id 1
    let schema ← match shape with
      | .word kind => .ok (kind.schema base)
      | .literal value => (Literal.ofJson value).map (Schema.literal base)
      | .literals values => (values.mapM Literal.ofJson).map (Schema.literals base)
      | .enums members =>
        (members.mapM fun (name, value) => EnumMember.ofJson name value).map (Schema.enums base)
      | .array item => (compile within (.part below 0) item).map (Schema.array base)
      | .tuple elements rest restElements => do
        let elements ← compileElements within (.part below 0) 0 elements
        match rest with
        | some repeated => do
          let repeated ← compile within (.part below 1) repeated
          let restElements ← compileAll within (.part below 2) 0 restElements
          Schema.tuple base
            (elements ++ .rest repeated :: restElements.map Schema.TuplePart.element)
        | none =>
          if restElements.isEmpty then Schema.tuple base elements
          else .error (.document "postRest elements require a rest element")
      | .struct properties indexes => do
        let fields ← compileFields within (.part below 0) 0 properties
        let indexes ← compileIndexes within (.part below 1) 0 indexes
        Schema.struct base fields indexes
      | .record key value => do
        let key ← compile within (.part below 0) key
        let value ← compile within (.part below 1) value
        Schema.record base key value
      | .union members => (compileAll within below 0 members).map (Schema.union base)
      | .nullable inner => (compile within (.part below 0) inner).map (Schema.nullable base)
      | .reference name => within.reference base name
      | .template parts =>
        (compileAll within below 0 parts).bind (within.template base)
    notes.finish within.patterns id schema

def compileAll (within : DocumentScope) (id : NodeId) (first : Nat) :
    List SchemaNode → Except BuildError (List Schema)
  | [] => .ok []
  | child :: rest => do
    let schema ← compile within (.part id first) child
    return schema :: (← compileAll within id (first + 1) rest)

def compileElements (within : DocumentScope) (id : NodeId) (first : Nat) :
    List SchemaNode → Except BuildError (List Schema.TuplePart)
  | [] => .ok []
  | child :: rest => do
    let schema ← compile within (.part id first) child
    return child.notes.element schema :: (← compileElements within id (first + 1) rest)

def compileFields (within : DocumentScope) (id : NodeId) (first : Nat) :
    List (String × SchemaNode) → Except BuildError (List (Field Schema))
  | [] => .ok []
  | (name, child) :: rest => do
    let schema ← compile within (.part id first) child
    return child.notes.field name schema :: (← compileFields within id (first + 1) rest)

def compileIndexes (within : DocumentScope) (id : NodeId) (first : Nat) :
    List (SchemaNode × SchemaNode) → Except BuildError (List (Schema × Schema))
  | [] => .ok []
  | (key, value) :: rest => do
    let key ← compile within (.part (.part id first) 0) key
    let value ← compile within (.part (.part id first) 1) value
    return (key, value) :: (← compileIndexes within id (first + 1) rest)

end

end SchemaNode

namespace SchemaDocument

def compileDefinitions (within : DocumentScope) (id : NodeId) (first : Nat) :
    List (String × SchemaNode) → Except BuildError (List (String × Schema))
  | [] => .ok []
  | (name, node) :: rest => do
    let schema ← node.compile within (.part id first)
    return (name, schema) :: (← compileDefinitions within id (first + 1) rest)

def aliasError (cycle : List String) : BuildError :=
  .document ("definitions refer to each other without a struct, tuple, array or record in between: "
    ++ String.intercalate " -> " cycle)

/-- Compile a document whose nodes are parts of one identity: its root, if it has one, and the registry
with its definitions put on top. The registry is only changed if everything compiles. -/
def load (document : SchemaDocument) (id : NodeId) (scope : Nat) (registry : Registry)
    (patterns : Patterns := .usual) : Except BuildError (Option Schema × Registry) := do
  if let some cycle := (AliasGraph.ofDocument document).cycle? then
    throw (aliasError cycle)
  let within : DocumentScope := ⟨scope, document.names, registry, patterns⟩
  let definitions ← compileDefinitions within (.part id 0) 0 document.definitions
  let root ← match document.root with
    | some chosen => (chosen.compile within (.part id 1)).map some
    | none => .ok none
  return (root, registry.registerAll definitions)

end SchemaDocument

end SchemaCodec
