import SchemaCodec.BuildError
import SchemaCodec.Schema.Standard

/-!
Schemas of single values and choices among them: literals, enumerations, nullable schemas, and texts
made from parts.
-/

namespace SchemaCodec.Schema

def literal (id : NodeId) (value : Literal) : Schema :=
  plain id (.literal value)

def parts {α : Type} (id : NodeId) (make : NodeId → α → Schema) (first : Nat) : List α → List Schema
  | [] => []
  | value :: rest => make (.part id first) value :: parts id make (first + 1) rest

def literals (id : NodeId) (values : List Literal) : Schema :=
  union id (parts id literal 0 values)

def uniqueSymbol (id : NodeId) (symbol : Symbol) : Schema :=
  plain id (.uniqueSymbol symbol)

def enums (id : NodeId) (members : List EnumMember) : Schema :=
  plain id (.enums members)

def nullable (id : NodeId) (schema : Schema) : Schema :=
  union id [schema, null]

def lazyReference (id : NodeId) (scope : Nat) (name : String) : Schema :=
  plain id (.lazy (.reference ⟨id, scope, name⟩))

def declare (id : NodeId) (parameters : List Schema) (decode encode : Hook) : Schema :=
  plain id (.declaration parameters decode encode)

end Schema

namespace Template

def slot? (schema : Schema) : Option TemplateSlot :=
  match schema.kind with
  | .keyword .string => some .string
  | .keyword .number => some .number
  | _ => none

def ofSpans (head : String) (spans : List (Schema × String)) : Except BuildError Template := do
  let spans ← spans.mapM fun (schema, literal) =>
    match slot? schema with
    | some slot => .ok ⟨slot, literal⟩
    | none => .error (.template ("unsupported span type " ++ schema.tag))
  return ⟨head, spans⟩

def addText (template : Template) (text : String) : Template :=
  match template.spans.reverse with
  | [] => { template with head := template.head ++ text }
  | last :: before =>
    { template with spans := (⟨last.slot, last.literal ++ text⟩ :: before).reverse }

def addSlot (template : Template) (slot : TemplateSlot) : Template :=
  { template with spans := template.spans ++ [⟨slot, ""⟩] }

def addPart (template : Template) (schema : Schema) : Except BuildError Template :=
  match schema.kind with
  | .literal literal => .ok (template.addText literal.text)
  | _ =>
    match slot? schema with
    | some slot => .ok (template.addSlot slot)
    | none => .error (.template ("unsupported template literal part " ++ schema.tag))

def alternatives (part : Schema) : List Schema :=
  match part.kind with
  | .union members => members
  | _ => [part]

def addParts (templates : List Template) : List Schema → Except BuildError (List Template)
  | [] => .ok templates
  | part :: rest => do
    let next ← templates.mapM fun template => (alternatives part).mapM template.addPart
    addParts next.flatten rest

/-- The schema of a template; without places it is a literal. -/
def toSchema (id : NodeId) (template : Template) : Schema :=
  if template.spans.isEmpty then Schema.literal id (.string template.head)
  else Schema.plain id (.template template)

end Template

/-- Texts made from parts: literals, strings, numbers and unions of these. -/
def Schema.templateLiteral (id : NodeId) (parts : List Schema) : Except BuildError Schema := do
  let templates ← Template.addParts [⟨"", []⟩] parts
  return Schema.union id (Schema.parts id Template.toSchema 0 templates)

end SchemaCodec
