import SchemaCodec.Annotation
import SchemaCodec.Fault
import SchemaCodec.Options
import SchemaCodec.Schema.Literal
import SchemaCodec.Schema.Template

/-!
Schemas. A schema is a tree of nodes; each node has an identity, annotations and a kind, and the
kind holds the schemas below it. Recursion goes through lazy nodes, which hold a name and not a
schema, so that a schema is always finite.
-/

namespace SchemaCodec

/-- The two sides of a schema: the shape of what is decoded, and the shape of what comes out. -/
inductive Side where
  | input
  | output
deriving DecidableEq, Repr

/-- The identity of a node. Each node is a standard one, made under a number of its own, a part of a
larger construction, or the projection of another node to a side. -/
inductive NodeId where
  | standard (number : Nat)
  | made (number : Nat)
  | part (whole : NodeId) (index : Nat)
  | side (side : Side) (node : NodeId)
deriving DecidableEq, Repr

/-- A name to be looked up when the reference is first used. The scope tells which definitions are
meant, and the node tells apart two references to one name. -/
structure Reference where
  node : NodeId
  scope : Nat
  name : String
deriving DecidableEq, Repr

/-- What a lazy node stands for: the schema of a reference, or a side of what another lazy node stands
for. -/
inductive LazyCell where
  | reference (reference : Reference)
  | side (side : Side) (node : NodeId) (inner : LazyCell)
deriving DecidableEq, Repr

def LazyCell.root : LazyCell → Reference
  | .reference target => target
  | .side _ _ inner => inner.root

/-- A check on a value of the schema below: a fault if it rejects the value. -/
abbrev Filter := Options → Expected → Value → Option Fault

/-- One direction of a transformation. A function that suspends is only run where a run may wait. -/
structure Transformer where
  suspends : Bool
  apply : Options → Expected → Value → Outcome

/-- What a hook does: give an outcome, or ask for a value to be run against one of the parameters of
the declaration, or against any schema, and go on with the outcome of that. -/
inductive HookStepOver (σ : Type) where
  | done (outcome : Outcome)
  | parse (parameter : Nat) (input : Value) (resume : Outcome → HookStepOver σ)
  | parseBy (schema : σ) (input : Value) (resume : Outcome → HookStepOver σ)

structure Element (σ : Type) where
  schema : σ
  optional : Bool

structure Field (σ : Type) where
  name : PropertyKey
  schema : σ
  optional : Bool

structure IndexSignature (σ : Type) where
  parameter : σ
  schema : σ

inductive Kind (σ : Type) where
  | keyword (keyword : Keyword)
  | literal (literal : Literal)
  | uniqueSymbol (symbol : Symbol)
  | enums (members : List EnumMember)
  | template (template : Template)
  /-- Leading elements; then the first schema of `rest` any number of times and the others once. -/
  | tuple (elements : List (Element σ)) (rest : List σ)
  | struct (fields : List (Field σ)) (indexes : List (IndexSignature σ))
  | union (members : List σ)
  | lazy (cell : LazyCell)
  | refinement (source : σ) (filter : Filter)
  /-- A transformation that is strict checks its results as well. -/
  | transform (source target : σ) (decode encode : Transformer) (strict : Bool)
  | declaration (parameters : List σ)
      (decode encode : Options → Direction → Expected → Value → HookStepOver σ)

inductive Schema where
  | node (id : NodeId) (annotations : Annotations) (kind : Kind Schema)

abbrev HookStep := HookStepOver Schema

abbrev Hook := Options → Direction → Expected → Value → HookStep

def Kind.tag {σ : Type} : Kind σ → String
  | .keyword word => word.tag
  | .literal _ => "Literal"
  | .uniqueSymbol _ => "UniqueSymbol"
  | .enums _ => "Enums"
  | .template _ => "TemplateLiteral"
  | .tuple _ _ => "Tuple"
  | .struct _ _ => "TypeLiteral"
  | .union _ => "Union"
  | .lazy _ => "Lazy"
  | .refinement _ _ => "Refinement"
  | .transform _ _ _ _ _ => "Transform"
  | .declaration _ _ _ => "Declaration"

/-- The schemas one level below, in order. -/
def Kind.children {σ : Type} : Kind σ → List σ
  | .keyword _ => []
  | .literal _ => []
  | .uniqueSymbol _ => []
  | .enums _ => []
  | .template _ => []
  | .tuple elements rest => elements.map (·.schema) ++ rest
  | .struct fields indexes =>
    fields.map (·.schema) ++ indexes.flatMap fun index => [index.parameter, index.schema]
  | .union members => members
  | .lazy _ => []
  | .refinement source _ => [source]
  | .transform source target _ _ _ => [source, target]
  | .declaration parameters _ _ => parameters

namespace Schema

def id : Schema → NodeId
  | .node id _ _ => id

def annotations : Schema → Annotations
  | .node _ annotations _ => annotations

def kind : Schema → Kind Schema
  | .node _ _ kind => kind

def tag (schema : Schema) : String :=
  schema.kind.tag

def plain (id : NodeId) (kind : Kind Schema) : Schema :=
  .node id .empty kind

def annotate (schema : Schema) (id : NodeId) (key : AnnotationId) (note : Annotation) : Schema :=
  .node id (schema.annotations.insert key note) schema.kind

def annotateAll (schema : Schema) (id : NodeId) (top : Annotations) : Schema :=
  .node id (schema.annotations.merge top) schema.kind

def withIdentifier (schema : Schema) (id : NodeId) (text : String) : Schema :=
  schema.annotate id .identifier (.text text)

def withDescription (schema : Schema) (id : NodeId) (text : String) : Schema :=
  schema.annotate id .description (.text text)

/-- The schema without the refinements at its top. -/
def withoutRefinements : Schema → Schema
  | .node _ _ (.refinement source _) => source.withoutRefinements
  | schema => schema

/-- The schema can tell keys: a string, a symbol, a template, or a refinement of one of these. -/
def isParameter : Schema → Bool
  | .node _ _ (.keyword .string) => true
  | .node _ _ (.keyword .symbol) => true
  | .node _ _ (.template _) => true
  | .node _ _ (.refinement source _) => source.isParameter
  | _ => false

mutual

/-- The schema as messages show it. A union is its members; any other schema is its label, or what
it is made of. -/
def label : Schema → String
  | .node _ _ (.union members) => String.intercalate " or " (labels members)
  | .node _ annotations (.transform source target _ _ _) =>
    annotations.label?.getD (source.label ++ " <-> " ++ target.label)
  | .node _ annotations kind => annotations.label?.getD <|
    match kind with
    | .keyword keyword => keyword.tag
    | .literal literal => literal.toValue.shown
    | .uniqueSymbol symbol => symbol.text
    | .enums members =>
      String.intercalate " | " (members.map fun member => member.value.toValue.shown)
    | .template template => template.label
    | .tuple _ _ => "<anonymous tuple or array schema>"
    | .struct _ _ => "<anonymous type literal schema>"
    | .lazy _ => "<anonymous lazy schema>"
    | .refinement _ _ => "<anonymous refinement schema>"
    | .declaration _ _ _ => "<anonymous declaration schema>"
    | .union _ => ""
    | .transform _ _ _ _ _ => ""

def labels : List Schema → List String
  | [] => []
  | schema :: rest => schema.label :: labels rest

end

/-- What a fault says about the schema. -/
def expected (schema : Schema) : Expected where
  tag := schema.tag
  label := schema.label
  message := fun value => schema.annotations.message?.bind fun say => say value

end Schema

end SchemaCodec
