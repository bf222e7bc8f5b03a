import SchemaCodec.Table
import SchemaCodec.Value.Basic

/-!
Annotations of schemas. Runs and reports look at the identifier, the title, the description and the
message; all others are carried along.
-/

namespace SchemaCodec

inductive AnnotationId where
  | identifier
  | title
  | description
  | message
  | documentation
  | examples
  | brand
  | arbitraryHook
  | prettyHook
  | custom (symbol : Symbol)
deriving DecidableEq, Repr

inductive Annotation where
  | text (text : String)
  /-- A message for a value that does not meet the schema, if it has one to say. -/
  | message (say : Value → Option String)
  | values (values : List Value)
  /-- Data of a hook, known by its number. -/
  | payload (number : Nat)

structure Annotations where
  entries : List (AnnotationId × Annotation)

namespace Annotations

def empty : Annotations := ⟨[]⟩

def insert (annotations : Annotations) (id : AnnotationId) (note : Annotation) :
    Annotations :=
  ⟨Table.insert id note annotations.entries⟩

def get? (annotations : Annotations) (id : AnnotationId) : Option Annotation :=
  Table.find? id annotations.entries

def merge (annotations top : Annotations) : Annotations :=
  ⟨Table.insertAll annotations.entries top.entries⟩

def isEmpty (annotations : Annotations) : Bool :=
  annotations.entries.isEmpty

def text? (annotations : Annotations) (id : AnnotationId) : Option String :=
  match annotations.get? id with
  | some (.text text) => some text
  | _ => none

def identifier? (annotations : Annotations) : Option String :=
  annotations.text? .identifier

def title? (annotations : Annotations) : Option String :=
  annotations.text? .title

def description? (annotations : Annotations) : Option String :=
  annotations.text? .description

def documentation? (annotations : Annotations) : Option String :=
  annotations.text? .documentation

def message? (annotations : Annotations) : Option (Value → Option String) :=
  match annotations.get? .message with
  | some (.message say) => some say
  | _ => none

/-- The brands: the texts among the values of the brand annotation. -/
def brands (annotations : Annotations) : List String :=
  match annotations.get? .brand with
  | some (.values values) => values.filterMap Value.string?
  | _ => []

/-- The name of the schema in messages: identifier, else title, else description. -/
def label? (annotations : Annotations) : Option String :=
  (annotations.identifier?.orElse fun _ => annotations.title?).orElse fun _ =>
    annotations.description?

end Annotations

end SchemaCodec
