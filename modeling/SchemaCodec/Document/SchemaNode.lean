import SchemaCodec.Document.Data

/-!
Schema documents: named definitions and perhaps a root. Each is a tree of nodes; a node has a shape,
and notes with the checks and annotations that every shape may carry.
-/

namespace SchemaCodec

inductive WordShape where
  | string
  | number
  | boolean
  | bigint
  | symbol
  | undefined
  | void
  | null
  | unknown
  | any
  | never
  | object
  | date
  | numberFromString
  | bigintFromString
  | dateFromString
  | trim
deriving DecidableEq, Repr

inductive Shape (ν : Type) where
  | word (word : WordShape)
  | literal (value : Json)
  | literals (values : List Json)
  | enums (members : List (String × Json))
  | array (item : ν)
  /-- Elements after the repeated one are only allowed behind a repeated one. -/
  | tuple (elements : List ν) (rest : Option ν) (restElements : List ν)
  | struct (properties : List (String × ν)) (indexes : List (ν × ν))
  | record (key value : ν)
  | union (members : List ν)
  | nullable (schema : ν)
  | reference (name : String)
  | template (parts : List ν)

structure NodeNotes where
  identifier : Option String := none
  title : Option String := none
  description : Option String := none
  /-- What is said about a value that does not meet the node. -/
  message : Option String := none
  /-- The node may be absent; looked at in properties and elements only. -/
  optional : Bool := false
  minLength : Option Nat := none
  maxLength : Option Nat := none
  length : Option Nat := none
  pattern : Option String := none
  minimum : Option Float := none
  maximum : Option Float := none
  int : Bool := false
  minItems : Option Nat := none
  maxItems : Option Nat := none
  brand : Option String := none

inductive SchemaNode where
  | node (shape : Shape SchemaNode) (notes : NodeNotes)

namespace SchemaNode

def shape : SchemaNode → Shape SchemaNode
  | .node shape _ => shape

def notes : SchemaNode → NodeNotes
  | .node _ notes => notes

end SchemaNode

/-- A document. Definitions have distinct names. -/
structure SchemaDocument where
  definitions : List (String × SchemaNode)
  root : Option SchemaNode

namespace SchemaDocument

def names (document : SchemaDocument) : List String :=
  document.definitions.map (·.1)

end SchemaDocument

end SchemaCodec
