import SchemaCodec.Schema.Basic

/-!
Unions. The members of a plain union inside a union count as members of the outer one, the schema
that accepts nothing is left out, and a schema that occurs twice counts once.
-/

namespace SchemaCodec.Schema

mutual

/-- The members that a schema contributes to a union. -/
def flattened : Schema → List Schema
  | .node id annotations (.union members) =>
    if annotations.isEmpty then flattenedAll members else [.node id annotations (.union members)]
  | schema => [schema]

def flattenedAll : List Schema → List Schema
  | [] => []
  | schema :: rest => schema.flattened ++ flattenedAll rest

end

def isNever (schema : Schema) : Bool :=
  match schema.kind with
  | .keyword .never => true
  | _ => false

/-- Keep the first of the nodes with one identity. -/
def distinct (known : List NodeId) : List Schema → List Schema
  | [] => []
  | schema :: rest =>
    if known.contains schema.id then distinct known rest
    else schema :: distinct (schema.id :: known) rest

def unionMembers (schemas : List Schema) : List Schema :=
  distinct [] ((flattenedAll schemas).filter fun schema => !schema.isNever)

/-- The union of schemas; of no schemas it accepts nothing, and of one it is that schema itself. -/
def union (id : NodeId) (schemas : List Schema) : Schema :=
  match unionMembers schemas with
  | [] => plain id (.keyword .never)
  | [single] => single
  | members => plain id (.union members)

end SchemaCodec.Schema
