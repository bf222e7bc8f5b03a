import SchemaCodec.Schema.Side

/-!
The tags of union members. A member is tagged by its required fields that hold a single literal; the
index groups the members by field and by the text of the literal, so that a run tries only those
whose tag the input has. Each member is listed once: under the first of its tags whose text no
earlier member took, or else under its last tag, or among the untagged members if it has no tag.
-/

namespace SchemaCodec

/-- The side of a schema that a run in the given direction starts from. -/
def Direction.startSide : Direction → Side
  | .decode => .input
  | .encode => .output

structure Tag where
  key : PropertyKey
  schema : Schema
  literal : Literal

/-- The tag of a field, seen from the side where the run starts. -/
def Field.tag? (direction : Direction) (field : Field Schema) : Option Tag :=
  if field.optional then none
  else
    let schema := field.schema.sideOf direction.startSide
    match schema.kind with
    | .literal literal => some ⟨field.name, schema, literal⟩
    | _ => none

namespace Schema

/-- The tags of a struct, or of the struct that a refinement or a transformation starts from. -/
def tags (direction : Direction) : Schema → List Tag
  | .node _ _ (.struct fields _) => fields.filterMap (Field.tag? direction)
  | .node _ _ (.refinement source _) => source.tags direction
  | .node _ _ (.transform source target _ _ _) =>
    match direction with
    | .decode => source.tags direction
    | .encode => target.tags direction
  | _ => []

end Schema

/-- The members listed under one field: by the text of the literal, with the literals' schemas. -/
structure TagGroup where
  buckets : List (String × List Nat)
  literals : List Schema

namespace TagGroup

def empty : TagGroup := ⟨[], []⟩

def takes (group : TagGroup) (text : String) : Bool :=
  Table.has text group.buckets

def add (group : TagGroup) (member : Nat) (tag : Tag) : TagGroup :=
  let text := tag.literal.text
  { buckets := Table.insert text ((Table.find? text group.buckets).getD [] ++ [member]) group.buckets
    literals := group.literals ++ [tag.schema] }

def union (group : TagGroup) : Schema :=
  Schema.union (.standard 0) group.literals

end TagGroup

structure TagIndex where
  groups : List (PropertyKey × TagGroup)
  untagged : List Nat

namespace TagIndex

def empty : TagIndex := ⟨[], []⟩

def isEmpty (index : TagIndex) : Bool :=
  index.groups.isEmpty

def group (index : TagIndex) (key : PropertyKey) : TagGroup :=
  (Table.find? key index.groups).getD .empty

/-- The tag that a member is listed under. -/
def choose? (index : TagIndex) : List Tag → Option Tag
  | [] => none
  | [last] => some last
  | tag :: next :: rest =>
    if (index.group tag.key).takes tag.literal.text then index.choose? (next :: rest) else some tag

def add (index : TagIndex) (member : Nat) (tags : List Tag) : TagIndex :=
  match index.choose? tags with
  | none => { index with untagged := index.untagged ++ [member] }
  | some tag =>
    { index with
      groups := Table.insert tag.key ((index.group tag.key).add member tag) index.groups }

def addAll (direction : Direction) (index : TagIndex) (next : Nat) : List Schema → TagIndex
  | [] => index
  | schema :: rest => addAll direction (index.add next (schema.tags direction)) (next + 1) rest

def ofMembers (direction : Direction) (members : List Schema) : TagIndex :=
  addAll direction .empty 0 members

end TagIndex

end SchemaCodec
