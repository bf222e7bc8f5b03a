import SchemaCodec.BuildError
import SchemaCodec.Schema.Choice

/-!
Schemas of objects: structs and records, and the structs made from others by picking, leaving out,
weakening and extending. No struct has two fields of one name.
-/

namespace SchemaCodec.Schema

def firstRepeated? (seen : List PropertyKey) : List PropertyKey → Option PropertyKey
  | [] => none
  | key :: rest => if seen.contains key then some key else firstRepeated? (key :: seen) rest

def checkedStruct (id : NodeId) (fields : List (Field Schema))
    (indexes : List (IndexSignature Schema)) : Except BuildError Schema :=
  match firstRepeated? [] (fields.map Field.name) with
  | some key => .error (.repeatedField key.text)
  | none => .ok (plain id (.struct fields indexes))

def indexSignature (parameter schema : Schema) : Except BuildError (IndexSignature Schema) :=
  if parameter.isParameter then .ok ⟨parameter, schema⟩ else .error (.indexParameter parameter.tag)

def struct (id : NodeId) (fields : List (Field Schema)) (indexes : List (Schema × Schema)) :
    Except BuildError Schema := do
  let indexes ← indexes.mapM fun (parameter, schema) => indexSignature parameter schema
  checkedStruct id fields indexes

def structOf (id : NodeId) (fields : List (PropertyKey × Schema)) : Except BuildError Schema :=
  struct id (fields.map fun (name, schema) => ⟨name, schema, false⟩) []

/-- What a key schema contributes to a record: a field for a single key, or an index signature. -/
def recordPart (value key : Schema) :
    Except BuildError (Field Schema ⊕ (Schema × Schema)) :=
  match key.kind with
  | .literal (.string text) => .ok (.inl ⟨.string text, value, false⟩)
  | .literal (.number n) => .ok (.inl ⟨.string (Literal.number n).text, value, false⟩)
  | .uniqueSymbol symbol => .ok (.inl ⟨.symbol symbol, value, false⟩)
  | _ => if key.isParameter then .ok (.inr (key, value)) else .error (.indexParameter key.tag)

/-- Objects whose keys meet one schema, or a member of it if it is a union, and whose values meet
another. -/
def record (id : NodeId) (key value : Schema) : Except BuildError Schema := do
  let parts ← (Template.alternatives key).mapM (recordPart value)
  struct id
    (parts.filterMap fun part => match part with | .inl field => some field | .inr _ => none)
    (parts.filterMap fun part => match part with | .inr index => some index | .inl _ => none)

def structParts (operation : String) (schema : Schema) :
    Except BuildError (List (Field Schema) × List (IndexSignature Schema)) :=
  match schema.kind with
  | .struct fields indexes => .ok (fields, indexes)
  | _ => .error (.unsupported (operation ++ " of " ++ schema.tag))

def field? (fields : List (Field Schema)) (key : PropertyKey) : Option (Field Schema) :=
  fields.find? fun field => field.name = key

def pick (id : NodeId) (schema : Schema) (keys : List PropertyKey) : Except BuildError Schema := do
  let (fields, _) ← structParts "pick" schema
  checkedStruct id (keys.filterMap (field? fields)) []

def leaveOut (id : NodeId) (schema : Schema) (keys : List PropertyKey) : Except BuildError Schema := do
  let (fields, indexes) ← structParts "omit" schema
  checkedStruct id (fields.filter fun field => !keys.contains field.name) indexes

def weakIndexes (id : NodeId) (first : Nat) :
    List (IndexSignature Schema) → List (IndexSignature Schema)
  | [] => []
  | index :: rest =>
    ⟨index.parameter, union (.part id first) [index.schema, undefined]⟩
      :: weakIndexes id (first + 1) rest

/-- What may repeat at the end of a weakened tuple: anything that could stand there, or undefined. -/
def weakRest (id : NodeId) (rest : List Schema) : List Schema :=
  if rest.isEmpty then [] else [union (.part id 0) (rest ++ [undefined])]

mutual

/-- All fields and elements optional, in each member of a union. -/
def partialOf (id : NodeId) : Schema → Except BuildError Schema
  | .node _ _ (.struct fields indexes) =>
    checkedStruct id (fields.map fun field => { field with optional := true })
      (weakIndexes id 0 indexes)
  | .node _ _ (.tuple elements rest) =>
    .ok (plain id (.tuple (elements.map fun element => { element with optional := true })
      (weakRest id rest)))
  | .node _ _ (.union members) => (partialOfAll id 0 members).map (union id)
  | schema => .error (.unsupported ("partial of " ++ schema.tag))

def partialOfAll (id : NodeId) (first : Nat) : List Schema → Except BuildError (List Schema)
  | [] => .ok []
  | schema :: rest => do
    let weak ← schema.partialOf (.part id first)
    let others ← partialOfAll id (first + 1) rest
    return weak :: others

end

mutual

/-- The schema with the fields and index signatures of a struct added: in a struct, on both sides of
a transformation, and in each member of a union. -/
def extendByStruct (id : NodeId) (fields : List (Field Schema))
    (indexes : List (IndexSignature Schema)) : Schema → Except BuildError Schema
  | .node _ _ (.struct ownFields ownIndexes) =>
    checkedStruct id (ownFields ++ fields) (ownIndexes ++ indexes)
  | .node _ _ (.transform source target decode encode strict) => do
    let source ← source.extendByStruct (.part id 0) fields indexes
    let target ← target.extendByStruct (.part id 1) fields indexes
    return plain id (.transform source target decode encode strict)
  | .node _ _ (.union members) =>
    (extendAllByStruct id fields indexes 0 members).map (union id)
  | schema => .error (.unsupported ("extend of " ++ schema.tag ++ " with TypeLiteral"))

def extendAllByStruct (id : NodeId) (fields : List (Field Schema))
    (indexes : List (IndexSignature Schema)) (first : Nat) :
    List Schema → Except BuildError (List Schema)
  | [] => .ok []
  | schema :: rest => do
    let extended ← schema.extendByStruct (.part id first) fields indexes
    let others ← extendAllByStruct id fields indexes (first + 1) rest
    return extended :: others

end

mutual

def extendBy (id : NodeId) (left : Schema) : Schema → Except BuildError Schema
  | .node _ _ (.struct fields indexes) => left.extendByStruct id fields indexes
  | .node _ _ (.union members) => (extendByAll id left 0 members).map (union id)
  | right => .error (.unsupported ("extend of " ++ left.tag ++ " with " ++ right.tag))

def extendByAll (id : NodeId) (left : Schema) (first : Nat) :
    List Schema → Except BuildError (List Schema)
  | [] => .ok []
  | right :: rest => do
    let extended ← extendBy (.part id first) left right
    let others ← extendByAll id left (first + 1) rest
    return extended :: others

end

mutual

def extendEach (id : NodeId) (right : Schema) : Schema → Except BuildError Schema
  | .node _ _ (.union members) => (extendEachOf id right 0 members).map (union id)
  | left => extendBy id left right

def extendEachOf (id : NodeId) (right : Schema) (first : Nat) :
    List Schema → Except BuildError (List Schema)
  | [] => .ok []
  | left :: rest => do
    let extended ← extendEach (.part id first) right left
    let others ← extendEachOf id right (first + 1) rest
    return extended :: others

end

/-- The schema that asks for what both schemas ask for. Unions extend member by member. -/
def extend (id : NodeId) (left right : Schema) : Except BuildError Schema :=
  extendEach id right left

end SchemaCodec.Schema
