import SchemaCodec.BuildError
import SchemaCodec.Schema.Standard

/-!
Schemas of arrays. A tuple is built part by part: required elements, then optional elements, then
perhaps one repeated element and required elements after it. The first part that is out of order is
what is wrong with the tuple.
-/

namespace SchemaCodec.Schema

def array (id : NodeId) (item : Schema) : Schema :=
  plain id (.tuple [] [item])

def nonEmptyArray (id : NodeId) (item : Schema) : Schema :=
  plain id (.tuple [⟨item, false⟩] [item])

def tupleOf (id : NodeId) (items : List Schema) : Schema :=
  plain id (.tuple (items.map fun item => ⟨item, false⟩) [])

inductive TuplePart where
  | element (schema : Schema)
  | optional (schema : Schema)
  | rest (schema : Schema)

/-- A tuple that is being built, and what is wrong with the first part that was out of order. -/
structure TupleDraft where
  elements : List (Element Schema)
  rest : List Schema
  problem : Option String

namespace TupleDraft

def empty : TupleDraft := ⟨[], [], none⟩

/-- Note a problem, unless there is one already. -/
def reject (draft : TupleDraft) (reason : String) : TupleDraft :=
  { draft with problem := some (draft.problem.getD reason) }

def endsOptional (draft : TupleDraft) : Bool :=
  draft.elements.getLast?.any fun element => element.optional

/-- Add a part; one that is out of order is noted and left out. -/
def add (draft : TupleDraft) : TuplePart → TupleDraft
  | .element schema =>
    if !draft.rest.isEmpty then { draft with rest := draft.rest ++ [schema] }
    else if draft.endsOptional then
      draft.reject "a required element cannot follow an optional element"
    else { draft with elements := draft.elements ++ [⟨schema, false⟩] }
  | .optional schema =>
    if draft.rest.isEmpty then { draft with elements := draft.elements ++ [⟨schema, true⟩] }
    else draft.reject "an optional element cannot follow a rest element"
  | .rest schema =>
    if draft.rest.isEmpty then { draft with rest := [schema] }
    else draft.reject "a rest element cannot follow another rest element"

def build (draft : TupleDraft) (id : NodeId) : Except BuildError Schema :=
  match draft.problem with
  | some reason => .error (.tuple reason)
  | none => .ok (plain id (.tuple draft.elements draft.rest))

end TupleDraft

def tuple (id : NodeId) (parts : List TuplePart) : Except BuildError Schema :=
  (parts.foldl TupleDraft.add TupleDraft.empty).build id

end SchemaCodec.Schema
