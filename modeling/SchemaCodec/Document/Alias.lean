import SchemaCodec.Document.SchemaNode
import SchemaCodec.Table

/-!
Aliases between definitions. A definition refers to another without a guard if it reaches it through
references, unions and nullables alone; a run that follows such references consumes nothing of its
input, so no definition may come back to itself in this way. The search goes depth first from each
definition in turn, and reports the first cycle it closes.
-/

namespace SchemaCodec

mutual

/-- The names that a node refers to without a guard, in order. -/
def SchemaNode.openReferences : SchemaNode → List String
  | .node (.reference name) _ => [name]
  | .node (.union members) _ => openReferencesAll members
  | .node (.nullable schema) _ => schema.openReferences
  | .node _ _ => []

def openReferencesAll : List SchemaNode → List String
  | [] => []
  | node :: rest => node.openReferences ++ openReferencesAll rest

end

abbrev AliasGraph := List (String × List String)

namespace AliasGraph

def ofDocument (document : SchemaDocument) : AliasGraph :=
  document.definitions.map fun (name, node) => (name, node.openReferences)

def Edge (graph : AliasGraph) (source target : String) : Prop :=
  ∃ targets, Table.find? source graph = some targets ∧ target ∈ targets ∧ Table.has target graph

def closed? (path : List String) (name : String) : Option (List String) :=
  if path.contains name then some (path.dropWhile (· ≠ name) ++ [name]) else none

/-- Visit a name at the end of a path. Gives the names from which no cycle is reached, or a cycle. No
path is longer than the graph, which the fuel counts down. -/
def visit (graph : AliasGraph) : Nat → List String → List String → String →
    Except (List String) (List String)
  | 0, _, done, _ => .ok done
  | fuel + 1, path, done, name =>
    if done.contains name then .ok done
    else match closed? path name with
      | some cycle => .error cycle
      | none =>
        match Table.find? name graph with
        | none => .ok done
        | some targets => do
          let done ← targets.foldlM (fun done target => visit graph fuel (path ++ [name]) done target)
            done
          return name :: done

def visitAll (graph : AliasGraph) : Except (List String) (List String) :=
  (graph.map (·.1)).foldlM (fun done name => visit graph (graph.length + 1) [] done name) []

/-- A cycle of definitions, the first name repeated at its end. -/
def cycle? (graph : AliasGraph) : Option (List String) :=
  match graph.visitAll with
  | .ok _ => none
  | .error cycle => some cycle

end AliasGraph

end SchemaCodec
