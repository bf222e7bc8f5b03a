import SchemaCodec.Fault
import SchemaCodec.Value.Json

/-!
Faults as a drawn tree. A place whose only fault is another place is drawn on one line with it; the
members of a union always get lines of their own.
-/

namespace SchemaCodec

inductive Tree where
  | node (label : String) (children : List Tree)

namespace Tree

def label : Tree → String
  | .node label _ => label

def children : Tree → List Tree
  | .node _ children => children

def leaf (label : String) : Tree := .node label []

mutual

def drawAt (indentation : String) : Tree → String
  | .node label children => label ++ drawForest indentation children

/-- Each tree on lines of its own; a line goes down past all but the last. -/
def drawForest (indentation : String) : List Tree → String
  | [] => ""
  | [last] => indentation ++ "└─ " ++ last.drawAt (indentation ++ "   ")
  | tree :: next :: rest =>
    indentation ++ "├─ " ++ tree.drawAt (indentation ++ "│  ")
      ++ drawForest indentation (next :: rest)

end

def draw (tree : Tree) : String :=
  tree.drawAt "\n"

end Tree

/-- What is said about a value that does not meet a schema: the schema's own message, else the
message of the check, else what was expected and what was there. -/
def Expected.describe (expected : Expected) (actual : Value) (message : Option String) : String :=
  ((expected.message actual).orElse fun _ => message).getD
    ("Expected " ++ expected.label ++ ", actual " ++ actual.shown)

def bracketIndex (position : Nat) : String :=
  "[" ++ Number.integerText position ++ "]"

def bracketKey (key : PropertyKey) : String :=
  "[" ++ key.toValue.shown ++ "]"

def placeTree (label : String) : Faults → List Tree → Tree
  | .single (.unionMember _), forest => .node label forest
  | .single _, [.node inner (child :: rest)] => .node (label ++ inner) (child :: rest)
  | _, forest => .node label forest

mutual

def Fault.tree : Fault → Tree
  | .type expected actual message => .leaf (expected.describe actual message)
  | .forbidden => .leaf "is forbidden"
  | .missing => .leaf "is missing"
  | .unexpected _ => .leaf "is unexpected"
  | .index position faults => placeTree (bracketIndex position) faults faults.forest
  | .key key faults => placeTree (bracketKey key) faults faults.forest
  | .unionMember faults => .node "union member" faults.forest

def Faults.forest : Faults → List Tree
  | .single fault => [fault.tree]
  | .cons fault rest => fault.tree :: rest.forest

end

def Faults.tree (faults : Faults) : Tree :=
  .node "error(s) found" faults.forest

def Faults.drawing (faults : Faults) : String :=
  faults.tree.draw

end SchemaCodec
