import SchemaCodec.Document.Data
import SchemaCodec.Json.Reader

/-!
Members of documents by name. A name that is looked for may occur at most once; members under other
names are passed over. At the levels that a document fixes by itself any YAML scalar is a name, and an
empty one stands for an empty mapping.
-/

namespace SchemaCodec

/-- The member of a name, if it is there; none if the name occurs more than once. -/
def uniqueMember? {α : Type} (name : String) (members : List (String × α)) : Option (Option α) :=
  match members.filter fun entry => entry.1 = name with
  | [] => some none
  | [entry] => some (some entry.2)
  | _ => none

def Yaml.Node.word? : Yaml.Node → Option String
  | .scalar text _ => some text
  | _ => none

def Yaml.Node.members? : Yaml.Node → Option (List (String × Yaml.Node))
  | .mapping entries => entries.mapM fun (key, value) => key.word?.map fun name => (name, value)
  | .scalar text plain => if plain && text.isEmpty then some [] else none
  | .sequence _ => none

def Json.members? : Json → Option (List (String × Json))
  | .object members => some members
  | _ => none

/-- The values of a list as members under the given names, in order; there may be fewer values. -/
def positional? {α : Type} : List String → List α → Option (List (String × α))
  | _, [] => some []
  | [], _ :: _ => none
  | name :: names, value :: values =>
    (positional? names values).map fun members => (name, value) :: members

def Json.record? (names : List String) : Json → Option (List (String × Json))
  | .array values => positional? names values
  | json => json.members?

def Yaml.Node.record? (names : List String) : Yaml.Node → Option (List (String × Yaml.Node))
  | .sequence values => positional? names values
  | node => node.members?

end SchemaCodec
