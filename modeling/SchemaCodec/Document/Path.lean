import SchemaCodec.Document.Data
import SchemaCodec.Text.Search

/-!
Paths of documents. The extension of a path tells the language of the document: YAML for two
extensions, and JSON for all others.
-/

namespace SchemaCodec.Path

/-- The parts of a path between slashes, without those that stand for the same place. -/
def parts (path : String) : List String :=
  (Text.split path "/").filter fun part => part ≠ "" && part ≠ "."

def fileName? (path : String) : Option String :=
  match (parts path).getLast? with
  | some name => if name = ".." then none else some name
  | none => none

/-- What follows the last dot of the name, if anything precedes that dot. -/
def extension? (path : String) : Option String :=
  (fileName? path).bind fun name =>
    match (Text.split name ".").reverse with
    | last :: before => if before.all (· = "") && before.length ≤ 1 then none else some last
    | [] => none

def format (path : String) : DocumentFormat :=
  match extension? path with
  | some "yaml" => .yaml
  | some "yml" => .yaml
  | _ => .json

/-- A path inside a directory; an absolute path stays as it is. -/
def join (directory name : String) : String :=
  if Text.startsWith name "/" || directory = "" then name
  else if Text.endsWith directory "/" then directory ++ name
  else directory ++ "/" ++ name

end SchemaCodec.Path
