import SchemaCodec.Document.Path
import SchemaCodec.Table

/-!
Files as a reader sees them: missing, unreadable, or a text. A file tree holds the texts of files under
one directory; what holds other files is a directory and cannot be read.
-/

namespace SchemaCodec

inductive FileState where
  | missing
  | unreadable
  | text (content : String)
deriving DecidableEq, Repr

abbrev Files := String → FileState

structure FileTree where
  files : List (List String × String)

namespace FileTree

def ofFiles (files : List (String × String)) : FileTree :=
  ⟨Table.ofEntries (files.map fun (path, content) => (Path.parts path, content))⟩

/-- Files lie below the place. -/
def isDirectory (tree : FileTree) (place : List String) : Bool :=
  place.isEmpty || tree.files.any fun (path, _) => place.isPrefixOf path && place ≠ path

/-- Go along a path from a place; what is gone through must be a directory, and the way never leads out
of the tree. -/
def walk? (tree : FileTree) (place : List String) : List String → Option (List String)
  | [] => some place
  | step :: rest =>
    if !tree.isDirectory place then none
    else if step = "" || step = "." then tree.walk? place rest
    else if step = ".." then
      if place.isEmpty then none else tree.walk? place.dropLast rest
    else tree.walk? (place ++ [step]) rest

def look (tree : FileTree) : Files := fun path =>
  if path = "" || Text.startsWith path "/" then .missing
  else match tree.walk? [] (Text.split path "/") with
    | none => .missing
    | some place =>
      match Table.find? place tree.files with
      | some content => .text content
      | none => if tree.isDirectory place then .unreadable else .missing

end FileTree

end SchemaCodec
