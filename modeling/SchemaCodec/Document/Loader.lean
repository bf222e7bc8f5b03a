import SchemaCodec.Document.Compile
import SchemaCodec.Document.Files
import SchemaCodec.Document.Readers
import SchemaCodec.Schema.Outline
import SchemaCodec.Session

/-!
Loaders. A loader puts the definitions of documents into one registry of a session and finds documents
by name in its search paths. Each call gives its answer together with the session after it; a document
that cannot be loaded changes nothing. The identity that a call is given is that of the document, whose
nodes are parts of it.
-/

namespace SchemaCodec

structure Loader where
  /-- The scope of the registry that definitions are put into. -/
  scope : Nat
  /-- The directories that are searched for documents, in order. -/
  paths : List String
deriving DecidableEq, Repr

abbrev Loaded (α : Type) := Except BuildError α × Session

def DocumentFormat.name : DocumentFormat → String
  | .json => "JSON"
  | .yaml => "YAML"

def outlinePath (path : String) : String :=
  let quoted (c : Char) : String := if c = '\'' then "\\'" else outlineChar c
  "\"" ++ String.join (path.toList.map quoted) ++ "\""

namespace Loader

def usual (scope : Nat) : Loader := ⟨scope, ["."]⟩

def addPath (loader : Loader) (path : String) : Loader :=
  { loader with paths := loader.paths ++ [path] }

/-- Load a document; the answer is its root. -/
def loadDocument (loader : Loader) (session : Session) (id : NodeId) (document : SchemaDocument)
    (patterns : Patterns := .usual) : Loaded (Option Schema) :=
  match document.load id loader.scope (session.registry loader.scope) patterns with
  | .ok (root, registry) => (.ok root, session.setRegistry loader.scope registry)
  | .error error => (.error error, session)

def loadText (loader : Loader) (session : Session) (id : NodeId) (format : DocumentFormat)
    (text : String) (readers : Readers := .usual) : Loaded (Option Schema) :=
  match readers.document format text with
  | some document => loader.loadDocument session id document readers.patterns
  | none => (.error (.document (format.name ++ " parse error")), session)

def loadFile (loader : Loader) (files : Files) (session : Session) (id : NodeId) (path : String)
    (readers : Readers := .usual) : Loaded (Option Schema) :=
  match files path with
  | .text content => loader.loadText session id (Path.format path) content readers
  | .unreadable => (.error (.file "the file cannot be read"), session)
  | .missing => (.error (.file "there is no such file"), session)

def candidates (loader : Loader) (name : String) : List String :=
  loader.paths.flatMap fun directory =>
    ["yaml", "yml", "json"].map fun extension => Path.join directory (name ++ "." ++ extension)

def find? (loader : Loader) (files : Files) (name : String) : Option String :=
  (loader.candidates name).find? fun path => files path ≠ .missing

/-- Load by name. A registered schema is taken as it is; otherwise the document of the name is loaded,
and its root, or its definition of that name, is registered under the name. -/
def load (loader : Loader) (files : Files) (session : Session) (id : NodeId) (name : String)
    (readers : Readers := .usual) : Loaded Schema :=
  match (session.registry loader.scope).get? name with
  | some schema => (.ok schema, session)
  | none =>
    match loader.find? files name with
    | none =>
      (.error (.notFound ("Schema " ++ name ++ " not found in search paths: "
        ++ outlineList (loader.paths.map outlinePath))), session)
    | some path =>
      match loader.loadFile files session id path readers with
      | (.error error, after) => (.error error, after)
      | (.ok root, after) =>
        let registry := after.registry loader.scope
        match root.orElse fun _ => registry.get? name with
        | none =>
          (.error (.notFound (path ++ " has no root and no definition " ++ name)), after)
        | some schema =>
          (.ok schema, after.setRegistry loader.scope (registry.register name schema))

end Loader

end SchemaCodec
