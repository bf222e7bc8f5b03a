/-!
Why a schema cannot be built or found.
-/

namespace SchemaCodec

inductive BuildError where
  | repeatedField (name : String)
  /-- The parameter of an index signature cannot tell keys; the tag is the parameter's. -/
  | indexParameter (tag : String)
  | tuple (reason : String)
  | template (reason : String)
  /-- The operation has no meaning for the schemas. -/
  | unsupported (operation : String)
  | notFound (reason : String)
  /-- A document does not describe schemas. -/
  | document (reason : String)
  /-- A file cannot be read. -/
  | file (reason : String)
  | pattern (text : String)
deriving DecidableEq, Repr

def BuildError.message : BuildError → String
  | .repeatedField name => "Duplicate property signature: " ++ name
  | .indexParameter tag => "Invalid index signature parameter: " ++ tag
  | .tuple reason => "Invalid tuple: " ++ reason
  | .template reason => "Invalid template literal: " ++ reason
  | .unsupported operation => "Unsupported schema: " ++ operation
  | .notFound reason => "Schema not found: " ++ reason
  | .document reason => "Invalid schema format: " ++ reason
  | .file reason => "IO error: " ++ reason
  | .pattern text => "Invalid pattern: " ++ text

end SchemaCodec
