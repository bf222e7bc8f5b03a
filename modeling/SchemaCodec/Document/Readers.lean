import SchemaCodec.Document.Compile
import SchemaCodec.Document.Options
import SchemaCodec.Document.Reader

/-!
How texts are read: the value of an input, documents with schemas or options in either language, and
the regular expressions in documents. Loading goes the same way whichever texts the readers take.
-/

namespace SchemaCodec

structure Readers where
  input : String → Option Json
  document : DocumentFormat → String → Option SchemaDocument
  options : DocumentFormat → String → Option Options
  patterns : Patterns

/-- The readers of the program, for the common part of each language. -/
def Readers.usual : Readers where
  input := Json.read?
  document := SchemaDocument.read?
  options := Options.read?
  patterns := .usual

end SchemaCodec
