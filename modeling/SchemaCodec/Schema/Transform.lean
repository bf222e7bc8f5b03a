import SchemaCodec.Number.Decimal
import SchemaCodec.Schema.Record
import SchemaCodec.Schema.Refine
import SchemaCodec.Schema.Sequence
import SchemaCodec.Schema.Side

/-!
Transformations between a source and a target, and the usual ones: numbers, whole numbers and dates
written as texts, texts without blanks at the ends, texts split at a separator, and structs with a
field that is not in the input.
-/

namespace SchemaCodec

namespace Transformer

def fallible (apply : Options → Expected → Value → Outcome) : Transformer := ⟨false, apply⟩

def suspending (apply : Options → Expected → Value → Outcome) : Transformer := ⟨true, apply⟩

def total (apply : Value → Value) : Transformer := fallible fun _ _ value => .ok (apply value)

def identity : Transformer := total fun value => value

/-- A function on some values; the others do not meet the transformation. -/
def partialOn (apply : Value → Option Value) : Transformer := fallible fun _ expected value =>
  match apply value with
  | some result => .ok result
  | none => Outcome.fail (.mismatch expected value)

end Transformer

namespace Schema

def transform (id : NodeId) (source target : Schema) (decode encode : Transformer) : Schema :=
  plain id (.transform source target decode encode true)

/-- A copy of a transformation that does not check its results. -/
def nonStrict (id : NodeId) (schema : Schema) : Schema :=
  match schema.kind with
  | .transform source target decode encode _ =>
    .node id schema.annotations (.transform source target decode encode false)
  | _ => schema

def compose (id : NodeId) (first second : Schema) : Schema :=
  transform id first second .identity .identity

/-- The number that a text writes: one of three words, or a decimal between blanks. -/
def readNumber? (text : String) : Option Float :=
  match text with
  | "NaN" => some Number.undefined
  | "Infinity" => some Number.infinity
  | "-Infinity" => some (-Number.infinity)
  | _ => (Number.readDecimal? (Text.trimChars text.toList)).map Number.Decimal.toFloat

def numberOfText? : Value → Option Value
  | .string text => (readNumber? text).map .number
  | _ => none

def textOfNumber? : Value → Option Value
  | .number n => some (.string (Number.text n))
  | _ => none

def numberFromString (id : NodeId) (source : Schema) : Schema :=
  transform id source number (.partialOn numberOfText?) (.partialOn textOfNumber?)

def bigintOfText? : Value → Option Value
  | .string text => (Number.readInteger? (Text.trimChars text.toList)).map .bigint
  | _ => none

def textOfBigint? : Value → Option Value
  | .bigint i => some (.string (Number.integerText i))
  | _ => none

def bigintFromString (id : NodeId) (source : Schema) : Schema :=
  transform id source bigint (.partialOn bigintOfText?) (.partialOn textOfBigint?)

def dateOfText? : Value → Option Value
  | .string text => (Instant.read? text.toList).map .date
  | _ => none

def textOfDate? : Value → Option Value
  | .date instant => some (.string instant.text)
  | _ => none

def dateFromString (id : NodeId) (source : Schema) : Schema :=
  transform id source date (.partialOn dateOfText?) (.partialOn textOfDate?)

def trimValue : Value → Value
  | .string text => .string (Text.trim text)
  | value => value

def trim (id : NodeId) (source : Schema) : Schema :=
  transform id source (trimmed (.part id 0) string) (.total trimValue) .identity

def splitValue (separator : String) : Value → Value
  | .string text => .array ((Text.split text separator).map .string)
  | value => value

def joinValue (separator : String) : Value → Value
  | .array items => .string (String.intercalate separator (items.map Value.display))
  | value => value

def split (id : NodeId) (source : Schema) (separator : String) : Schema :=
  transform id source (array (.part id 0) string) (.total (splitValue separator))
    (.total (joinValue separator))

def attachValue? (key : PropertyKey) (literal : Literal) : Value → Option Value
  | .object members => some (.object (Table.insert key literal.toValue members))
  | _ => none

def detachValue? (key : PropertyKey) : Value → Option Value
  | .object members => some (.object (Table.remove key members))
  | _ => none

/-- Give decoded objects one more field, which is always the same literal. -/
def attach (id : NodeId) (schema : Schema) (key : PropertyKey) (value : Literal) :
    Except BuildError Schema := do
  let field ← structOf (.part id 0) [(key, literal (.part id 1) value)]
  let target ← extend (.part id 2) schema.outputSide field
  return transform id schema target (.partialOn (attachValue? key value))
    (.partialOn (detachValue? key))

end Schema

end SchemaCodec
