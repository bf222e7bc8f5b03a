import SchemaCodec.BuildError
import SchemaCodec.Number.Text
import SchemaCodec.Regex.Reader
import SchemaCodec.Schema.Standard
import SchemaCodec.Text.Search
import SchemaCodec.Text.Units

/-!
Refinements: schemas narrowed by a check. The usual checks describe themselves, and the description
is what messages show.
-/

namespace SchemaCodec.Schema

def refine (id : NodeId) (source : Schema) (filter : Filter) : Schema :=
  plain id (.refinement source filter)

def propertyFilter (property : Value → Bool) : Filter := fun _ expected value =>
  if property value then none else some (.mismatch expected value)

def satisfying (id : NodeId) (source : Schema) (property : Value → Bool) : Schema :=
  refine id source (propertyFilter property)

def described (id : NodeId) (source : Schema) (description : String) (property : Value → Bool) :
    Schema :=
  (satisfying id source property).withDescription id description

def stringCheck (id : NodeId) (source : Schema) (description : String) (property : String → Bool) :
    Schema :=
  described id source description fun value => value.string?.any property

def numberCheck (id : NodeId) (source : Schema) (description : String) (property : Float → Bool) :
    Schema :=
  described id source description fun value => value.number?.any property

def arrayCheck (id : NodeId) (source : Schema) (description : String) (property : Nat → Bool) :
    Schema :=
  described id source description fun value => value.array?.any fun items => property items.length

def countText (n : Nat) : String :=
  Number.integerText n

def minLength (id : NodeId) (source : Schema) (least : Nat) : Schema :=
  stringCheck id source ("a string at least " ++ countText least ++ " character(s) long")
    fun text => least ≤ Text.units text

def maxLength (id : NodeId) (source : Schema) (most : Nat) : Schema :=
  stringCheck id source ("a string at most " ++ countText most ++ " character(s) long")
    fun text => Text.units text ≤ most

def length (id : NodeId) (source : Schema) (exactly : Nat) : Schema :=
  let description :=
    if exactly = 1 then "a character"
    else "a string " ++ countText exactly ++ " character(s) long"
  stringCheck id source description fun text => Text.units text == exactly

/-- Texts in which a regular expression is found, given how expressions are read: none if a text is no
expression, and else the texts in which it is found. -/
def patternBy (read : String → Option (String → Bool)) (id : NodeId) (source : Schema)
    (text : String) : Except BuildError Schema :=
  match read text with
  | some isFound =>
    .ok (stringCheck id source ("a string matching the pattern " ++ text) isFound)
  | none => .error (.pattern text)

def pattern : NodeId → Schema → String → Except BuildError Schema :=
  patternBy fun text => (Regex.read? text).map Regex.isFoundIn

def startsWith (id : NodeId) (source : Schema) (start : String) : Schema :=
  stringCheck id source ("a string starting with " ++ Json.quote start)
    fun text => Text.startsWith text start

def endsWith (id : NodeId) (source : Schema) (ending : String) : Schema :=
  stringCheck id source ("a string ending with " ++ Json.quote ending)
    fun text => Text.endsWith text ending

def includes (id : NodeId) (source : Schema) (needle : String) : Schema :=
  stringCheck id source ("a string including " ++ Json.quote needle)
    fun text => Text.contains text needle

def trimmed (id : NodeId) (source : Schema) : Schema :=
  stringCheck id source "a string with no leading or trailing whitespace"
    fun text => Text.trim text == text

def greaterThan (id : NodeId) (source : Schema) (least : Float) : Schema :=
  numberCheck id source ("a number greater than " ++ Number.text least) fun n => least < n

def atLeast (id : NodeId) (source : Schema) (least : Float) : Schema :=
  numberCheck id source ("a number greater than or equal to " ++ Number.text least)
    fun n => least ≤ n

def lessThan (id : NodeId) (source : Schema) (most : Float) : Schema :=
  numberCheck id source ("a number less than " ++ Number.text most) fun n => n < most

def atMost (id : NodeId) (source : Schema) (most : Float) : Schema :=
  numberCheck id source ("a number less than or equal to " ++ Number.text most) fun n => n ≤ most

def int (id : NodeId) (source : Schema) : Schema :=
  numberCheck id source "an integer" Number.isWhole

def finite (id : NodeId) (source : Schema) : Schema :=
  numberCheck id source "a finite number" fun n => (Number.parts? n).isSome

def nonNaN (id : NodeId) (source : Schema) : Schema :=
  numberCheck id source "a number NaN excluded" fun n => !n.isNaN

def minItems (id : NodeId) (source : Schema) (least : Nat) : Schema :=
  arrayCheck id source ("an array of at least " ++ countText least ++ " items")
    fun count => least ≤ count

def maxItems (id : NodeId) (source : Schema) (most : Nat) : Schema :=
  arrayCheck id source ("an array of at most " ++ countText most ++ " items")
    fun count => count ≤ most

/-- The schema with one more brand. A brand is an annotation and no check. -/
def brand (id : NodeId) (schema : Schema) (name : String) : Schema :=
  schema.annotate id .brand (.values ((schema.annotations.brands ++ [name]).map Value.string))

end SchemaCodec.Schema
