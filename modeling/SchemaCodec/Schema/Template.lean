import SchemaCodec.Regex.Match

/-!
Template texts: a fixed text in front, then places for any text or for a number, each followed by a
fixed text. A template accepts a text that is made in this way.
-/

namespace SchemaCodec

/-- What may stand at a place of a template: any text on one line, or a number. -/
inductive TemplateSlot where
  | string
  | number
deriving DecidableEq, Repr

structure TemplateSpan where
  slot : TemplateSlot
  literal : String
deriving DecidableEq, Repr

structure Template where
  head : String
  spans : List TemplateSpan
deriving DecidableEq, Repr

namespace TemplateSlot

def digits : Regex := .plus (.charClass .decimalDigit)

def sign : Regex := .optional (.charClass (.union (.single '+') (.single '-')))

/-- A sign, digits with an optional point before the last run, and an optional power of ten. -/
def numberRegex : Regex :=
  .sequence sign <|
  .sequence (.star (.charClass .decimalDigit)) <|
  .sequence (.optional (.charClass (.single '.'))) <|
  .sequence digits <|
  .optional <|
  .sequence (.charClass (.union (.single 'E') (.single 'e'))) <|
  .sequence sign digits

def regex : TemplateSlot → Regex
  | .string => .star (.charClass .notNewline)
  | .number => numberRegex

def label : TemplateSlot → String
  | .string => "$\x7bstring\x7d"
  | .number => "$\x7bnumber\x7d"

end TemplateSlot

namespace Template

def spansRegex : List TemplateSpan → Regex
  | [] => .assertion .finish
  | span :: rest =>
    .sequence span.slot.regex (.sequence (.ofChars span.literal.toList) (spansRegex rest))

def regex (template : Template) : Regex :=
  .sequence (.assertion .start)
    (.sequence (.ofChars template.head.toList) (spansRegex template.spans))

def accepts (template : Template) (text : String) : Bool :=
  template.regex.isFoundIn text

def label (template : Template) : String :=
  template.spans.foldl (fun sofar span => sofar ++ span.slot.label ++ span.literal) template.head

end Template

end SchemaCodec
