import SchemaCodec.Symbol

/-!
The keys of object members: texts and symbols.
-/

namespace SchemaCodec

inductive PropertyKey where
  | string (text : String)
  | symbol (symbol : Symbol)
deriving DecidableEq, Repr

namespace PropertyKey

def string? : PropertyKey → Option String
  | .string text => some text
  | .symbol _ => none

def isSymbol : PropertyKey → Bool
  | .string _ => false
  | .symbol _ => true

/-- The key as it is shown in a path. -/
def text : PropertyKey → String
  | .string text => text
  | .symbol s => s.text

end PropertyKey

end SchemaCodec
