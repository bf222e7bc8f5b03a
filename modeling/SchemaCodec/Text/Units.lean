/-!
The length of text in 16-bit units: characters beyond the first plane count twice.
-/

namespace SchemaCodec.Text

/-- Units of one character. -/
def unitsOf (c : Char) : Nat :=
  if c.toNat < 0x10000 then 1 else 2

def unitsOfAll : List Char → Nat
  | [] => 0
  | c :: rest => unitsOf c + unitsOfAll rest

/-- The length of a text in 16-bit units. -/
def units (text : String) : Nat :=
  unitsOfAll text.toList

end SchemaCodec.Text
