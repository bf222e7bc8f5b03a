/-!
White space of every script, and text without it at the ends.
-/

namespace SchemaCodec.Text

/-- The characters with the Unicode property White_Space. -/
def isBlank (c : Char) : Bool :=
  let n := c.toNat
  (9 ≤ n && n ≤ 13) || n = 0x20 || n = 0x85 || n = 0xA0 || n = 0x1680
    || (0x2000 ≤ n && n ≤ 0x200A) || n = 0x2028 || n = 0x2029 || n = 0x202F
    || n = 0x205F || n = 0x3000

def trimEnd (text : List Char) : List Char :=
  (text.reverse.dropWhile isBlank).reverse

def trimChars (text : List Char) : List Char :=
  trimEnd (text.dropWhile isBlank)

def trim (text : String) : String :=
  String.ofList (trimChars text.toList)

end SchemaCodec.Text
