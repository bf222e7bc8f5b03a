/-!
Whole numbers as text. The reader takes an optional single sign and one or more decimal digits, and
only numbers that fit into 128 bits with a sign.
-/

namespace SchemaCodec.Number

def digitValue (c : Char) : Nat :=
  c.toNat - '0'.toNat

def hexValue? (c : Char) : Option Nat :=
  if c.isDigit then some (c.toNat - '0'.toNat)
  else if 'a' ≤ c && c ≤ 'f' then some (c.toNat - 'a'.toNat + 10)
  else if 'A' ≤ c && c ≤ 'F' then some (c.toNat - 'A'.toNat + 10)
  else none

/-- The number that a list of decimal digits denotes, after the digits read so far. -/
def ofDigits (sofar : Nat) (digits : List Char) : Nat :=
  digits.foldl (fun value c => 10 * value + digitValue c) sofar

def integerText (i : Int) : String :=
  match i with
  | .ofNat n => String.ofList (Nat.toDigits 10 n)
  | .negSucc n => String.ofList ('-' :: Nat.toDigits 10 (n + 1))

/-- The whole numbers of 128 bits with a sign. -/
def fits128 (i : Int) : Bool :=
  -Int.pow 2 127 ≤ i && i < Int.pow 2 127

def readNatural? (text : List Char) : Option Nat :=
  if text.isEmpty || !text.all Char.isDigit then none else some (ofDigits 0 text)

/-- A whole number of 128 bits. -/
def readInteger? (text : List Char) : Option Int :=
  let signed : Option Int := match text with
    | '-' :: digits => (readNatural? digits).map fun n => -(n : Int)
    | '+' :: digits => (readNatural? digits).map Int.ofNat
    | digits => (readNatural? digits).map Int.ofNat
  signed.filter fits128

end SchemaCodec.Number
