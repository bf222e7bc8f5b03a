import SchemaCodec.Number.Integer

/-!
Decimal numbers as text: an optional sign, digits with an optional point among or around them, and
an optional power of ten. The double of a decimal is the one nearest to it.
-/

namespace SchemaCodec.Number

/-- The number `significand * 10 ^ exponent`, negated if `negative`. -/
structure Decimal where
  negative : Bool
  significand : Nat
  exponent : Int
deriving DecidableEq, Repr

def infinity : Float := Float.ofBits 0x7FF0000000000000

def undefined : Float := Float.ofBits 0x7FF8000000000000

/-- The nearest double. Beyond the range of doubles the power of ten is not computed. -/
def Decimal.magnitude (d : Decimal) : Float :=
  let leading := ((Nat.toDigits 10 d.significand).length : Int) + d.exponent
  if d.significand = 0 then 0
  else if 310 < leading then infinity
  else if leading < -330 then 0
  else match d.exponent with
    | .ofNat up => Float.ofScientific d.significand false up
    | .negSucc down => Float.ofScientific d.significand true (down + 1)

def Decimal.toFloat (d : Decimal) : Float :=
  if d.negative then -d.magnitude else d.magnitude

def ofInteger (i : Int) : Float :=
  (Decimal.mk (i < 0) i.natAbs 0).toFloat

def takeSign : List Char → Bool × List Char
  | '-' :: rest => (true, rest)
  | '+' :: rest => (false, rest)
  | rest => (false, rest)

def takeDigits (text : List Char) : List Char × List Char :=
  (text.takeWhile Char.isDigit, text.dropWhile Char.isDigit)

/-- The power of ten: nothing, or a mark, an optional sign and digits up to the end. -/
def readPower? : List Char → Option Int
  | [] => some 0
  | mark :: rest =>
    if mark = 'e' || mark = 'E' then
      match takeSign rest with
      | (negative, digits) =>
        (readNatural? digits).map fun n => if negative then -(n : Int) else n
    else none

/-- The digits after the point, if there is one, and the text after them. -/
def takeFraction : List Char → List Char × List Char
  | '.' :: rest => takeDigits rest
  | rest => ([], rest)

/-- A decimal that takes up the whole text; there is a digit before or after the point. -/
def readDecimal? (text : List Char) : Option Decimal :=
  match takeSign text with
  | (negative, unsigned) =>
    match takeDigits unsigned with
    | (whole, afterWhole) =>
      match takeFraction afterWhole with
      | (fraction, afterFraction) =>
        if whole.isEmpty && fraction.isEmpty then none
        else (readPower? afterFraction).map fun power =>
          ⟨negative, ofDigits 0 (whole ++ fraction), power - fraction.length⟩

end SchemaCodec.Number
