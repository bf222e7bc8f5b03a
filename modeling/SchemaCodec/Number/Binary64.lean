/-!
Finite doubles as exact numbers. A finite double is a sign and `significand * 2 ^ exponent`;
whether it is whole, and which whole number it is, is decided in exact arithmetic on those parts.
-/

namespace SchemaCodec.Number

/-- The exact value of a finite double: `significand * 2 ^ exponent`, negated if `negative`. -/
structure Parts where
  negative : Bool
  significand : Nat
  exponent : Int
  /-- The double below is nearer than the double above. -/
  narrowBelow : Bool
deriving DecidableEq, Repr

def fields (n : Float) : Bool × Nat × Nat :=
  let word := n.toBits.toNat
  (Nat.pow 2 63 ≤ word, word / Nat.pow 2 52 % Nat.pow 2 11, word % Nat.pow 2 52)

/-- Infinities and the undefined number have no parts. -/
def parts? (n : Float) : Option Parts :=
  match fields n with
  | (negative, biased, fraction) =>
    if biased = 2047 then none
    else if biased = 0 then some ⟨negative, fraction, -1074, false⟩
    else some ⟨negative, Nat.pow 2 52 + fraction, (biased : Int) - 1075, fraction = 0 && 1 < biased⟩

def Parts.whole? (parts : Parts) : Option Int :=
  let magnitude : Option Nat :=
    match parts.exponent with
    | .ofNat up => some (parts.significand * Nat.pow 2 up)
    | .negSucc down =>
      let unit := Nat.pow 2 (down + 1)
      if parts.significand % unit = 0 then some (parts.significand / unit) else none
  magnitude.map fun m => if parts.negative then -(m : Int) else m

def whole? (n : Float) : Option Int :=
  (parts? n).bind Parts.whole?

def isWhole (n : Float) : Bool :=
  (whole? n).isSome

/-- The largest magnitude up to which every whole number is a double of its own. -/
def largestSafe : Nat := Nat.pow 2 53 - 1

/-- The whole number equal to `n`, if it is small enough to be told apart from its neighbours. -/
def safeWhole? (n : Float) : Option Int :=
  (whole? n).bind fun i => if i.natAbs ≤ largestSafe then some i else none

def isNegativeZero (n : Float) : Bool :=
  fields n = (true, 0, 0)

end SchemaCodec.Number
