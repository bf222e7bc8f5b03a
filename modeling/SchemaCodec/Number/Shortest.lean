import SchemaCodec.Number.Binary64

/-!
The shortest decimal that reads back as the same double. For one, two, ... seventeen digits the two
neighbours of the value on that decimal grid are tested against the interval of reals that round to
the double; the first grid with a hit wins, and of two hits the nearer one.
-/

namespace SchemaCodec.Number

/-- A decimal `d.ddd * 10 ^ exponent`: its digits, first one first and last one not zero. -/
structure Digits where
  digits : List Char
  exponent : Int
deriving DecidableEq, Repr

/-- Which neighbour is taken when both are equally near. -/
inductive Tie where
  | up
  | even
deriving DecidableEq, Repr

/-- The reals that round to a double: all values are over the common denominator. -/
structure Rounding where
  value : Nat
  low : Nat
  high : Nat
  denominator : Nat
  /-- The ends of the interval round to the double as well. -/
  closed : Bool
deriving DecidableEq, Repr

/-- The ends lie halfway to the neighbouring doubles and belong to the even significand. -/
def Parts.rounding (parts : Parts) : Rounding :=
  let below := if parts.narrowBelow then 1 else 2
  let up := (parts.exponent - 2).toNat
  let down := (2 - parts.exponent).toNat
  { value := 4 * parts.significand * Nat.pow 2 up
    low := (4 * parts.significand - below) * Nat.pow 2 up
    high := (4 * parts.significand + 2) * Nat.pow 2 up
    denominator := Nat.pow 2 down
    closed := parts.significand % 2 = 0 }

def leadingExponent (value denominator : Nat) : Int :=
  if denominator ≤ value then
    ((Nat.toDigits 10 (value / denominator)).length : Int) - 1
  else
    -((Nat.toDigits 10 ((denominator - 1) / value)).length : Int)

/-- Multiply all values so that one step of the grid `10 ^ step` is the new denominator. -/
def Rounding.onGrid (r : Rounding) (step : Int) : Rounding :=
  let up := Nat.pow 10 step.toNat
  let down := Nat.pow 10 (-step).toNat
  { value := r.value * down
    low := r.low * down
    high := r.high * down
    denominator := r.denominator * up
    closed := r.closed }

/-- The grid point `point` rounds to the double. -/
def Rounding.hits (r : Rounding) (point : Nat) : Bool :=
  let place := point * r.denominator
  if r.closed then r.low ≤ place && place ≤ r.high else r.low < place && place < r.high

/-- The neighbour on the grid that rounds to the double, the nearer one if both do. -/
def Rounding.nearest? (r : Rounding) (tie : Tie) : Option Nat :=
  let below := r.value / r.denominator
  match r.hits below, r.hits (below + 1) with
  | true, true =>
    let fromBelow := r.value - below * r.denominator
    let fromAbove := (below + 1) * r.denominator - r.value
    if fromBelow < fromAbove then some below
    else if fromAbove < fromBelow then some (below + 1)
    else match tie with
      | .up => some (below + 1)
      | .even => if below % 2 = 0 then some below else some (below + 1)
  | true, false => some below
  | false, true => some (below + 1)
  | false, false => none

def withoutTrailingZeros (digits : List Char) : List Char :=
  (digits.reverse.dropWhile (· = '0')).reverse

/-- Try `count`, `count + 1`, ... digits, at most `more` of them. -/
def Rounding.search (r : Rounding) (tie : Tie) (leading : Int) : Nat → Nat → Digits
  | _, 0 => ⟨['0'], 0⟩
  | count, more + 1 =>
    match (r.onGrid (leading - count + 1)).nearest? tie with
    | some point =>
      let digits := Nat.toDigits 10 point
      ⟨withoutTrailingZeros digits, leading + digits.length - count⟩
    | none => r.search tie leading (count + 1) more

/-- The shortest digits of a magnitude other than zero. Seventeen digits always suffice. -/
def Parts.shortest (parts : Parts) (tie : Tie) : Digits :=
  let r := parts.rounding
  r.search tie (leadingExponent r.value r.denominator) 1 17

end SchemaCodec.Number
