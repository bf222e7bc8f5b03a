import SchemaCodec.Number.Shortest

/-!
The texts of numbers. One layout function places the shortest digits; the texts differ only in the
range that is written positionally, in the mark on whole numbers and in the sign of the exponent.
-/

namespace SchemaCodec.Number

structure Layout where
  /-- Smallest power of ten of the first digit that is written positionally. -/
  positionalFrom : Int
  /-- Largest power of ten of the first digit that is written positionally. -/
  positionalTo : Int
  /-- Positional whole numbers end in `.0`. -/
  marksWhole : Bool
  /-- Exponents that are not negative carry a plus sign. -/
  plusSign : Bool
  tie : Tie
deriving DecidableEq, Repr

def Layout.positional (layout : Layout) (d : Digits) : List Char :=
  let mark := if layout.marksWhole then ['.', '0'] else []
  match d.exponent with
  | .negSucc zeros => '0' :: '.' :: (List.replicate zeros '0' ++ d.digits)
  | .ofNat e =>
    if d.digits.length ≤ e + 1 then
      d.digits ++ List.replicate (e + 1 - d.digits.length) '0' ++ mark
    else
      d.digits.take (e + 1) ++ '.' :: d.digits.drop (e + 1)

def Layout.scientific (layout : Layout) (d : Digits) : List Char :=
  let mantissa := match d.digits with
    | [] => []
    | [single] => [single]
    | first :: rest => first :: '.' :: rest
  let exponent := match d.exponent with
    | .negSucc e => '-' :: Nat.toDigits 10 (e + 1)
    | .ofNat e => (if layout.plusSign then ['+'] else []) ++ Nat.toDigits 10 e
  mantissa ++ 'e' :: exponent

def Layout.place (layout : Layout) (d : Digits) : List Char :=
  if layout.positionalFrom ≤ d.exponent && d.exponent ≤ layout.positionalTo then
    layout.positional d
  else
    layout.scientific d

/-- The text of finite parts, zero included; the sign of zero is not written here. -/
def Layout.write (layout : Layout) (parts : Parts) : List Char :=
  if parts.significand = 0 then
    '0' :: (if layout.marksWhole then ['.', '0'] else [])
  else
    let magnitude := layout.place (parts.shortest layout.tie)
    if parts.negative then '-' :: magnitude else magnitude

/-- Messages write `1e-6` up to below `1e21` positionally and mark nothing. -/
def messageLayout : Layout := ⟨-6, 20, false, true, .up⟩

/-- Documents write `1e-5` up to below `1e16` positionally and mark whole numbers. -/
def documentLayout : Layout := ⟨-5, 15, true, true, .even⟩

/-- Outlines write `1e-4` up to below `1e16` positionally and mark whole numbers. -/
def outlineLayout : Layout := ⟨-4, 15, true, false, .up⟩

/-- The word for a number without parts, with the words for the two infinities and the undefined
number given. -/
def wordOf (n : Float) (undefined infinity : String) : String :=
  match fields n with
  | (negative, _, 0) => if negative then "-" ++ infinity else infinity
  | _ => undefined

/-- The text of a number in messages: zero of either sign is `0`. -/
def text (n : Float) : String :=
  match parts? n with
  | some parts => String.ofList (messageLayout.write parts)
  | none => wordOf n "NaN" "Infinity"

/-- The text of a number in an outline: the sign of zero is kept. -/
def outline (n : Float) : String :=
  match parts? n with
  | some parts =>
    let body := String.ofList (outlineLayout.write parts)
    if isNegativeZero n then "-" ++ body else body
  | none => wordOf n "NaN" "inf"

end SchemaCodec.Number
