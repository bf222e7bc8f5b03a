import SchemaCodec.Instant
import SchemaCodec.Number.Integer

/-!
The text of a point in time: date, time of day and offset from universal time. Texts are written
with milliseconds and at offset zero, and read with any fraction and any offset.
-/

namespace SchemaCodec.Instant

open Calendar

def padded (width n : Nat) : List Char :=
  let digits := Nat.toDigits 10 n
  List.replicate (width - digits.length) '0' ++ digits

/-- Four digits; years outside of them carry a sign. -/
def yearText (year : Int) : List Char :=
  match year with
  | .ofNat n => if n ≤ 9999 then padded 4 n else '+' :: padded 4 n
  | .negSucc n => '-' :: padded 4 (n + 1)

/-- Second of the minute and milliseconds; a leap second is second 60. -/
def secondText (secondOfMinute nanoseconds : Nat) : List Char :=
  let leap := 1000000000 ≤ nanoseconds
  let second := if leap then secondOfMinute + 1 else secondOfMinute
  let fraction := if leap then nanoseconds - 1000000000 else nanoseconds
  padded 2 second ++ '.' :: padded 3 (fraction / 1000000)

def chars (t : Instant) : List Char :=
  let day := Day.ofNumber (t.seconds / 86400)
  let ofDay := (t.seconds % 86400).toNat
  yearText day.year ++ '-' :: padded 2 day.month ++ '-' :: padded 2 day.day
    ++ 'T' :: padded 2 (ofDay / 3600) ++ ':' :: padded 2 (ofDay / 60 % 60)
    ++ ':' :: secondText (ofDay % 60) t.nanoseconds ++ ['Z']

/-- The text with milliseconds in universal time. -/
def text (t : Instant) : String :=
  String.ofList t.chars

def takeNumber? (width : Nat) (text : List Char) : Option (Nat × List Char) :=
  let digits := text.take width
  if digits.length = width && digits.all Char.isDigit then
    some (Number.ofDigits 0 digits, text.drop width)
  else none

def expect? (c : Char) : List Char → Option (List Char)
  | first :: rest => if first = c then some rest else none
  | [] => none

def expectTime? : List Char → Option (List Char)
  | 'T' :: rest => some rest
  | 't' :: rest => some rest
  | ' ' :: rest => some rest
  | _ => none

/-- Nanoseconds of the fraction, if there is one: digits after the ninth do not count. -/
def takeFraction? : List Char → Option (Nat × List Char)
  | '.' :: rest =>
    match rest.takeWhile Char.isDigit with
    | [] => none
    | digits =>
      let kept := digits.take 9
      some (Number.ofDigits 0 kept * Nat.pow 10 (9 - kept.length), rest.dropWhile Char.isDigit)
  | rest => some (0, rest)

def takeOffset? : List Char → Option (Int × List Char)
  | 'Z' :: rest => some (0, rest)
  | 'z' :: rest => some (0, rest)
  | sign :: rest => do
    let negative ← if sign = '+' then some false
      else if sign = '-' || sign = Char.ofNat 0x2212 then some true else none
    let (hours, rest) ← takeNumber? 2 rest
    let rest ← expect? ':' rest
    let (minutes, rest) ← takeNumber? 2 rest
    if 59 < minutes then none
    else
      let size : Int := hours * 3600 + minutes * 60
      if 86400 ≤ size then none
      else some (if negative then -size else size, rest)
  | [] => none

/-- A date, a time of day and an offset. Second 60 is a leap second at any minute. -/
def read? (text : List Char) : Option Instant := do
  let (year, rest) ← takeNumber? 4 text
  let rest ← expect? '-' rest
  let (month, rest) ← takeNumber? 2 rest
  let rest ← expect? '-' rest
  let (day, rest) ← takeNumber? 2 rest
  let rest ← expectTime? rest
  let (hour, rest) ← takeNumber? 2 rest
  let rest ← expect? ':' rest
  let (minute, rest) ← takeNumber? 2 rest
  let rest ← expect? ':' rest
  let (second, rest) ← takeNumber? 2 rest
  let (fraction, rest) ← takeFraction? rest
  let (offset, rest) ← takeOffset? rest
  let date : Day := ⟨year, month, day⟩
  if !rest.isEmpty || !date.isValid || 23 < hour || 59 < minute || 60 < second then none
  else
    let leap := second = 60
    let ofMinute : Nat := if leap then 59 else second
    let localSeconds : Int := date.number * 86400 + hour * 3600 + minute * 60 + ofMinute
    some ⟨localSeconds - offset, if leap then fraction + 1000000000 else fraction⟩

end SchemaCodec.Instant
