/-!
Points in time and the calendar. Days are counted from the first of January 1970; years of the
calendar repeat every 400 years, which are 146097 days.
-/

namespace SchemaCodec

/-- A point in time: seconds since the start of 1970 and nanoseconds. During a leap second the
nanoseconds run on past one billion. -/
structure Instant where
  seconds : Int
  nanoseconds : Nat
deriving DecidableEq, Repr

namespace Calendar

/-- A day of the calendar. -/
structure Day where
  year : Int
  month : Nat
  day : Nat
deriving DecidableEq, Repr

def isLeap (year : Int) : Bool :=
  year % 4 = 0 && (year % 100 ≠ 0 || year % 400 = 0)

/-- The length of a month; no month, no days. -/
def daysIn (year : Int) (month : Nat) : Nat :=
  match month with
  | 2 => if isLeap year then 29 else 28
  | 4 | 6 | 9 | 11 => 30
  | 1 | 3 | 5 | 7 | 8 | 10 | 12 => 31
  | _ => 0

def Day.isValid (d : Day) : Bool :=
  1 ≤ d.day && d.day ≤ daysIn d.year d.month

/-- Days since the start of 1970. Years are counted from March, so that the leap day is the last. -/
def Day.number (d : Day) : Int :=
  let year := if d.month ≤ 2 then d.year - 1 else d.year
  let month : Int := (d.month + 9) % 12
  let inYear := (153 * month + 2) / 5 + d.day - 1
  let era := year / 400
  let ofEra := year % 400
  era * 146097 + (ofEra * 365 + ofEra / 4 - ofEra / 100 + inYear) - 719468

def Day.ofNumber (number : Int) : Day :=
  let shifted := number + 719468
  let era := shifted / 146097
  let ofEra := shifted % 146097
  let year := (ofEra - ofEra / 1460 + ofEra / 36524 - ofEra / 146096) / 365
  let inYear := ofEra - (365 * year + year / 4 - year / 100)
  let month := (5 * inYear + 2) / 153
  let day := inYear - (153 * month + 2) / 5 + 1
  let calendarMonth := if month < 10 then month + 3 else month - 9
  { year := year + era * 400 + (if calendarMonth ≤ 2 then 1 else 0)
    month := calendarMonth.toNat
    day := day.toNat }

end Calendar

end SchemaCodec
