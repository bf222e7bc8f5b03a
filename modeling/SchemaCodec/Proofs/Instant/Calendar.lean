import Mathlib.Tactic.IntervalCases
import SchemaCodec.Instant

/-!
Days and their numbers. In an era of 400 years that begin in March, every span that is cut short comes
last: the last century has one more day, the last span of four years in a century one less, and the leap
day ends the last year of a span. With the place of a day in this division the way from a number to a day
of the calendar and back is linear arithmetic.
-/

namespace SchemaCodec.Calendar

/-- The place of a day in its era: whole centuries, spans of four years, years and days before it. -/
structure EraDay where
  century : Nat
  span : Nat
  year : Nat
  day : Nat
  century_le : century ≤ 3
  span_le : span ≤ 24
  year_le : year ≤ 3
  day_le : day ≤ 365
  /-- The last day of a leap year; of the years that end a century only the last one is a leap year. -/
  leap : day = 365 → year = 3 ∧ (span = 24 → century = 3)

namespace EraDay

def number (place : EraDay) : Int :=
  36524 * place.century + 1461 * place.span + 365 * place.year + place.day

def yearOfEra (place : EraDay) : Nat :=
  100 * place.century + 4 * place.span + place.year

private theorem exists_number {d : Int} (low : 0 ≤ d) (high : d < 146097) :
    ∃ place : EraDay, place.number = d := by
  obtain ⟨d, rfl⟩ := Int.eq_ofNat_of_zero_le low
  let century := min (d / 36524) 3
  let ofCentury := d - 36524 * century
  let span := ofCentury / 1461
  let ofSpan := ofCentury % 1461
  let year := min (ofSpan / 365) 3
  refine ⟨⟨century, span, year, ofSpan - 365 * year, ?_, ?_, ?_, ?_, ?_⟩, ?_⟩
  · omega
  · omega
  · omega
  · omega
  · omega
  · simp only [number]
    omega

variable (place : EraDay)

private theorem number_bounds : 0 ≤ place.number ∧ place.number < 146097 := by
  obtain ⟨century, span, year, day, _, _, _, _, leap⟩ := place
  simp only [number]
  omega

private theorem yearOfEra_lt : place.yearOfEra < 400 := by
  obtain ⟨century, span, year, day, _, _, _, _, leap⟩ := place
  simp only [yearOfEra]
  omega

/-- Without the leap days before it the number of a day is a number of years of 365 days. -/
private theorem yearOfEra_eq :
    (place.number - place.number / 1460 + place.number / 36524 - place.number / 146096) / 365 =
      place.yearOfEra := by
  obtain ⟨century, span, year, day, _, _, _, _, leap⟩ := place
  simp only [number, yearOfEra]
  generalize total : (36524 * century + 1461 * span + 365 * year + day : Int) = d
  have inCentury : 36524 * century ≤ d ∧ d ≤ 36524 * century + 36524 ∧
      (d = 36524 * century + 36524 → century = 3) := by omega
  have centuries : d / 36524 - d / 146096 = century := by
    clear total
    omega
  obtain ⟨early, spans, isEarly⟩ : ∃ early, d / 1460 = 25 * century + span + early ∧
      early = if 1460 ≤ 24 * century + span + 365 * year + day then (1 : Int) else 0 := by
    refine ⟨_, ?_, rfl⟩
    split <;> omega
  have shifted : d - d / 1460 + d / 36524 - d / 146096 =
      365 * (100 * century + 4 * span + year) + (day - early) := by omega
  rw [shifted]
  split at isEarly <;> omega

private theorem dayOfYear_eq :
    place.number - (365 * place.yearOfEra + place.yearOfEra / 4 - place.yearOfEra / 100) =
      place.day := by
  obtain ⟨century, span, year, day, _, _, _, _, leap⟩ := place
  simp only [number, yearOfEra]
  omega

/-! ### Months -/

def month : Nat :=
  (5 * place.day + 2) / 153

private theorem month_bounds : 153 * place.month ≤ 5 * place.day + 2 ∧
    5 * place.day + 2 < 153 * place.month + 153 := by
  rw [month]
  omega

private theorem month_le : place.month ≤ 11 := by
  have small := place.day_le
  rw [month]
  omega

variable (era : Int)

def inCalendar : Day where
  year := era * 400 + place.yearOfEra + if place.month < 10 then 0 else 1
  month := if place.month < 10 then place.month + 3 else place.month - 9
  day := place.day - (153 * place.month + 2) / 5 + 1

private theorem ofNumber_eq :
    Day.ofNumber (era * 146097 + place.number - 719468) = place.inCalendar era := by
  obtain ⟨low, high⟩ := place.number_bounds
  have shifted : era * 146097 + place.number - 719468 + 719468 = place.number + era * 146097 := by
    omega
  have ofEra : (place.number + era * 146097) % 146097 = place.number := by omega
  have eras : (place.number + era * 146097) / 146097 = era := by omega
  have month : (5 * (place.day : Int) + 2) / 153 = place.month := by
    rw [EraDay.month]
    omega
  have bounds := place.month_bounds
  simp only [Day.ofNumber, inCalendar, shifted, ofEra, eras, place.yearOfEra_eq, place.dayOfYear_eq,
    month, Day.mk.injEq]
  have last := place.month_le
  refine ⟨?_, ?_, ?_⟩
  · split <;> split <;> omega
  · split <;> split <;> omega
  · omega

private theorem number_inCalendar :
    (place.inCalendar era).number = era * 146097 + place.number - 719468 := by
  have last := place.month_le
  have fromMarch : (if (place.inCalendar era).month ≤ 2 then (place.inCalendar era).year - 1
      else (place.inCalendar era).year) = place.yearOfEra + era * 400 := by
    simp only [inCalendar]
    split <;> split <;> omega
  have month : (((place.inCalendar era).month : Int) + 9) % 12 = place.month := by
    simp only [inCalendar]
    split <;> omega
  have day : (153 * (place.month : Int) + 2) / 5 + (place.inCalendar era).day - 1 = place.day := by
    simp only [inCalendar, EraDay.month]
    omega
  have years := place.yearOfEra_lt
  have ofEra : (place.yearOfEra + era * 400) % 400 = place.yearOfEra := by omega
  have eras : (place.yearOfEra + era * 400) / 400 = era := by omega
  have ofYear := place.dayOfYear_eq
  simp only [Day.number, fromMarch, month, day, ofEra, eras]
  omega

private theorem isLeap_of_last (last : place.day = 365) :
    isLeap (era * 400 + place.yearOfEra + 1) = true := by
  obtain ⟨century, span, year, day, _, _, _, _, leap⟩ := place
  obtain ⟨year, ofEra⟩ := leap last
  simp only [isLeap, yearOfEra, Bool.and_eq_true, Bool.or_eq_true, decide_eq_true_eq, year]
  omega

private theorem inCalendar_isValid : (place.inCalendar era).isValid = true := by
  have last := place.month_le
  have leap := place.isLeap_of_last era
  have small := place.day_le
  have bounds := place.month_bounds
  rw [Day.isValid, Bool.and_eq_true, decide_eq_true_eq, decide_eq_true_eq]
  simp only [inCalendar]
  generalize place.month = month at last bounds
  refine ⟨by omega, ?_⟩
  interval_cases month
  all_goals simp only [daysIn, Nat.reduceLT, if_true, if_false, Nat.reduceAdd, Nat.reduceSub]
  all_goals try omega
  by_cases ends : place.day = 365
  · rw [if_pos (leap ends)]
    omega
  · split <;> omega

end EraDay

/-! ### Days of the calendar -/

private theorem exists_place (number : Int) :
    ∃ (place : EraDay) (era : Int), number = era * 146097 + place.number - 719468 := by
  obtain ⟨place, same⟩ := EraDay.exists_number (d := (number + 719468) % 146097) (by omega) (by omega)
  exact ⟨place, (number + 719468) / 146097, by omega⟩

/-- The day with a number has this number. -/
theorem Day.number_ofNumber (number : Int) : (Day.ofNumber number).number = number := by
  obtain ⟨place, era, rfl⟩ := exists_place number
  rw [place.ofNumber_eq, place.number_inCalendar]

theorem Day.ofNumber_isValid (number : Int) : (Day.ofNumber number).isValid = true := by
  obtain ⟨place, era, rfl⟩ := exists_place number
  rw [place.ofNumber_eq, place.inCalendar_isValid]

theorem Day.bounds_of_isValid {day : Day} (valid : day.isValid = true) :
    day.month ≤ 12 ∧ day.day ≤ 31 := by
  rw [Day.isValid, Bool.and_eq_true, decide_eq_true_eq, decide_eq_true_eq] at valid
  obtain ⟨first, last⟩ := valid
  unfold daysIn at last
  split at last <;> try omega
  split at last <;> omega

end SchemaCodec.Calendar
