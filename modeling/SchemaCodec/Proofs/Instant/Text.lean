import SchemaCodec.Instant.Text
import SchemaCodec.Proofs.Instant.Calendar
import SchemaCodec.Proofs.Number.Texts

/-!
Points in time as texts. What is written with milliseconds is read as the same point in time without
what lies below a millisecond, as long as the year has four digits. A leap second is the last second of a
minute in every offset, since offsets are whole minutes.
-/

namespace SchemaCodec

namespace Instant

open Calendar

/-! ### Digits of a fixed width -/

section Padded

variable {width n : Nat} (some : 0 < width) (fits : n < 10 ^ width)

private theorem isDigit_of_mem_padded {c : Char} (member : c ∈ padded width n) :
    c.isDigit = true := by
  rcases List.mem_append.mp member with zero | digit
  · rw [List.eq_of_mem_replicate zero]
    rfl
  · exact Nat.isDigit_of_mem_toDigits (by decide) (by decide) digit

private theorem ofDigits_padded : Number.ofDigits 0 (padded width n) = n := by
  rw [Number.ofDigits_eq, padded, Nat.ofDigitChars_append, Nat.ofDigitChars_replicate_zero,
    Nat.mul_zero, Nat.ofDigitChars_ten_toDigits]

include some fits

private theorem length_padded : (padded width n).length = width := by
  have enough := (Nat.length_toDigits_le_iff (by decide : 1 < 10) some).mpr fits
  rw [padded, List.length_append, List.length_replicate]
  omega

private theorem takeNumber?_padded (rest : List Char) :
    takeNumber? width (padded width n ++ rest) = .some (n, rest) := by
  have front : (padded width n ++ rest).take width = padded width n :=
    List.take_left' (length_padded some fits)
  have back : (padded width n ++ rest).drop width = rest :=
    List.drop_left' (length_padded some fits)
  have digits : (padded width n).all Char.isDigit = true :=
    List.all_eq_true.mpr fun _ => isDigit_of_mem_padded
  rw [takeNumber?]
  simp only [front, back, digits, ofDigits_padded, length_padded some fits, decide_true, Bool.and_true,
    if_true]

end Padded

/-! ### Points in time that are read -/

def year (t : Instant) : Int :=
  (Day.ofNumber (t.seconds / 86400)).year

/-- The nanoseconds run on past one billion at most once, in the last second of a minute. -/
structure OnClock (t : Instant) : Prop where
  nanoseconds_lt : t.nanoseconds < 2000000000
  leap : 1000000000 ≤ t.nanoseconds → t.seconds % 60 = 59

def inMilliseconds (t : Instant) : Instant :=
  { t with nanoseconds := t.nanoseconds / 1000000 * 1000000 }

theorem inMilliseconds_eq_iff (t : Instant) : t.inMilliseconds = t ↔ 1000000 ∣ t.nanoseconds := by
  obtain ⟨seconds, nanoseconds⟩ := t
  rw [inMilliseconds, Instant.mk.injEq]
  simp only [true_and]
  omega

private theorem fraction_lt {text rest : List Char} {fraction : Nat}
    (taken : takeFraction? text = some (fraction, rest)) : fraction < 1000000000 := by
  unfold takeFraction? at taken
  split at taken
  · rename_i behind
    split at taken
    · cases taken
    · cases taken
      have digits : ∀ c ∈ (behind.takeWhile Char.isDigit).take 9, c.isDigit = true :=
        fun c member => List.all_eq_true.mp List.all_takeWhile c (List.mem_of_mem_take member)
      have length : ((behind.takeWhile Char.isDigit).take 9).length ≤ 9 := List.length_take_le ..
      have small := Number.ofDigits_lt digits
      generalize (behind.takeWhile Char.isDigit).take 9 = kept at *
      calc Number.ofDigits 0 kept * Nat.pow 10 (9 - kept.length)
          < 10 ^ kept.length * 10 ^ (9 - kept.length) :=
            Nat.mul_lt_mul_of_pos_right small (Nat.pow_pos (by decide))
        _ = 1000000000 := by rw [← Nat.pow_add, Nat.add_sub_cancel' length]
  · cases taken
    decide

/-- Offsets are whole minutes. -/
private theorem offset_mod {text rest : List Char} {offset : Int}
    (taken : takeOffset? text = some (offset, rest)) : offset % 60 = 0 := by
  unfold takeOffset? at taken
  split at taken
  · cases taken
    rfl
  · cases taken
    rfl
  · have signed : ∀ (negative : Bool) (size : Int), size % 60 = 0 →
        (if negative then -size else size) % 60 = 0 := by
      intro negative size whole
      split <;> omega
    split at taken
    rotate_left
    split at taken
    rotate_left
    · cases taken
    all_goals
      obtain ⟨negative, _, taken⟩ := Option.bind_eq_some_iff.mp taken
      obtain ⟨⟨hours, _⟩, _, taken⟩ := Option.bind_eq_some_iff.mp taken
      obtain ⟨_, _, taken⟩ := Option.bind_eq_some_iff.mp taken
      obtain ⟨⟨minutes, _⟩, _, taken⟩ := Option.bind_eq_some_iff.mp taken
      simp only [Option.ite_none_left_eq_some] at taken
      obtain ⟨_, _, made⟩ := taken
      cases made
      exact signed _ _ (by omega)
  · cases taken

def stamp (date : Day) (hour minute second fraction : Nat) (offset : Int) : Instant where
  seconds := date.number * 86400 + hour * 3600 + minute * 60 +
    (if second = 60 then 59 else second : Nat) - offset
  nanoseconds := if second = 60 then fraction + 1000000000 else fraction

private theorem exists_of_read? {text : List Char} {t : Instant} (found : read? text = some t) :
    ∃ (date : Day) (hour minute second fraction : Nat) (offset : Int), second ≤ 60 ∧
      fraction < 1000000000 ∧ offset % 60 = 0 ∧ t = stamp date hour minute second fraction offset := by
  unfold read? at found
  obtain ⟨⟨year, _⟩, _, found⟩ := Option.bind_eq_some_iff.mp found
  obtain ⟨_, _, found⟩ := Option.bind_eq_some_iff.mp found
  obtain ⟨⟨month, _⟩, _, found⟩ := Option.bind_eq_some_iff.mp found
  obtain ⟨_, _, found⟩ := Option.bind_eq_some_iff.mp found
  obtain ⟨⟨day, _⟩, _, found⟩ := Option.bind_eq_some_iff.mp found
  obtain ⟨_, _, found⟩ := Option.bind_eq_some_iff.mp found
  obtain ⟨⟨hour, _⟩, _, found⟩ := Option.bind_eq_some_iff.mp found
  obtain ⟨_, _, found⟩ := Option.bind_eq_some_iff.mp found
  obtain ⟨⟨minute, _⟩, _, found⟩ := Option.bind_eq_some_iff.mp found
  obtain ⟨_, _, found⟩ := Option.bind_eq_some_iff.mp found
  obtain ⟨⟨second, _⟩, _, found⟩ := Option.bind_eq_some_iff.mp found
  obtain ⟨⟨fraction, _⟩, ofFraction, found⟩ := Option.bind_eq_some_iff.mp found
  obtain ⟨⟨offset, _⟩, ofOffset, found⟩ := Option.bind_eq_some_iff.mp found
  simp only [Option.ite_none_left_eq_some, Bool.or_eq_true, decide_eq_true_eq, not_or] at found
  obtain ⟨⟨_, late⟩, made⟩ := found
  cases made
  exact ⟨⟨year, month, day⟩, hour, minute, second, fraction, offset, by omega, fraction_lt ofFraction,
    offset_mod ofOffset, rfl⟩

theorem onClock_of_read? {text : List Char} {t : Instant} (found : read? text = some t) : t.OnClock := by
  obtain ⟨date, hour, minute, second, fraction, offset, late, small, whole, rfl⟩ :=
    exists_of_read? found
  constructor
  · simp only [stamp]
    split <;> omega
  · simp only [stamp]
    intro leap
    split at leap
    · rename_i last
      rw [if_pos last]
      omega
    · omega

/-! ### Texts that are read again -/

private theorem takeFraction?_padded {n : Nat} (fits : n < 1000) (rest : List Char) :
    takeFraction? ('.' :: (padded 3 n ++ 'Z' :: rest)) = some (n * 1000000, 'Z' :: rest) := by
  have length : (padded 3 n).length = 3 := length_padded (by decide) fits
  have digits : ∀ c ∈ padded 3 n, c.isDigit = true := fun _ => isDigit_of_mem_padded
  have front : (padded 3 n ++ 'Z' :: rest).takeWhile Char.isDigit = padded 3 n := by
    rw [List.takeWhile_append_of_pos digits, List.takeWhile_cons_of_neg (by decide), List.append_nil]
  have back : (padded 3 n ++ 'Z' :: rest).dropWhile Char.isDigit = 'Z' :: rest := by
    rw [List.dropWhile_append_of_pos digits, List.dropWhile_cons_of_neg (by decide)]
  have kept : (padded 3 n).take 9 = padded 3 n := List.take_of_length_le (by omega)
  unfold takeFraction?
  simp only [front, back]
  split
  · rename_i none
    rw [none] at length
    cases length
  · rw [kept, length, ofDigits_padded]

private theorem expect?_cons (c : Char) (rest : List Char) : expect? c (c :: rest) = some rest := by
  rw [expect?, if_pos rfl]

/-- The parts of a text in universal time are read one after the other. -/
private theorem read?_padded {date : Day} {years hour minute second milliseconds : Nat}
    (ofYear : date.year = years) (fourDigits : years < 10000) (valid : date.isValid = true)
    (hours : hour ≤ 23) (minutes : minute ≤ 59) (seconds : second ≤ 60)
    (thousandths : milliseconds < 1000) :
    read? (padded 4 years ++ '-' :: (padded 2 date.month ++ '-' :: (padded 2 date.day ++ 'T' ::
      (padded 2 hour ++ ':' :: (padded 2 minute ++ ':' :: (padded 2 second ++ '.' ::
        (padded 3 milliseconds ++ ['Z']))))))) =
      some (stamp date hour minute second (milliseconds * 1000000) 0) := by
  obtain ⟨months, days⟩ := Day.bounds_of_isValid valid
  have two : ∀ n, n < 100 → ∀ rest, takeNumber? 2 (padded 2 n ++ rest) = some (n, rest) :=
    fun n small => takeNumber?_padded (by decide) small
  have same : (⟨years, date.month, date.day⟩ : Day) = date := by rw [← ofYear]
  have inRange : (!([] : List Char).isEmpty || !date.isValid || decide (23 < hour) ||
      decide (59 < minute) || decide (60 < second)) = false := by
    simp only [valid, List.isEmpty_nil, Bool.not_true, Bool.or_self, Bool.false_or,
      Bool.or_eq_false_iff, decide_eq_false_iff_not]
    omega
  unfold read?
  refine Option.bind_eq_some_iff.mpr ⟨_, takeNumber?_padded (by decide) fourDigits _, ?_⟩
  refine Option.bind_eq_some_iff.mpr ⟨_, expect?_cons '-' _, ?_⟩
  refine Option.bind_eq_some_iff.mpr ⟨_, two date.month (by omega) _, ?_⟩
  refine Option.bind_eq_some_iff.mpr ⟨_, expect?_cons '-' _, ?_⟩
  refine Option.bind_eq_some_iff.mpr ⟨_, two date.day (by omega) _, ?_⟩
  refine Option.bind_eq_some_iff.mpr ⟨_, rfl, ?_⟩
  refine Option.bind_eq_some_iff.mpr ⟨_, two hour (by omega) _, ?_⟩
  refine Option.bind_eq_some_iff.mpr ⟨_, expect?_cons ':' _, ?_⟩
  refine Option.bind_eq_some_iff.mpr ⟨_, two minute (by omega) _, ?_⟩
  refine Option.bind_eq_some_iff.mpr ⟨_, expect?_cons ':' _, ?_⟩
  refine Option.bind_eq_some_iff.mpr ⟨_, two second (by omega) _, ?_⟩
  refine Option.bind_eq_some_iff.mpr ⟨_, takeFraction?_padded thousandths _, ?_⟩
  refine Option.bind_eq_some_iff.mpr ⟨(0, []), rfl, ?_⟩
  simp only [same, inRange]
  rfl

/-- A point in time with a year of four digits is read again from its text, cut to milliseconds. -/
theorem read?_chars {t : Instant} (onClock : t.OnClock) (low : 0 ≤ t.year) (high : t.year ≤ 9999) :
    read? t.chars = some t.inMilliseconds := by
  have valid := Day.ofNumber_isValid (t.seconds / 86400)
  have number := Day.number_ofNumber (t.seconds / 86400)
  obtain ⟨years, ofYear⟩ := Int.eq_ofNat_of_zero_le low
  rw [ofYear] at high
  have fourDigits : years ≤ 9999 := by omega
  have yearWritten : yearText (Day.ofNumber (t.seconds / 86400)).year = padded 4 years := by
    rw [show (Day.ofNumber (t.seconds / 86400)).year = Int.ofNat years from ofYear]
    exact if_pos fourDigits
  obtain ⟨nanoseconds, last⟩ := onClock
  rw [chars, yearWritten, secondText]
  simp only [List.append_assoc, List.cons_append]
  by_cases leap : 1000000000 ≤ t.nanoseconds
  · have ends := last leap
    simp only [if_pos leap]
    rw [read?_padded ofYear (by omega) valid (by omega) (by omega) (by omega) (by omega), stamp,
      number, inMilliseconds, if_pos (by omega), if_pos (by omega)]
    simp only [Option.some.injEq, Instant.mk.injEq]
    omega
  · simp only [if_neg leap]
    rw [read?_padded ofYear (by omega) valid (by omega) (by omega) (by omega) (by omega), stamp,
      number, inMilliseconds, if_neg (by omega), if_neg (by omega)]
    simp only [Option.some.injEq, Instant.mk.injEq, and_true]
    omega

end Instant

end SchemaCodec
