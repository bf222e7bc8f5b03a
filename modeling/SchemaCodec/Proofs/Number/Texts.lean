import Mathlib.Algebra.Group.Int.Defs
import Mathlib.Algebra.Group.Nat.Defs
import Mathlib.Data.List.Induction
import SchemaCodec.Number.Decimal
import SchemaCodec.Proofs.Text.Trimming

/-!
Numbers as texts. A whole number is read from digits with at most one sign in front, and from nothing
else; what is written is one of these texts. A decimal is read exactly if the text falls into a sign,
digits, a point with digits and a power of ten, with a digit around the place of the point.
-/

namespace SchemaCodec.Number

/-! ### Digits -/

theorem ofDigits_eq (sofar : Nat) (digits : List Char) :
    ofDigits sofar digits = Nat.ofDigitChars 10 digits sofar :=
  Nat.ofDigitChars_eq_foldl.symm

private theorem digitValue_lt {c : Char} (digit : c.isDigit = true) : digitValue c < 10 := by
  rw [Char.isDigit, Bool.and_eq_true, decide_eq_true_eq, decide_eq_true_eq] at digit
  have last : c.val.toNat ≤ 57 := UInt32.le_iff_toNat_le.mp digit.2
  change c.val.toNat - 48 < 10
  omega

theorem ofDigits_lt {digits : List Char} (each : ∀ c ∈ digits, c.isDigit = true) :
    ofDigits 0 digits < 10 ^ digits.length := by
  induction digits using List.reverseRecOn with
  | nil => exact Nat.one_pos
  | append_singleton front last ih =>
      obtain ⟨ofFront, ofLast⟩ := List.forall_mem_append.mp each
      have below := ih ofFront
      have digit := digitValue_lt (ofLast last List.mem_cons_self)
      rw [ofDigits, List.foldl_append, List.length_append, List.length_singleton, Nat.pow_succ]
      change 10 * ofDigits 0 front + digitValue last < _
      omega

def AreDigits (text : List Char) : Prop := text ≠ [] ∧ ∀ c ∈ text, c.isDigit = true

private theorem readNatural?_eq_some {text : List Char} {n : Nat} :
    readNatural? text = some n ↔ AreDigits text ∧ Nat.ofDigitChars 10 text 0 = n := by
  rw [readNatural?, AreDigits, ← ofDigits_eq, Option.ite_none_left_eq_some, Option.some.injEq,
    Bool.or_eq_true, not_or, List.isEmpty_iff, Bool.not_eq_true', Bool.not_eq_false,
    List.all_eq_true]

/-! ### Whole numbers -/

/-- The ways to write a whole number: digits with at most one sign in front, leading zeros included. -/
inductive WritesInteger : List Char → Int → Prop where
  | unsigned {digits : List Char} (areDigits : AreDigits digits) :
      WritesInteger digits (Nat.ofDigitChars 10 digits 0 : Nat)
  | positive {digits : List Char} (areDigits : AreDigits digits) :
      WritesInteger ('+' :: digits) (Nat.ofDigitChars 10 digits 0 : Nat)
  | negative {digits : List Char} (areDigits : AreDigits digits) :
      WritesInteger ('-' :: digits) (-(Nat.ofDigitChars 10 digits 0 : Nat))

private theorem fits128_iff {i : Int} : fits128 i = true ↔ -2 ^ 127 ≤ i ∧ i < 2 ^ 127 := by
  rw [fits128, Bool.and_eq_true, decide_eq_true_iff, decide_eq_true_iff]
  rfl

/-- Exactly the whole numbers that fit are read, from exactly the texts that write them. -/
private theorem readInteger?_eq_some {text : List Char} {i : Int} :
    readInteger? text = some i ↔ WritesInteger text i ∧ fits128 i = true := by
  unfold readInteger?
  rw [Option.filter_eq_some_iff]
  refine and_congr_left fun _ => ?_
  split
  · rename_i digits
    rw [Option.map_eq_some_iff]
    constructor
    · rintro ⟨_, found, rfl⟩
      obtain ⟨n, read, made⟩ := Option.bind_eq_some_iff.mp found
      cases made
      obtain ⟨areDigits, rfl⟩ := readNatural?_eq_some.mp read
      exact .negative areDigits
    · intro writes
      cases writes with
      | unsigned areDigits => exact absurd (areDigits.2 '-' List.mem_cons_self) (by decide)
      | negative areDigits =>
          rw [readNatural?_eq_some.mpr ⟨areDigits, rfl⟩]
          exact ⟨_, rfl, rfl⟩
  · rename_i digits
    rw [Option.map_eq_some_iff]
    constructor
    · rintro ⟨n, read, rfl⟩
      obtain ⟨areDigits, rfl⟩ := readNatural?_eq_some.mp read
      exact .positive areDigits
    · intro writes
      cases writes with
      | unsigned areDigits => exact absurd (areDigits.2 '+' List.mem_cons_self) (by decide)
      | positive areDigits => exact ⟨_, readNatural?_eq_some.mpr ⟨areDigits, rfl⟩, rfl⟩
  · rename_i notMinus notPlus
    rw [Option.map_eq_some_iff]
    constructor
    · rintro ⟨n, read, rfl⟩
      obtain ⟨areDigits, rfl⟩ := readNatural?_eq_some.mp read
      exact .unsigned areDigits
    · intro writes
      cases writes with
      | unsigned areDigits => exact ⟨_, readNatural?_eq_some.mpr ⟨areDigits, rfl⟩, rfl⟩
      | positive areDigits => exact absurd rfl (notPlus _)
      | negative areDigits => exact absurd rfl (notMinus _)

private theorem areDigits_toDigits (n : Nat) : AreDigits (Nat.toDigits 10 n) :=
  ⟨Nat.toDigits_ne_nil, fun _ => Nat.isDigit_of_mem_toDigits (by decide) (by decide)⟩

/-- The text of a whole number writes it. -/
theorem writesInteger_integerText (i : Int) : WritesInteger (integerText i).toList i := by
  cases i with
  | ofNat n =>
      have written : (integerText (Int.ofNat n)).toList = Nat.toDigits 10 n := String.toList_ofList
      have value := WritesInteger.unsigned (areDigits_toDigits n)
      rw [Nat.ofDigitChars_ten_toDigits] at value
      rw [written]
      exact value
  | negSucc n =>
      have written : (integerText (Int.negSucc n)).toList = '-' :: Nat.toDigits 10 (n + 1) :=
        String.toList_ofList
      have value := WritesInteger.negative (areDigits_toDigits (n + 1))
      rw [Nat.ofDigitChars_ten_toDigits] at value
      rw [written]
      exact value

/-- A whole number of 128 bits, with any number of blanks before and after it. -/
inductive WritesBigint : List Char → Int → Prop where
  | mk {before core after : List Char} {i : Int} (beforeBlank : Text.AreBlanks before)
      (afterBlank : Text.AreBlanks after) (writes : WritesInteger core i) (low : -2 ^ 127 ≤ i)
      (high : i < 2 ^ 127) : WritesBigint (before ++ (core ++ after)) i

private theorem not_blank_of_isDigit {c : Char} (digit : c.isDigit = true) :
    Text.isBlank c = false :=
  Text.not_blank_of_isDecimalDigit (Text.isDecimalDigit_of_isDigit digit)

private theorem WritesInteger.not_blank {text : List Char} {i : Int}
    (writes : WritesInteger text i) :
    text ≠ [] ∧ ∀ c ∈ text, Text.isBlank c = false := by
  cases writes with
  | unsigned areDigits =>
      exact ⟨areDigits.1, fun c member => not_blank_of_isDigit (areDigits.2 c member)⟩
  | positive areDigits =>
      refine ⟨List.cons_ne_nil _ _, List.forall_mem_cons.mpr ⟨rfl, fun c member => ?_⟩⟩
      exact not_blank_of_isDigit (areDigits.2 c member)
  | negative areDigits =>
      refine ⟨List.cons_ne_nil _ _, List.forall_mem_cons.mpr ⟨rfl, fun c member => ?_⟩⟩
      exact not_blank_of_isDigit (areDigits.2 c member)

theorem readInteger?_trimChars_eq_some {text : List Char} {i : Int} :
    readInteger? (Text.trimChars text) = some i ↔ WritesBigint text i := by
  rw [readInteger?_eq_some, fits128_iff]
  constructor
  · rintro ⟨writes, low, high⟩
    obtain ⟨before, after, beforeBlank, afterBlank, whole⟩ := Text.exists_blanks_around text
    rw [whole]
    exact .mk beforeBlank afterBlank writes low high
  · rintro ⟨beforeBlank, afterBlank, writes, low, high⟩
    obtain ⟨notEmpty, notBlank⟩ := writes.not_blank
    rw [Text.trimChars_between beforeBlank afterBlank notBlank notEmpty]
    exact ⟨writes, low, high⟩

/-! ### Decimals -/

def IsSign (text : List Char) : Prop :=
  text = [] ∨ text = ['+'] ∨ text = ['-']

inductive IsPower : List Char → Prop where
  | mk {mark : Char} {sign digits : List Char} (isMark : mark = 'e' ∨ mark = 'E')
      (isSign : IsSign sign) (areDigits : AreDigits digits) : IsPower (mark :: (sign ++ digits))

/-- A decimal: a sign, digits, a point, digits and a power of ten. Digits must be on one side of the
point at least, and without a point they stand before it. -/
inductive IsDecimal : List Char → Prop where
  | mk {sign whole point fraction power : List Char} (isSign : IsSign sign)
      (isWhole : ∀ c ∈ whole, c.isDigit = true) (isPoint : point = [] ∧ fraction = [] ∨ point = ['.'])
      (isFraction : ∀ c ∈ fraction, c.isDigit = true) (someDigit : whole ≠ [] ∨ fraction ≠ [])
      (isPower : power = [] ∨ IsPower power) :
      IsDecimal (sign ++ (whole ++ (point ++ (fraction ++ power))))

def decimalMarks : List Char := ['+', '-', '.', 'e', 'E']

theorem not_blank_of_mark {c : Char} (isMark : c ∈ decimalMarks) : Text.isBlank c = false := by
  have each : decimalMarks.all (fun c => Text.isBlank c == false) = true := rfl
  exact beq_iff_eq.mp (List.all_eq_true.mp each c isMark)

theorem not_decimalDigit_of_mark {c : Char} (isMark : c ∈ decimalMarks) :
    Text.isDecimalDigit c = false := by
  have each : decimalMarks.all (fun c => Text.isDecimalDigit c == false) = true := rfl
  exact beq_iff_eq.mp (List.all_eq_true.mp each c isMark)

theorem IsSign.marks {sign : List Char} (isSign : IsSign sign) : ∀ c ∈ sign, c ∈ decimalMarks := by
  rcases isSign with rfl | rfl | rfl
  · exact List.forall_mem_nil _
  · exact List.forall_mem_singleton.mpr (by decide)
  · exact List.forall_mem_singleton.mpr (by decide)

private theorem power_mem_marks {mark : Char} (isMark : mark = 'e' ∨ mark = 'E') :
    mark ∈ decimalMarks := by
  rcases isMark with rfl | rfl <;> decide

section Pieces

variable {kind : Char → Bool} {mark : Char} {sign whole point fraction power : List Char}

theorem digit_or_mark_of_power (isMark : mark = 'e' ∨ mark = 'E') (isSign : IsSign sign)
    (digits : ∀ c ∈ whole, kind c = true) :
    ∀ c ∈ mark :: (sign ++ whole), kind c = true ∨ c ∈ decimalMarks := by
  refine List.forall_mem_cons.mpr ⟨Or.inr (power_mem_marks isMark), ?_⟩
  exact List.forall_mem_append.mpr ⟨fun c member => Or.inr (isSign.marks c member),
    fun c member => Or.inl (digits c member)⟩

theorem digit_or_mark_of_pieces (isSign : IsSign sign) (isWhole : ∀ c ∈ whole, kind c = true)
    (isPoint : point = [] ∨ point = ['.']) (isFraction : ∀ c ∈ fraction, kind c = true)
    (ofPower : ∀ c ∈ power, kind c = true ∨ c ∈ decimalMarks) :
    ∀ c ∈ sign ++ (whole ++ (point ++ (fraction ++ power))), kind c = true ∨ c ∈ decimalMarks := by
  have ofPoint : ∀ c ∈ point, c ∈ decimalMarks := by
    rcases isPoint with rfl | rfl
    · exact List.forall_mem_nil _
    · exact List.forall_mem_singleton.mpr (by decide)
  simp only [List.forall_mem_append]
  exact ⟨fun c member => Or.inr (isSign.marks c member), fun c member => Or.inl (isWhole c member),
    fun c member => Or.inr (ofPoint c member), fun c member => Or.inl (isFraction c member), ofPower⟩

end Pieces

theorem IsDecimal.digit_or_mark {text : List Char} (decimal : IsDecimal text) :
    ∀ c ∈ text, c.isDigit = true ∨ c ∈ decimalMarks := by
  obtain ⟨isSign, isWhole, isPoint, isFraction, _, isPower⟩ := decimal
  refine digit_or_mark_of_pieces isSign isWhole (isPoint.imp_left And.left) isFraction ?_
  rcases isPower with rfl | ⟨isMark, powerSign, areDigits⟩
  · exact List.forall_mem_nil _
  · exact digit_or_mark_of_power isMark powerSign areDigits.2

def StopsAt (kind : Char → Bool) (rest : List Char) : Prop := ∀ c ∈ rest.head?, kind c = false

abbrev NoSignAt (rest : List Char) : Prop := StopsAt (fun c => c == '+' || c == '-') rest

private theorem noSignAt_digit {c : Char} (digit : c.isDigit = true) (rest : List Char) :
    NoSignAt (c :: rest) := by
  rintro _ ⟨⟩
  rw [Bool.or_eq_false_iff, beq_eq_false_iff_ne, beq_eq_false_iff_ne]
  constructor
  · rintro rfl
    cases digit
  · rintro rfl
    cases digit

section Taken

variable {sign whole point fraction rest : List Char}

private theorem takeSign_append (isSign : IsSign sign) (stops : NoSignAt rest) :
    (takeSign (sign ++ rest)).2 = rest := by
  obtain rfl | rfl | rfl := isSign
  · rw [List.nil_append]
    unfold takeSign
    split
    · exact absurd (stops '-' rfl) (by decide)
    · exact absurd (stops '+' rfl) (by decide)
    · rfl
  · rfl
  · rfl

private theorem exists_sign (text : List Char) : ∃ sign, IsSign sign ∧ sign ++
    (takeSign text).2 = text := by
  unfold takeSign
  split
  · exact ⟨['-'], Or.inr (Or.inr rfl), rfl⟩
  · exact ⟨['+'], Or.inr (Or.inl rfl), rfl⟩
  · exact ⟨[], Or.inl rfl, rfl⟩

private theorem takeDigits_append (digits : ∀ c ∈ whole, c.isDigit = true)
    (stops : StopsAt Char.isDigit rest) : takeDigits (whole ++ rest) = (whole, rest) := by
  have nothing : rest.takeWhile Char.isDigit = [] ∧ rest.dropWhile Char.isDigit = rest := by
    cases rest with
    | nil => exact ⟨rfl, rfl⟩
    | cons c others =>
        have next := Bool.eq_false_iff.mp (stops c rfl)
        exact ⟨List.takeWhile_cons_of_neg next, List.dropWhile_cons_of_neg next⟩
  rw [takeDigits, List.takeWhile_append_of_pos digits, List.dropWhile_append_of_pos digits, nothing.1,
    nothing.2, List.append_nil]

private theorem isDigit_of_mem_takeDigits (text : List Char) : ∀ c ∈
    (takeDigits text).1, c.isDigit = true :=
  List.all_eq_true.mp List.all_takeWhile

private theorem takeFraction_append (isPoint : point = [] ∧ fraction = [] ∨ point = ['.'])
    (digits : ∀ c ∈ fraction, c.isDigit = true)
    (stops : StopsAt (fun c => c.isDigit || c == '.') rest) :
    takeFraction (point ++ (fraction ++ rest)) = (fraction, rest) := by
  obtain ⟨rfl, rfl⟩ | rfl := isPoint
  · rw [List.nil_append, List.nil_append]
    unfold takeFraction
    split
    · exact absurd (stops '.' rfl) (by decide)
    · rfl
  · have noDigit : StopsAt Char.isDigit rest := fun c next =>
      (Bool.or_eq_false_iff.mp (stops c next)).1
    exact takeDigits_append digits noDigit

private theorem exists_point (text : List Char) : ∃ point,
    (point = [] ∧ (takeFraction text).1 = [] ∨ point = ['.']) ∧
      (∀ c ∈ (takeFraction text).1, c.isDigit = true) ∧
      point ++ ((takeFraction text).1 ++ (takeFraction text).2) = text := by
  unfold takeFraction
  split
  · rename_i rest
    refine ⟨['.'], Or.inr rfl, isDigit_of_mem_takeDigits rest, ?_⟩
    exact congrArg ('.' :: ·) List.takeWhile_append_dropWhile
  · exact ⟨[], Or.inl ⟨rfl, rfl⟩, List.forall_mem_nil _, rfl⟩

private theorem isSome_readPower?_iff {text : List Char} :
    (readPower? text).isSome = true ↔ text = [] ∨ IsPower text := by
  unfold readPower?
  split
  · exact iff_of_true rfl (Or.inl rfl)
  · rename_i mark rest
    split
    · rename_i isMark
      rw [Option.isSome_map, Option.isSome_iff_exists]
      constructor
      · rintro ⟨_, found⟩
        obtain ⟨n, read, _⟩ := Option.bind_eq_some_iff.mp found
        obtain ⟨sign, isSign, whole⟩ := exists_sign rest
        rw [← whole]
        simp only [Bool.or_eq_true, decide_eq_true_eq] at isMark
        exact Or.inr (.mk isMark isSign (readNatural?_eq_some.mp read).1)
      · rintro (absurdly | ⟨_, isSign, areDigits⟩)
        · cases absurdly
        · rename_i sign digits _
          have noSign : NoSignAt digits := by
            obtain ⟨c, others, rfl⟩ := List.exists_cons_of_ne_nil areDigits.1
            exact noSignAt_digit (areDigits.2 c List.mem_cons_self) others
          rw [takeSign_append isSign noSign, readNatural?_eq_some.mpr ⟨areDigits, rfl⟩]
          exact ⟨_, rfl⟩
    · rename_i notMark
      refine iff_of_false Bool.false_ne_true ?_
      rintro (absurdly | ⟨isMark, _, _⟩)
      · cases absurdly
      · exact notMark (by simpa using isMark)

end Taken

private theorem IsPower.stopsAt {power : List Char} (isPower : power = [] ∨ IsPower power) :
    StopsAt (fun c => c.isDigit || c == '.') power := by
  rcases isPower with rfl | ⟨rfl | rfl, _, _⟩
  · exact nofun
  · rintro _ ⟨⟩
    rfl
  · rintro _ ⟨⟩
    rfl

/-- Exactly the decimals are read. -/
theorem isSome_readDecimal?_iff {text : List Char} :
    (readDecimal? text).isSome = true ↔ IsDecimal text := by
  unfold readDecimal?
  dsimp only
  constructor
  · intro read
    obtain ⟨sign, isSign, afterSign⟩ := exists_sign text
    generalize (takeSign text).2 = unsigned at *
    have afterWhole : (takeDigits unsigned).1 ++ (takeDigits unsigned).2 = unsigned :=
      List.takeWhile_append_dropWhile
    obtain ⟨point, isPoint, isFraction, afterPoint⟩ := exists_point (takeDigits unsigned).2
    split at read
    · cases read
    · rename_i someDigit
      rw [Option.isSome_map, isSome_readPower?_iff] at read
      rw [← afterSign, ← afterWhole, ← afterPoint]
      refine .mk isSign (isDigit_of_mem_takeDigits unsigned) isPoint isFraction ?_ read
      rw [Bool.and_eq_true, List.isEmpty_iff, List.isEmpty_iff] at someDigit
      exact not_and_or.mp someDigit
  · rintro ⟨isSign, isWhole, isPoint, isFraction, someDigit, isPower⟩
    rename_i sign whole point fraction power
    have afterFraction := IsPower.stopsAt isPower
    have noSign : NoSignAt (whole ++ (point ++ (fraction ++ power))) := by
      cases whole with
      | cons c others => exact noSignAt_digit (isWhole c List.mem_cons_self) _
      | nil =>
          obtain ⟨_, rfl⟩ | rfl := isPoint
          · exact absurd someDigit (not_or.mpr ⟨(· rfl), (· rfl)⟩)
          · rintro _ ⟨⟩
            rfl
    have noDigit : StopsAt Char.isDigit (point ++ (fraction ++ power)) := by
      obtain ⟨rfl, rfl⟩ | rfl := isPoint
      · exact fun c next => (Bool.or_eq_false_iff.mp (afterFraction c next)).1
      · rintro _ ⟨⟩
        rfl
    have notEmpty : (whole.isEmpty && fraction.isEmpty) = false := by
      rw [Bool.eq_false_iff, Ne, Bool.and_eq_true, List.isEmpty_iff, List.isEmpty_iff]
      exact not_and_or.mpr someDigit
    rw [takeSign_append isSign noSign, takeDigits_append isWhole noDigit]
    dsimp only
    rw [takeFraction_append isPoint isFraction afterFraction]
    dsimp only
    rw [notEmpty, if_neg Bool.false_ne_true, Option.isSome_map]
    exact isSome_readPower?_iff.mpr isPower

end SchemaCodec.Number
