import Mathlib.Data.List.Basic
import SchemaCodec.Text.DecimalDigit
import SchemaCodec.Text.Whitespace

/-!
Texts with blanks around them. What is dropped from the ends of a text is all blank, and a core
without blanks is what remains of it, however many blanks stand around it.
-/

namespace SchemaCodec.Text

def AreBlanks (text : List Char) : Prop := ∀ c ∈ text, isBlank c = true

variable {before core after : List Char}

private theorem areBlanks_takeWhile (text : List Char) : AreBlanks (text.takeWhile isBlank) :=
  List.all_eq_true.mp List.all_takeWhile

/-- What remains of a text lies between blanks. -/
theorem exists_blanks_around (text : List Char) : ∃ before after : List Char,
    AreBlanks before ∧ AreBlanks after ∧ text = before ++ (trimChars text ++ after) := by
  let later := text.dropWhile isBlank
  have fromEnd : trimEnd later ++ (later.reverse.takeWhile isBlank).reverse = later := by
    rw [trimEnd, ← List.reverse_append, List.takeWhile_append_dropWhile, List.reverse_reverse]
  refine ⟨text.takeWhile isBlank, (later.reverse.takeWhile isBlank).reverse,
    areBlanks_takeWhile text, fun c member => ?_, ?_⟩
  · exact areBlanks_takeWhile later.reverse c (List.mem_reverse.mp member)
  · calc text = text.takeWhile isBlank ++ later := List.takeWhile_append_dropWhile.symm
      _ = text.takeWhile isBlank ++ (trimEnd later ++ (later.reverse.takeWhile isBlank).reverse) := by
        rw [fromEnd]

private theorem dropWhile_isBlank_append (blanks : AreBlanks before)
    (notBlank : ∀ c ∈ core, isBlank c = false) (notEmpty : core ≠ []) :
    (before ++ (core ++ after)).dropWhile isBlank = core ++ after := by
  obtain ⟨c, rest, rfl⟩ := List.exists_cons_of_ne_nil notEmpty
  have first := notBlank c List.mem_cons_self
  rw [List.dropWhile_append_of_pos blanks, List.cons_append,
    List.dropWhile_cons_of_neg (Bool.eq_false_iff.mp first)]

/-- The blanks around a core without blanks are dropped. -/
theorem trimChars_between (beforeBlank : AreBlanks before) (afterBlank : AreBlanks after)
    (notBlank : ∀ c ∈ core, isBlank c = false) (notEmpty : core ≠ []) :
    trimChars (before ++ (core ++ after)) = core := by
  have fromEnd : (core ++ after).reverse = after.reverse ++ (core.reverse ++ []) := by
    rw [List.reverse_append, List.append_nil]
  have blankFromEnd : AreBlanks after.reverse := fun c member =>
    afterBlank c (List.mem_reverse.mp member)
  have coreFromEnd : ∀ c ∈ core.reverse, isBlank c = false := fun c member =>
    notBlank c (List.mem_reverse.mp member)
  rw [trimChars, dropWhile_isBlank_append beforeBlank notBlank notEmpty, trimEnd, fromEnd,
    dropWhile_isBlank_append blankFromEnd coreFromEnd (mt List.reverse_eq_nil_iff.mp notEmpty),
    List.append_nil, List.reverse_reverse]

/-! ### Digits are not blank -/

theorem isDecimalDigit_of_isDigit {c : Char} (digit : c.isDigit = true) : isDecimalDigit c = true := by
  rw [Char.isDigit, Bool.and_eq_true] at digit
  rw [isDecimalDigit, inRanges, decimalDigitRanges, List.any_cons, Bool.or_eq_true, Bool.and_eq_true]
  exact Or.inl digit

/-- The runs of digits lie between the blanks. -/
private theorem decimalDigitRanges_between : ∀ range ∈ decimalDigitRanges,
    0x20 < range.1 ∧ (range.2 < 0x85 ∨ 0xA0 < range.1) ∧ (range.2 < 0x1680 ∨ 0x1680 < range.1) ∧
      (range.2 < 0x2000 ∨ 0x205F < range.1) ∧ (range.2 < 0x3000 ∨ 0x3000 < range.1) := by
  decide

theorem not_blank_of_isDecimalDigit {c : Char} (digit : isDecimalDigit c = true) :
    isBlank c = false := by
  rw [isDecimalDigit, inRanges, List.any_eq_true] at digit
  obtain ⟨range, inTable, inRange⟩ := digit
  rw [Bool.and_eq_true, decide_eq_true_iff, decide_eq_true_iff] at inRange
  have between := decimalDigitRanges_between range inTable
  rw [isBlank]
  simp only [Bool.or_eq_false_iff, Bool.and_eq_false_iff, decide_eq_false_iff_not]
  omega

end SchemaCodec.Text
