import SchemaCodec.Proofs.Number.Texts
import SchemaCodec.Proofs.Run.Ending
import SchemaCodec.Proofs.Run.Templates
import SchemaCodec.Proofs.Run.TextTransforms

/-!
Runs of numbers that are written as texts. A whole number of 128 bits comes back from its text, and a
text is decoded exactly if it writes such a number between blanks. The place for a number in a template
and the schema that decodes numbers from texts have a grammar each; what stands at the place is decoded
as long as its digits are those of the basic alphabet.
-/

namespace SchemaCodec

namespace TemplateSlot

/-- A number at a place of a template is a decimal if its digits are those of the basic alphabet. -/
private theorem IsNumber.isDecimal {piece : List Char} (number : IsNumber piece)
    (basic : ∀ c ∈ piece, Text.isDecimalDigit c = true → c.isDigit = true) :
    Number.IsDecimal piece := by
  obtain ⟨isSign, isFront, isPoint, areDigits, isPower⟩ := number
  rename_i sign front point digits power
  simp only [List.forall_mem_append] at basic
  obtain ⟨_, ofFront, _, ofDigits, ofPower⟩ := basic
  have frontDigits : ∀ c ∈ front, c.isDigit = true := fun c member =>
    ofFront c member (isFront c member)
  have lastDigits : ∀ c ∈ digits, c.isDigit = true := fun c member =>
    ofDigits c member (areDigits.2 c member)
  have decimalPower : power = [] ∨ Number.IsPower power := by
    refine isPower.imp_right ?_
    rintro ⟨isLetter, powerSign, powerDigits⟩
    refine .mk isLetter.symm powerSign ⟨powerDigits.1, fun c member => ?_⟩
    exact ofPower c (List.mem_cons_of_mem _ (List.mem_append_right _ member)) (powerDigits.2 c member)
  rcases isPoint with rfl | rfl
  · -- All digits are before the place of the point.
    have wholeDigits : ∀ c ∈ front ++ digits, c.isDigit = true :=
      List.forall_mem_append.mpr ⟨frontDigits, lastDigits⟩
    have decimal := Number.IsDecimal.mk isSign wholeDigits (Or.inl ⟨rfl, rfl⟩) (List.forall_mem_nil _)
      (Or.inl (List.append_ne_nil_of_right_ne_nil _ areDigits.1)) decimalPower
    simpa only [List.nil_append, List.append_assoc] using decimal
  · exact .mk isSign frontDigits (Or.inr rfl) lastDigits (Or.inr areDigits.1) decimalPower

theorem IsNumber.digit_or_mark {piece : List Char} (number : IsNumber piece) :
    ∀ c ∈ piece, Text.isDecimalDigit c = true ∨ c ∈ Number.decimalMarks := by
  obtain ⟨isSign, isFront, isPoint, areDigits, isPower⟩ := number
  refine Number.digit_or_mark_of_pieces isSign isFront isPoint areDigits.2 ?_
  rcases isPower with rfl | ⟨isLetter, powerSign, powerDigits⟩
  · exact List.forall_mem_nil _
  · exact Number.digit_or_mark_of_power isLetter.symm powerSign powerDigits.2

private theorem IsNumber.ne_nil {piece : List Char} (number : IsNumber piece) : piece ≠ [] := by
  obtain ⟨_, _, _, areDigits, _⟩ := number
  simp only [ne_eq, List.append_eq_nil_iff, not_and]
  exact fun _ _ _ noDigits => absurd noDigits areDigits.1

/-- No blanks stand around a number. -/
private theorem IsNumber.trimChars_eq {piece : List Char} (number : IsNumber piece) :
    Text.trimChars piece = piece := by
  have notBlank : ∀ c ∈ piece, Text.isBlank c = false := fun c member =>
    (number.digit_or_mark c member).elim Text.not_blank_of_isDecimalDigit Number.not_blank_of_mark
  have none : Text.AreBlanks [] := List.forall_mem_nil _
  have trimmed := Text.trimChars_between none none notBlank number.ne_nil
  rwa [List.append_nil, List.nil_append] at trimmed

end TemplateSlot

namespace Run

open Schema

variable {targets : Targets} {settings : Settings} {input value : Value}

/-! ### Texts that are read and written -/

section Codec

variable {id : NodeId} {target : Schema} {function : Transformer}

private theorem yields_leaf_iff (leaf : target.kind.IsLeaf) :
    Yields targets settings target input (.ok value) ↔
      target.kind.admits input = true ∧ value = input :=
  yields_iff_step.trans (step_leaf leaf)

private theorem decodes_leaf_iff {read : Value → Option Value} (leaf : target.kind.IsLeaf) :
    Yields targets settings.decoding (Schema.transform id .string target (.partialOn read) function)
        input (.ok value) ↔
      ∃ text, input = .string text ∧ read (.string text) = some value ∧
        target.kind.admits value = true := by
  rw [decodes_text_iff rfl]
  simp only [partialOn_eq_ok_iff, yields_leaf_iff leaf]
  constructor
  · rintro ⟨text, given, isText, found, admitted, rfl⟩
    exact ⟨text, isText, found, admitted⟩
  · rintro ⟨text, isText, found, admitted⟩
    exact ⟨text, value, isText, found, admitted, rfl⟩

private theorem encodes_leaf_iff {write : Value → Option Value} (leaf : target.kind.IsLeaf) :
    Yields targets settings.encoding (Schema.transform id .string target function (.partialOn write))
        input (.ok value) ↔
      ∃ text, value = .string text ∧ write input = some (.string text) ∧
        target.kind.admits input = true := by
  rw [encodes_text_iff rfl]
  simp only [partialOn_eq_ok_iff, yields_leaf_iff leaf]
  constructor
  · rintro ⟨given, text, ⟨admitted, rfl⟩, wrote, isText⟩
    exact ⟨text, isText, wrote, admitted⟩
  · rintro ⟨text, isText, wrote, admitted⟩
    exact ⟨input, text, ⟨admitted, rfl⟩, wrote, isText⟩

end Codec

/-! ### Whole numbers -/

private theorem decodes_bigint_iff {id : NodeId} {text : String} :
    Yields targets settings.decoding (Schema.bigintFromString id .string) (.string text) (.ok value) ↔
      ∃ i, value = .bigint i ∧ Number.WritesBigint text.toList i := by
  have leaf : Schema.bigint.kind.IsLeaf := trivial
  rw [Schema.bigintFromString, decodes_leaf_iff leaf]
  constructor
  · rintro ⟨_, isText, found, _⟩
    cases isText
    obtain ⟨i, read, rfl⟩ := Option.map_eq_some_iff.mp found
    exact ⟨i, rfl, Number.readInteger?_trimChars_eq_some.mp read⟩
  · rintro ⟨i, rfl, writes⟩
    refine ⟨text, rfl, ?_, rfl⟩
    rw [bigintOfText?, Number.readInteger?_trimChars_eq_some.mpr writes]
    rfl

private theorem encodes_bigint (id : NodeId) (i : Int) :
    Yields targets settings.encoding (Schema.bigintFromString id .string) (.bigint i)
      (.ok (.string (Number.integerText i))) := by
  have leaf : Schema.bigint.kind.IsLeaf := trivial
  rw [Schema.bigintFromString, encodes_leaf_iff leaf]
  exact ⟨_, rfl, rfl, rfl⟩

/-- Every whole number of 128 bits is encoded as a text that is decoded to it, and exactly the texts
that write such a number, with blanks around it or without, are decoded, to that number. -/
theorem bigints_as_texts (targets : Targets) (settings : Settings) (id : NodeId) :
    (∀ i : Int, -2 ^ 127 ≤ i → i < 2 ^ 127 → ∃ text : String,
      Yields targets settings.encoding (Schema.bigintFromString id .string) (.bigint i)
        (.ok (.string text)) ∧
      Yields targets settings.decoding (Schema.bigintFromString id .string) (.string text)
        (.ok (.bigint i))) ∧
    ∀ text : String,
      Ends targets settings.decoding (Schema.bigintFromString id .string) (.string text) ∧
      ∀ value, Yields targets settings.decoding (Schema.bigintFromString id .string) (.string text)
          (.ok value) ↔ ∃ i, value = .bigint i ∧ Number.WritesBigint text.toList i := by
  constructor
  · intro i low high
    refine ⟨Number.integerText i, encodes_bigint id i, decodes_bigint_iff.mpr ⟨i, rfl, ?_⟩⟩
    have alone : (Number.integerText i).toList = [] ++ ((Number.integerText i).toList ++ []) :=
      (List.append_nil _).symm
    rw [alone]
    have none : Text.AreBlanks [] := List.forall_mem_nil _
    exact .mk none none (Number.writesInteger_integerText i) low high
  · intro text
    have isTransform : (Schema.bigintFromString id .string).kind = .transform .string .bigint
        (.partialOn bigintOfText?) (.partialOn textOfBigint?) true := rfl
    have source : Schema.string.kind.IsLeaf := trivial
    have target : Schema.bigint.kind.IsLeaf := trivial
    exact ⟨ends_transform isTransform (ends_leaf source) (ends_leaf target) _,
      fun value => decodes_bigint_iff⟩

/-- The lowest number comes back, and blanks of any script and leading zeros do not matter. -/
theorem lowest_bigint_as_text :
    (∃ text : String,
      Yields (fun _ => .never) ⟨.sync, {}, .encode⟩ (Schema.bigintFromString (.made 1) .string)
        (.bigint (-2 ^ 127)) (.ok (.string text)) ∧
      Yields (fun _ => .never) ⟨.sync, {}, .decode⟩ (Schema.bigintFromString (.made 1) .string)
        (.string text) (.ok (.bigint (-2 ^ 127)))) ∧
    Yields (fun _ => .never) ⟨.sync, {}, .decode⟩ (Schema.bigintFromString (.made 1) .string)
      (.string "\u3000-007\n") (.ok (.bigint (-7))) := by
  obtain ⟨back, reads⟩ := bigints_as_texts (fun _ => .never) ⟨.sync, {}, .decode⟩ (.made 1)
  refine ⟨back (-2 ^ 127) le_rfl (by decide), ((reads "\u3000-007\n").2 _).mpr ⟨-7, rfl, ?_⟩⟩
  have writes : Number.WritesInteger ['-', '0', '0', '7'] (-7) :=
    .negative ⟨List.cons_ne_nil _ _, List.all_eq_true.mp rfl⟩
  exact @Number.WritesBigint.mk ['\u3000'] _ ['\n'] _ (List.forall_mem_singleton.mpr rfl)
    (List.forall_mem_singleton.mpr rfl) writes (by decide) (by decide)

/-! ### Numbers -/

/-- The words for numbers that no decimal denotes. -/
def numberWords : List String := ["NaN", "Infinity", "-Infinity"]

/-- The words and the decimals between blanks are read as numbers. -/
private theorem isSome_readNumber?_iff {text : String} : (readNumber? text).isSome = true ↔
    text ∈ numberWords ∨ Number.IsDecimal (Text.trimChars text.toList) := by
  unfold readNumber?
  split
  · exact iff_of_true rfl (Or.inl (by decide))
  · exact iff_of_true rfl (Or.inl (by decide))
  · exact iff_of_true rfl (Or.inl (by decide))
  · rename_i notUndefined notInfinity notNegative
    have noWord : text ∉ numberWords := by
      simp only [numberWords, List.mem_cons, List.not_mem_nil, or_false, not_or]
      exact ⟨notUndefined, notInfinity, notNegative⟩
    rw [Option.isSome_map, Number.isSome_readDecimal?_iff, or_iff_right noWord]

private theorem not_decimalDigit_of_word {word : String} (isWord : word ∈ numberWords) {c : Char}
    (member : c ∈ word.toList) : Text.isDecimalDigit c = false := by
  have each : (numberWords.all fun word =>
      word.toList.all fun c => Text.isDecimalDigit c == false) = true := rfl
  exact beq_iff_eq.mp (List.all_eq_true.mp (List.all_eq_true.mp each word isWord) c member)

private theorem decodes_number_iff {id : NodeId} {text : String} :
    Succeeds targets settings.decoding (Schema.numberFromString id .string) (.string text) ↔
      (readNumber? text).isSome = true := by
  have leaf : Schema.number.kind.IsLeaf := trivial
  rw [Schema.numberFromString, Option.isSome_iff_exists]
  simp only [Succeeds, decodes_leaf_iff leaf]
  constructor
  · rintro ⟨_, _, isText, found, _⟩
    cases isText
    obtain ⟨n, read, _⟩ := Option.map_eq_some_iff.mp found
    exact ⟨n, read⟩
  · rintro ⟨n, read⟩
    refine ⟨.number n, text, rfl, ?_, rfl⟩
    rw [numberOfText?, read]
    rfl

def numberTemplate (id : NodeId) : Schema := Template.toSchema id ⟨"", [⟨.number, ""⟩]⟩

private theorem templateLiteral_number {part : Schema} (isNumber : part.kind = .keyword .number)
    (id : NodeId) :
    Schema.templateLiteral id [part] = .ok (numberTemplate (.part id 0)) := by
  obtain ⟨_, _, kind⟩ := part
  obtain rfl : kind = .keyword .number := isNumber
  rfl

private theorem numberTemplate_succeeds_iff {id : NodeId} {text : String} :
    Succeeds targets settings (numberTemplate id) (.string text) ↔
      TemplateSlot.IsNumber text.toList := by
  have nothing : ({"".toList} : Language Char) = 1 := rfl
  have texts : (⟨"", [⟨.number, ""⟩]⟩ : Template).texts = {piece | TemplateSlot.IsNumber piece} := by
    rw [Template.texts, Template.spansTexts, Template.spansTexts, nothing, one_mul, one_mul]
    exact mul_one _
  rw [numberTemplate, succeeds_leaf_iff (Template.toSchema_leaf _ _), toSchema_admits, texts]
  rfl

/-- A text that may stand at the place for a number is decoded as a number exactly if all decimal digits
in it are those of the basic alphabet. -/
theorem number_place_decodes_iff {place id : NodeId} {part template : Schema}
    (isNumber : part.kind = .keyword .number)
    (made : Schema.templateLiteral place [part] = .ok template) {text : String}
    (accepted : Succeeds targets settings template (.string text)) :
    Succeeds targets settings.decoding (Schema.numberFromString id .string) (.string text) ↔
      ∀ c ∈ text.toList, Text.isDecimalDigit c = true → c.isDigit = true := by
  rw [templateLiteral_number isNumber] at made
  cases made
  have number := numberTemplate_succeeds_iff.mp accepted
  rw [decodes_number_iff, isSome_readNumber?_iff, number.trimChars_eq]
  constructor
  · rintro (word | decimal) c member digit
    · rw [not_decimalDigit_of_word word member] at digit
      cases digit
    · refine (decimal.digit_or_mark c member).resolve_right fun isMark => ?_
      rw [Number.not_decimalDigit_of_mark isMark] at digit
      cases digit
  · exact fun basic => Or.inr (number.isDecimal basic)

/-- A number with everything but digits before the point. -/
theorem half_decoded :
    Schema.templateLiteral (.made 1) [.number] = .ok (numberTemplate (.part (.made 1) 0)) ∧
    Succeeds (fun _ => .never) ⟨.sync, {}, .decode⟩ (numberTemplate (.part (.made 1) 0))
      (.string "-.5e+7") ∧
    Succeeds (fun _ => .never) ⟨.sync, {}, .decode⟩ (Schema.numberFromString (.made 2) .string)
      (.string "-.5e+7") := by
  have made : Schema.templateLiteral (.made 1) [.number] = .ok (numberTemplate (.part (.made 1) 0)) :=
    templateLiteral_number rfl _
  have areDigits : ∀ c : Char, c.isDigit = true → TemplateSlot.AreDigits [c] := fun c isDigit =>
    ⟨List.cons_ne_nil _ _, List.forall_mem_singleton.mpr (Text.isDecimalDigit_of_isDigit isDigit)⟩
  have power : TemplateSlot.IsPower ['e', '+', '7'] :=
    @TemplateSlot.IsPower.mk 'e' ['+'] ['7'] (Or.inr rfl) (Or.inr (Or.inl rfl)) (areDigits '7' rfl)
  have number : TemplateSlot.IsNumber "-.5e+7".toList :=
    @TemplateSlot.IsNumber.mk ['-'] [] ['.'] ['5'] ['e', '+', '7'] (Or.inr (Or.inr rfl))
      (List.forall_mem_nil _) (Or.inr rfl) (areDigits '5' rfl) (Or.inr power)
  have accepted : Succeeds (fun _ => .never) ⟨.sync, {}, .decode⟩ (numberTemplate (.part (.made 1) 0))
      (.string "-.5e+7") := numberTemplate_succeeds_iff.mpr number
  have basic : "-.5e+7".toList.all (fun c => !Text.isDecimalDigit c || c.isDigit) = true := rfl
  refine ⟨made, accepted, (number_place_decodes_iff rfl made accepted).mpr ?_⟩
  intro c member isDecimal
  simpa [isDecimal] using List.all_eq_true.mp basic c member

/-- The place for a number takes digits of every script, which are not decoded as numbers. -/
theorem arabicThree_not_decoded :
    Schema.templateLiteral (.made 1) [.number] = .ok (numberTemplate (.part (.made 1) 0)) ∧
    Succeeds (fun _ => .never) ⟨.sync, {}, .decode⟩ (numberTemplate (.part (.made 1) 0))
      (.string "\u0663") ∧
    ¬Succeeds (fun _ => .never) ⟨.sync, {}, .decode⟩ (Schema.numberFromString (.made 2) .string)
      (.string "\u0663") := by
  have areDigits : TemplateSlot.AreDigits ['\u0663'] :=
    ⟨List.cons_ne_nil _ _, List.forall_mem_singleton.mpr rfl⟩
  have number : TemplateSlot.IsNumber "\u0663".toList :=
    @TemplateSlot.IsNumber.mk [] [] [] ['\u0663'] [] (Or.inl rfl) (List.forall_mem_nil _) (Or.inl rfl)
      areDigits (Or.inl rfl)
  refine ⟨templateLiteral_number rfl _, numberTemplate_succeeds_iff.mpr number, fun decoded => ?_⟩
  have read := (@decodes_number_iff _ ⟨.sync, {}, .decode⟩ _ _).mp decoded
  cases read

end Run

end SchemaCodec
