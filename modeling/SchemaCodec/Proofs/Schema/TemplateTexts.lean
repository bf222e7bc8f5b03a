import SchemaCodec.Proofs.Checked
import SchemaCodec.Proofs.Regex.Language
import SchemaCodec.Schema.Choice

/-!
The texts of templates. Each place of a template has its own language, and the texts of a template are
the products of these languages and of the fixed texts between them. What is put behind a template is
put behind each of its texts, whether it becomes a place of its own or joins the fixed text before it;
so the templates of all combinations of alternatives together have the texts that can be cut into pieces
of the parts.
-/

namespace SchemaCodec

open scoped Computability

/-! ### Numbers -/

namespace TemplateSlot

def IsSign (piece : List Char) : Prop :=
  piece = [] ∨ piece = ['+'] ∨ piece = ['-']

def AreDigits (piece : List Char) : Prop :=
  piece ≠ [] ∧ ∀ c ∈ piece, Text.isDecimalDigit c = true

inductive IsPower : List Char → Prop where
  | mk {letter : Char} {sign digits : List Char} (isLetter : letter = 'E' ∨ letter = 'e')
      (isSign : IsSign sign) (areDigits : AreDigits digits) : IsPower (letter :: (sign ++ digits))

/-- A number: a sign, digits, a point, digits and a power of ten, of which only the digits before the
power must be there. -/
inductive IsNumber : List Char → Prop where
  | mk {sign front point digits power : List Char} (isSign : IsSign sign)
      (isFront : ∀ c ∈ front, Text.isDecimalDigit c = true) (isPoint : point = [] ∨ point = ['.'])
      (areDigits : AreDigits digits) (isPower : power = [] ∨ IsPower power) :
      IsNumber (sign ++ (front ++ (point ++ (digits ++ power))))

private theorem spells_sign : sign.Spells {piece | IsSign piece} := by
  refine (Regex.spells_charClass _).optional.of_iff fun piece => ?_
  rw [Language.mem_add, Language.mem_one, CharClass.mem_singles_union, CharClass.mem_singles_single,
    CharClass.mem_singles_single]
  exact or_comm

private theorem spells_power :
    (Regex.sequence (.charClass (.union (.single 'E') (.single 'e'))) (.sequence sign digits)).Spells
      {piece | IsPower piece} := by
  have letter := Regex.spells_charClass (.union (.single 'E') (.single 'e'))
  have spells := letter.sequence (spells_sign.sequence (Regex.spells_plus_charClass .decimalDigit))
  refine spells.of_iff fun piece => ?_
  constructor
  · rintro ⟨_, isLetter, _, ⟨sign, isSign, digits, areDigits, rfl⟩, rfl⟩
    rcases CharClass.mem_singles_union.mp isLetter with large | small
    · rw [CharClass.mem_singles_single.mp large]
      change IsPower ('E' :: (sign ++ digits))
      exact .mk (Or.inl rfl) isSign areDigits
    · rw [CharClass.mem_singles_single.mp small]
      change IsPower ('e' :: (sign ++ digits))
      exact .mk (Or.inr rfl) isSign areDigits
  · rintro ⟨isLetter, isSign, areDigits⟩
    refine ⟨[_], ?_, _, ⟨_, isSign, _, areDigits, rfl⟩, rfl⟩
    rcases isLetter with rfl | rfl
    · exact CharClass.mem_singles_union.mpr (Or.inl (CharClass.mem_singles_single.mpr rfl))
    · exact CharClass.mem_singles_union.mpr (Or.inr (CharClass.mem_singles_single.mpr rfl))

private theorem spells_number : numberRegex.Spells {piece | IsNumber piece} := by
  have front := Regex.spells_star_charClass .decimalDigit
  have point := (Regex.spells_single '.').optional
  have digits := Regex.spells_plus_charClass .decimalDigit
  have rest := point.sequence (digits.sequence spells_power.optional)
  refine (spells_sign.sequence (front.sequence rest)).of_iff fun piece => ?_
  constructor
  · rintro ⟨sign, isSign, _, ⟨front, isFront, _, ⟨point, isPoint, _, ⟨digits, areDigits, power,
      isPower, rfl⟩, rfl⟩, rfl⟩, rfl⟩
    exact .mk isSign isFront isPoint.symm areDigits isPower.symm
  · rintro ⟨isSign, isFront, isPoint, areDigits, isPower⟩
    exact ⟨_, isSign, _, ⟨_, isFront, _, ⟨_, isPoint.symm, _, ⟨_, areDigits, _, isPower.symm, rfl⟩,
      rfl⟩, rfl⟩, rfl⟩

def texts : TemplateSlot → Language Char
  | .string => {piece | '\n' ∉ piece}
  | .number => {piece | IsNumber piece}

private theorem spells_texts (slot : TemplateSlot) : slot.regex.Spells slot.texts := by
  cases slot with
  | string =>
      refine (Regex.spells_star_charClass .notNewline).of_iff fun piece => ?_
      constructor
      · intro each inPiece
        have accepted := each '\n' inPiece
        cases accepted
      · intro oneLine c inPiece
        have other : (CharClass.single '\n').accepts c = false :=
          Bool.eq_false_iff.mpr fun accepted =>
            oneLine (CharClass.accepts_single.mp accepted ▸ inPiece)
        rw [CharClass.notNewline, CharClass.accepts, other, Bool.not_false]
  | number => exact spells_number

end TemplateSlot

/-! ### Templates -/

namespace Template

def spansTexts : List TemplateSpan → Language Char
  | [] => 1
  | span :: rest => span.slot.texts * ({span.literal.toList} * spansTexts rest)

def texts (template : Template) : Language Char :=
  {template.head.toList} * spansTexts template.spans

private theorem spellsRest_spans (spans : List TemplateSpan) :
    (spansRegex spans).SpellsRest (spansTexts spans) := by
  induction spans with
  | nil => exact Regex.spellsRest_finish
  | cons span rest ih =>
      exact (span.slot.spells_texts).beforeRest ((Regex.spells_ofChars _).beforeRest ih)

/-- A template accepts its texts. -/
theorem accepts_iff {template : Template} {text : String} :
    template.accepts text = true ↔ text.toList ∈ template.texts :=
  ((Regex.spells_ofChars _).beforeRest (spellsRest_spans template.spans)).isFound_iff

/-! ### Putting parts behind a template -/

private theorem spansTexts_append (front back : List TemplateSpan) :
    spansTexts (front ++ back) = spansTexts front * spansTexts back := by
  induction front with
  | nil => exact (one_mul _).symm
  | cons span rest ih => rw [List.cons_append, spansTexts, spansTexts, ih, mul_assoc, mul_assoc]

private theorem texts_addText (template : Template) (text : String) :
    (template.addText text).texts = template.texts * {text.toList} := by
  obtain ⟨head, spans⟩ := template
  unfold addText
  cases reversed : spans.reverse with
  | nil =>
      obtain rfl := List.reverse_eq_nil_iff.mp reversed
      simp only [texts, spansTexts, mul_one, String.toList_append, singleton_mul_singleton]
  | cons last before =>
      obtain rfl : spans = before.reverse ++ [last] := by
        rw [← List.reverse_reverse spans, reversed, List.reverse_cons]
      simp only [texts, List.reverse_cons, spansTexts_append, spansTexts, mul_one, mul_assoc,
        String.toList_append, singleton_mul_singleton]

private theorem texts_addSlot (template : Template) (slot : TemplateSlot) :
    (template.addSlot slot).texts = template.texts * slot.texts := by
  have nothing : ({"".toList} : Language Char) = 1 := rfl
  simp only [addSlot, texts, spansTexts_append, spansTexts, nothing, mul_one, mul_assoc]

end Template

/-- A piece of a text that a part of a template may stand for. -/
inductive PieceOf : Schema → List Char → Prop where
  | literal {part : Schema} {literal : Literal} (isLiteral : part.kind = .literal literal) :
      PieceOf part literal.text.toList
  | string {part : Schema} {piece : List Char} (isString : part.kind = .keyword .string)
      (oneLine : '\n' ∉ piece) : PieceOf part piece
  | number {part : Schema} {piece : List Char} (isNumber : part.kind = .keyword .number)
      (number : TemplateSlot.IsNumber piece) : PieceOf part piece
  | union {part member : Schema} {members : List Schema} {piece : List Char}
      (isUnion : part.kind = .union members) (inUnion : member ∈ members)
      (ofMember : PieceOf member piece) : PieceOf part piece

namespace Template

def pieces (part : Schema) : Language Char := {piece | PieceOf part piece}

/-- What a part stands for, by its kind. -/
private theorem pieceOf_iff {part : Schema} {piece : List Char} :
    PieceOf part piece ↔
      match part.kind with
      | .literal literal => piece = literal.text.toList
      | .keyword .string => '\n' ∉ piece
      | .keyword .number => TemplateSlot.IsNumber piece
      | .union members => ∃ member ∈ members, PieceOf member piece
      | _ => False := by
  constructor
  · intro isPiece
    cases isPiece with
    | literal isLiteral => rw [isLiteral]
    | string isString oneLine => rw [isString]; exact oneLine
    | number isNumber number => rw [isNumber]; exact number
    | union isUnion inUnion ofMember => rw [isUnion]; exact ⟨_, inUnion, ofMember⟩
  · intro stands
    split at stands
    · rename_i isLiteral
      rw [stands]
      exact .literal isLiteral
    · rename_i isString
      exact .string isString stands
    · rename_i isNumber
      exact .number isNumber stands
    · rename_i isUnion
      obtain ⟨member, inUnion, ofMember⟩ := stands
      exact .union isUnion inUnion ofMember
    · exact stands.elim

private theorem pieces_of_literal {part : Schema} {literal : Literal}
    (isLiteral : part.kind = .literal literal) : pieces part = {literal.text.toList} := by
  ext piece
  refine pieceOf_iff.trans ?_
  rw [isLiteral]
  rfl

private theorem pieces_of_slot {part : Schema} {slot : TemplateSlot}
    (isSlot : slot? part = some slot) :
    pieces part = slot.texts := by
  ext piece
  refine pieceOf_iff.trans ?_
  unfold slot? at isSlot
  split at isSlot
  · rename_i isString
    cases isSlot
    rw [isString]
    rfl
  · rename_i isNumber
    cases isSlot
    rw [isNumber]
    rfl
  · cases isSlot

private theorem texts_addPart {template longer : Template} {part : Schema}
    (made : template.addPart part = .ok longer) : longer.texts = template.texts * pieces part := by
  unfold addPart at made
  split at made
  · rename_i literal isLiteral
    cases made
    rw [texts_addText, pieces_of_literal isLiteral]
  · split at made
    · rename_i slot isSlot
      cases made
      rw [texts_addSlot, pieces_of_slot isSlot]
    · cases made

/-- A part stands for what its alternatives stand for. -/
private theorem mem_pieces_iff {part : Schema} {piece : List Char} :
    piece ∈ pieces part ↔ ∃ alternative ∈ alternatives part, piece ∈ pieces alternative := by
  unfold alternatives
  split
  · rename_i members isUnion
    refine pieceOf_iff.trans ?_
    rw [isUnion]
    rfl
  · simp only [List.mem_singleton, exists_eq_left]

def anyTexts (templates : List Template) : Language Char :=
  {text | ∃ template ∈ templates, text ∈ template.texts}

private theorem anyTexts_addAlternatives {templates : List Template} {next : List (List Template)}
    {part : Schema}
    (made : templates.mapM (fun template => (alternatives part).mapM template.addPart) = .ok next) :
    anyTexts next.flatten = anyTexts templates * pieces part := by
  ext text
  constructor
  · rintro ⟨longer, member, inTexts⟩
    obtain ⟨block, inNext, inBlock⟩ := List.mem_flatten.mp member
    obtain ⟨template, inTemplates, expanded⟩ := exists_ok_of_mapM made inNext
    obtain ⟨alternative, inPart, added⟩ := exists_ok_of_mapM expanded inBlock
    rw [texts_addPart added] at inTexts
    obtain ⟨front, inFront, piece, isPiece, rfl⟩ := inTexts
    exact ⟨front, ⟨template, inTemplates, inFront⟩, piece,
      mem_pieces_iff.mpr ⟨alternative, inPart, isPiece⟩, rfl⟩
  · rintro ⟨front, ⟨template, inTemplates, inFront⟩, piece, isPiece, rfl⟩
    obtain ⟨alternative, inPart, ofAlternative⟩ := mem_pieces_iff.mp isPiece
    obtain ⟨block, inNext, expanded⟩ := exists_mem_of_mapM made inTemplates
    obtain ⟨longer, inBlock, added⟩ := exists_mem_of_mapM expanded inPart
    refine ⟨longer, List.mem_flatten.mpr ⟨block, inNext, inBlock⟩, ?_⟩
    rw [texts_addPart added]
    exact Language.append_mem_mul inFront ofAlternative

/-- The texts that can be cut into pieces, one for each part. -/
def cutTexts (parts : List Schema) : Language Char :=
  {text | ∃ cut : List (List Char), List.Forall₂ PieceOf parts cut ∧ cut.flatten = text}

private theorem cutTexts_cons (part : Schema) (rest : List Schema) :
    cutTexts (part :: rest) = pieces part * cutTexts rest := by
  ext text
  constructor
  · rintro ⟨_, here | ⟨isPiece, later⟩, rfl⟩
    exact ⟨_, isPiece, _, ⟨_, later, rfl⟩, rfl⟩
  · rintro ⟨piece, isPiece, _, ⟨cut, later, rfl⟩, rfl⟩
    exact ⟨piece :: cut, .cons isPiece later, rfl⟩

private theorem anyTexts_addParts {templates results : List Template} {parts : List Schema}
    (made : addParts templates parts = .ok results) :
    anyTexts results = anyTexts templates * cutTexts parts := by
  induction parts generalizing templates with
  | nil =>
      cases made
      have nothing : cutTexts [] = 1 := by
        ext text
        constructor
        · rintro ⟨_, ⟨⟩, rfl⟩
          rfl
        · rintro rfl
          exact ⟨[], .nil, rfl⟩
      rw [nothing, mul_one]
  | cons part rest ih =>
      obtain ⟨next, expanded, after⟩ := exists_ok_of_bind made
      rw [ih after, anyTexts_addAlternatives expanded, cutTexts_cons, mul_assoc]

/-- The templates for all combinations of alternatives have the texts that can be cut into pieces of the
parts. -/
theorem exists_template_iff {parts : List Schema} {templates : List Template}
    (made : addParts [⟨"", []⟩] parts = .ok templates) {text : List Char} :
    (∃ template ∈ templates, text ∈ template.texts) ↔
      ∃ cut : List (List Char), List.Forall₂ PieceOf parts cut ∧ cut.flatten = text := by
  have empty : (⟨"", []⟩ : Template).texts = 1 := mul_one _
  have nothing : anyTexts [⟨"", []⟩] = 1 := by
    ext text
    simp only [anyTexts, List.mem_singleton, exists_eq_left, empty]
    rfl
  have same := anyTexts_addParts made
  rw [nothing, one_mul] at same
  exact Set.ext_iff.mp same text

end Template

end SchemaCodec
