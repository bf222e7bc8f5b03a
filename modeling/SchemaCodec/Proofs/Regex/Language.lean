import Mathlib.Computability.Language
import SchemaCodec.Proofs.Regex.Match

/-!
Languages of expressions. An expression without assertions looks at nothing but the piece that it
matches, so it has a language in the usual sense; between the start and the end of a text it matches the
texts of that language.
-/

namespace SchemaCodec

open scoped Computability

theorem singleton_mul_singleton (front back : List Char) :
    ({front} * {back} : Language Char) = {front ++ back} :=
  Set.image2_singleton

namespace CharClass

def singles (set : CharClass) : Language Char := {piece | ∃ c, piece = [c] ∧ set.accepts c = true}

def runs (set : CharClass) : Language Char := {piece | ∀ c ∈ piece, set.accepts c = true}

def someRuns (set : CharClass) : Language Char := {piece | piece ≠ [] ∧ piece ∈ set.runs}

theorem accepts_single {c d : Char} : (single c).accepts d = true ↔ d = c := by
  rw [single, accepts, Bool.and_eq_true, decide_eq_true_iff, decide_eq_true_iff]
  constructor
  · rintro ⟨below, above⟩
    exact Char.le_antisymm above below
  · rintro rfl
    exact ⟨Char.le_refl _, Char.le_refl _⟩

theorem mem_singles_single {c : Char} {piece : List Char} :
    piece ∈ (single c).singles ↔ piece = [c] := by
  constructor
  · rintro ⟨d, rfl, accepted⟩
    rw [accepts_single.mp accepted]
  · rintro rfl
    exact ⟨c, rfl, accepts_single.mpr rfl⟩

theorem mem_singles_union {left right : CharClass} {piece : List Char} :
    piece ∈ (union left right).singles ↔ piece ∈ left.singles ∨ piece ∈ right.singles := by
  simp only [singles, accepts, Bool.or_eq_true]
  constructor
  · rintro ⟨c, rfl, inLeft | inRight⟩
    · exact Or.inl ⟨c, rfl, inLeft⟩
    · exact Or.inr ⟨c, rfl, inRight⟩
  · rintro (⟨c, rfl, inLeft⟩ | ⟨c, rfl, inRight⟩)
    · exact ⟨c, rfl, Or.inl inLeft⟩
    · exact ⟨c, rfl, Or.inr inRight⟩

private theorem kstar_singles (set : CharClass) : set.singles∗ = set.runs := by
  ext piece
  rw [Language.mem_kstar]
  constructor
  · rintro ⟨pieces, rfl, each⟩ c member
    obtain ⟨single, inPieces, inSingle⟩ := List.mem_flatten.mp member
    obtain ⟨d, rfl, accepted⟩ := each single inPieces
    rw [List.mem_singleton.mp inSingle]
    exact accepted
  · intro each
    refine ⟨piece.map fun c => [c], ?_, ?_⟩
    · rw [← List.flatMap_def, List.flatMap_singleton']
    · intro single member
      obtain ⟨c, inPiece, rfl⟩ := List.mem_map.mp member
      exact ⟨c, rfl, each c inPiece⟩

private theorem singles_mul_runs (set : CharClass) : set.singles * set.runs = set.someRuns := by
  ext piece
  rw [Language.mem_mul]
  constructor
  · rintro ⟨_, ⟨c, rfl, accepted⟩, rest, each, rfl⟩
    exact ⟨List.cons_ne_nil _ _, List.forall_mem_cons.mpr ⟨accepted, each⟩⟩
  · rintro ⟨notEmpty, each⟩
    cases piece with
    | nil => exact absurd rfl notEmpty
    | cons c rest =>
        obtain ⟨accepted, others⟩ := List.forall_mem_cons.mp each
        exact ⟨[c], ⟨c, rfl, accepted⟩, rest, others, rfl⟩

end CharClass

namespace Place

variable {start middle finish : Place} {piece more : List Char}

private theorem reads_nil_iff : start.Reads [] finish ↔ start = finish := by
  constructor
  · rintro ⟨after, before, offset⟩
    cases start
    cases finish
    exact (Place.mk.injEq ..).mpr ⟨offset.symm, before.symm, after⟩
  · rintro rfl
    exact ⟨rfl, rfl, rfl⟩

theorem Reads.append (here : start.Reads piece middle) (later : middle.Reads more finish) :
    start.Reads (piece ++ more) finish := by
  constructor
  · rw [here.after, later.after, List.append_assoc]
  · rw [later.before, here.before, List.reverse_append, List.append_assoc]
  · rw [later.offset, here.offset, List.length_append, Nat.add_assoc]

/-- The place after a piece that comes next. -/
private theorem exists_reads {rest : List Char} (comes : start.after = piece ++ rest) :
    ∃ middle, start.Reads piece middle ∧ middle.after = rest :=
  ⟨⟨start.offset + piece.length, piece.reverse ++ start.before, rest⟩, ⟨comes, rfl, rfl⟩, rfl⟩

private theorem reads_append_iff :
    start.Reads (piece ++ more) finish ↔
      ∃ middle, start.Reads piece middle ∧ middle.Reads more finish := by
  constructor
  · intro whole
    obtain ⟨middle, here, rest⟩ := exists_reads (whole.after.trans (List.append_assoc ..))
    refine ⟨middle, here, rest, ?_, ?_⟩
    · rw [whole.before, here.before, List.reverse_append, List.append_assoc]
    · rw [whole.offset, here.offset, List.length_append, Nat.add_assoc]
  · rintro ⟨middle, here, later⟩
    exact here.append later

end Place

namespace Regex

open Place

/-- The expression matches the pieces of the language, wherever they stand. -/
def Spells (regex : Regex) (language : Language Char) : Prop :=
  ∀ start finish, Matches regex start finish ↔ ∃ piece ∈ language, start.Reads piece finish

variable {first second inner rest : Regex} {here later : Language Char}

private theorem spells_empty : Spells .empty 1 := by
  intro start finish
  constructor
  · rintro ⟨⟩
    exact ⟨[], Language.nil_mem_one, reads_nil_iff.mpr rfl⟩
  · rintro ⟨piece, rfl, reads⟩
    rw [reads_nil_iff.mp reads]
    exact .empty

theorem spells_charClass (set : CharClass) :
    Spells (.charClass set) set.singles := by
  intro start finish
  constructor
  · intro found
    cases found with
    | charClass stepped =>
        obtain ⟨c, accepted, reads⟩ := step?_eq_some.mp stepped
        exact ⟨[c], ⟨c, rfl, accepted⟩, reads⟩
  · rintro ⟨_, ⟨c, rfl, accepted⟩, reads⟩
    exact .charClass (step?_eq_some.mpr ⟨c, accepted, reads⟩)

theorem Spells.sequence (spellsFirst : Spells first here) (spellsSecond : Spells second later) :
    Spells (.sequence first second) (here * later) := by
  intro start finish
  constructor
  · intro found
    cases found with
    | sequence one other =>
        obtain ⟨piece, inHere, reads⟩ := (spellsFirst _ _).mp one
        obtain ⟨more, inLater, readsMore⟩ := (spellsSecond _ _).mp other
        exact ⟨piece ++ more, Language.append_mem_mul inHere inLater, reads.append readsMore⟩
  · rintro ⟨_, ⟨piece, inHere, more, inLater, rfl⟩, reads⟩
    obtain ⟨middle, readsHere, readsMore⟩ := reads_append_iff.mp reads
    exact .sequence ((spellsFirst _ _).mpr ⟨piece, inHere, readsHere⟩)
      ((spellsSecond _ _).mpr ⟨more, inLater, readsMore⟩)

theorem Spells.alternative (spellsFirst : Spells first here) (spellsSecond : Spells second later) :
    Spells (.alternative first second) (here + later) := by
  intro start finish
  constructor
  · intro found
    cases found with
    | left one =>
        obtain ⟨piece, inHere, reads⟩ := (spellsFirst _ _).mp one
        exact ⟨piece, Or.inl inHere, reads⟩
    | right one =>
        obtain ⟨piece, inLater, reads⟩ := (spellsSecond _ _).mp one
        exact ⟨piece, Or.inr inLater, reads⟩
  · rintro ⟨piece, inHere | inLater, reads⟩
    · exact .left ((spellsFirst _ _).mpr ⟨piece, inHere, reads⟩)
    · exact .right ((spellsSecond _ _).mpr ⟨piece, inLater, reads⟩)

theorem Spells.star (spells : Spells inner here) : Spells (.star inner) here∗ := by
  intro start finish
  rw [matches_star_iff]
  constructor
  · intro way
    induction way with
    | refl => exact ⟨[], Language.nil_mem_kstar _, reads_nil_iff.mpr rfl⟩
    | tail _ last ih =>
        obtain ⟨before, inStar, reads⟩ := ih
        obtain ⟨piece, inHere, readsPiece⟩ := (spells _ _).mp last
        obtain ⟨pieces, rfl, each⟩ := Language.mem_kstar.mp inStar
        refine ⟨pieces.flatten ++ piece, Language.mem_kstar.mpr ⟨pieces ++ [piece], ?_, ?_⟩,
          reads.append readsPiece⟩
        · rw [List.flatten_append, List.flatten_singleton]
        · intro other member
          rcases List.mem_append.mp member with old | new
          · exact each other old
          · rw [List.mem_singleton.mp new]
            exact inHere
  · rintro ⟨_, inStar, reads⟩
    obtain ⟨pieces, rfl, each⟩ := Language.mem_kstar.mp inStar
    induction pieces generalizing start with
    | nil =>
        rw [reads_nil_iff.mp reads]
    | cons piece others ih =>
        obtain ⟨one, rest⟩ := List.forall_mem_cons.mp each
        obtain ⟨middle, readsHere, readsMore⟩ := reads_append_iff.mp reads
        exact .head ((spells _ _).mpr ⟨piece, one, readsHere⟩)
          (ih middle rest (Language.join_mem_kstar rest) readsMore)

theorem Spells.of_iff {regex : Regex} (spells : Spells regex here)
    (same : ∀ piece, piece ∈ here ↔ piece ∈ later) : Spells regex later := by
  obtain rfl : here = later := Language.ext same
  exact spells

theorem spells_single (c : Char) : Spells (.charClass (.single c)) {[c]} :=
  (spells_charClass _).of_iff fun _ => CharClass.mem_singles_single

theorem spells_ofChars (chars : List Char) : Spells (.ofChars chars) {chars} := by
  induction chars with
  | nil => exact spells_empty
  | cons c rest ih =>
      have joined := singleton_mul_singleton [c] rest
      rw [List.singleton_append] at joined
      rw [← joined]
      exact (spells_single c).sequence ih

theorem Spells.optional (spells : Spells inner here) : Spells (.optional inner) (here + 1) :=
  spells.alternative spells_empty

theorem spells_star_charClass (set : CharClass) : Spells (.star (.charClass set)) set.runs := by
  rw [← set.kstar_singles]
  exact (spells_charClass set).star

theorem spells_plus_charClass (set : CharClass) : Spells (.plus (.charClass set)) set.someRuns := by
  rw [← set.singles_mul_runs]
  exact (spells_charClass set).sequence (spells_star_charClass set)

/-! ### Whole texts -/

/-- From a place on the expression matches the texts of the language, to their end. -/
def SpellsRest (regex : Regex) (language : Language Char) : Prop :=
  ∀ start, (∃ finish, Matches regex start finish) ↔ start.after ∈ language

theorem spellsRest_finish : SpellsRest (.assertion .finish) 1 := by
  intro start
  rw [Language.mem_one]
  constructor
  · rintro ⟨_, found⟩
    cases found with
    | assertion holds => exact List.isEmpty_iff.mp holds
  · intro atEnd
    exact ⟨start, .assertion (List.isEmpty_iff.mpr atEnd)⟩

theorem Spells.beforeRest (spells : Spells first here) (spellsRest : SpellsRest rest later) :
    SpellsRest (.sequence first rest) (here * later) := by
  intro start
  constructor
  · rintro ⟨finish, found⟩
    cases found with
    | sequence one other =>
        obtain ⟨piece, inHere, reads⟩ := (spells _ _).mp one
        rw [reads.after]
        exact Language.append_mem_mul inHere ((spellsRest _).mp ⟨_, other⟩)
  · rintro ⟨piece, inHere, more, inLater, whole⟩
    obtain ⟨middle, reads, comes⟩ := exists_reads whole.symm
    obtain ⟨finish, found⟩ := (spellsRest middle).mpr (comes ▸ inLater)
    exact ⟨finish, .sequence ((spells _ _).mpr ⟨piece, inHere, reads⟩) found⟩

/-- An expression that begins at the start of the text is searched for there only. -/
theorem SpellsRest.isFound_iff (spells : SpellsRest rest here) {text : List Char} :
    (Regex.sequence (.assertion .start) rest).isFoundInChars text = true ↔ text ∈ here := by
  rw [isFoundInChars_iff]
  constructor
  · rintro ⟨start, finish, lies, found⟩
    cases found with
    | sequence one other =>
        cases one with
        | assertion holds =>
            have atStart : start.before = [] := List.isEmpty_iff.mp holds
            have whole := lies.around
            rw [atStart] at whole
            rw [← whole]
            exact (spells start).mp ⟨finish, other⟩
  · intro inLanguage
    obtain ⟨finish, found⟩ := (spells (Place.start text)).mpr inLanguage
    exact ⟨Place.start text, finish, liesIn_start text, .sequence (.assertion rfl) found⟩

end Regex

end SchemaCodec
