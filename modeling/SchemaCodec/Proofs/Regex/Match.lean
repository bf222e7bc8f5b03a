import Mathlib.Data.Finset.Card
import Mathlib.Logic.Relation
import SchemaCodec.Regex.Match

/-!
What matching finds. Matching carries whole sets of places along; it reaches exactly the places at which
single matches end. Only a star needs an argument: it goes on from new places alone, no place is new
twice, and a text has as many places as the star has rounds, so that in the end nothing is left to go on
from.
-/

namespace SchemaCodec

/-! ### Places of one text -/

namespace Place

variable {text : List Char} {place other : Place}

structure LiesIn (text : List Char) (place : Place) : Prop where
  around : place.before.reverse ++ place.after = text
  offset : place.offset = place.before.length

theorem liesIn_start (text : List Char) : (start text).LiesIn text :=
  ⟨rfl, rfl⟩

private theorem LiesIn.eq_of_offset (lies : place.LiesIn text) (liesToo : other.LiesIn text)
    (same : place.offset = other.offset) : place = other := by
  obtain ⟨offset, before, after⟩ := place
  obtain ⟨offsetToo, beforeToo, afterToo⟩ := other
  have around : before.reverse ++ after = beforeToo.reverse ++ afterToo :=
    lies.around.trans liesToo.around.symm
  have lengths : before.reverse.length = beforeToo.reverse.length := by
    rw [List.length_reverse, List.length_reverse]
    exact (lies.offset.symm.trans same).trans liesToo.offset
  obtain ⟨sameBefore, rfl⟩ := List.append_inj around lengths
  obtain rfl := List.reverse_injective sameBefore
  exact congrArg (Place.mk · before after) same

private theorem LiesIn.offset_lt (lies : place.LiesIn text) : place.offset < text.length + 1 := by
  have length := congrArg List.length lies.around
  rw [List.length_append, List.length_reverse, ← lies.offset] at length
  omega

/-- The number of places in the text is found at each of them. -/
theorem LiesIn.placeCount (lies : place.LiesIn text) :
    place.offset + place.after.length + 1 = text.length + 1 := by
  rw [← lies.around, List.length_append, List.length_reverse, lies.offset]

/-- The piece is the text between two places. -/
structure Reads (start : Place) (piece : List Char) (finish : Place) : Prop where
  after : start.after = piece ++ finish.after
  before : finish.before = piece.reverse ++ start.before
  offset : finish.offset = start.offset + piece.length

theorem LiesIn.reads {piece : List Char} (lies : place.LiesIn text) (reads : place.Reads piece other) :
    other.LiesIn text := by
  constructor
  · rw [reads.before, List.reverse_append, List.reverse_reverse, List.append_assoc, ← reads.after]
    exact lies.around
  · rw [reads.before, reads.offset, lies.offset, List.length_append, List.length_reverse, Nat.add_comm]

theorem step?_eq_some {set : CharClass} :
    place.step? set = some other ↔ ∃ c, set.accepts c = true ∧ place.Reads [c] other := by
  obtain ⟨offset, before, after⟩ := place
  cases after with
  | nil =>
      constructor
      · nofun
      · rintro ⟨c, _, reads⟩
        cases reads.after
  | cons c rest =>
      change (if set.accepts c then some (Place.mk (offset + 1) (c :: before) rest) else none) = _ ↔ _
      by_cases accepted : set.accepts c = true
      · rw [if_pos accepted]
        constructor
        · rintro ⟨⟩
          exact ⟨c, accepted, rfl, rfl, rfl⟩
        · rintro ⟨d, _, reads⟩
          obtain ⟨offsetToo, beforeToo, afterToo⟩ := other
          obtain ⟨after, sameBefore, sameOffset⟩ := reads
          dsimp only at after sameBefore sameOffset
          cases after
          rw [sameBefore, sameOffset]
          rfl
      · rw [if_neg accepted]
        constructor
        · nofun
        · rintro ⟨d, isAccepted, reads⟩
          cases reads.after
          exact absurd isAccepted accepted

/-- The places from one place on. -/
private theorem mem_placesFrom {offset : Nat} {before after : List Char}
    (counted : offset = before.length) :
    place ∈ Regex.placesFrom offset before after ↔
      place.LiesIn (before.reverse ++ after) ∧ offset ≤ place.offset := by
  induction after generalizing offset before with
  | nil =>
      have here : LiesIn (before.reverse ++ []) ⟨offset, before, []⟩ := ⟨rfl, counted⟩
      rw [Regex.placesFrom, List.mem_singleton]
      constructor
      · rintro rfl
        exact ⟨here, le_rfl⟩
      · rintro ⟨lies, notBefore⟩
        have bound := lies.offset_lt
        rw [List.append_nil, List.length_reverse, ← counted] at bound
        exact lies.eq_of_offset here (show place.offset = offset by omega)
  | cons c rest ih =>
      have here : LiesIn (before.reverse ++ c :: rest) ⟨offset, before, c :: rest⟩ := ⟨rfl, counted⟩
      have next := @ih (offset + 1) (c :: before) (by rw [counted, List.length_cons])
      rw [List.reverse_cons, List.append_assoc, List.singleton_append] at next
      rw [Regex.placesFrom, List.mem_cons, next]
      constructor
      · rintro (rfl | ⟨lies, later⟩)
        · exact ⟨here, le_rfl⟩
        · exact ⟨lies, by omega⟩
      · rintro ⟨lies, notBefore⟩
        by_cases same : place.offset = offset
        · exact Or.inl (lies.eq_of_offset here same)
        · exact Or.inr ⟨lies, by omega⟩

/-! ### New places -/

def AllIn (text : List Char) (places : List Place) : Prop :=
  ∀ place ∈ places, place.LiesIn text

private theorem AllIn.known_iff {known : List Place} (knownIn : AllIn text known)
    (lies : place.LiesIn text) :
    (known.any fun p => p.offset = place.offset) = true ↔ place ∈ known := by
  rw [List.any_eq_true]
  constructor
  · rintro ⟨p, inKnown, same⟩
    rw [← (knownIn p inKnown).eq_of_offset lies (of_decide_eq_true same)]
    exact inKnown
  · exact fun inKnown => ⟨place, inKnown, decide_eq_true rfl⟩

/-- All places are the known ones and those of the list; new ones are those that were not known. -/
private theorem mem_addNew {known list : List Place} (knownIn : AllIn text known)
    (listIn : AllIn text list)
    (place : Place) :
    (place ∈ (addNew known list).1 ↔ place ∈ known ∨ place ∈ list) ∧
      (place ∈ (addNew known list).2 ↔ place ∈ list ∧ place ∉ known) := by
  induction list generalizing known with
  | nil => simp [addNew]
  | cons first rest ih =>
      obtain ⟨here, later⟩ := List.forall_mem_cons.mp listIn
      rw [addNew]
      split
      · rename_i seen
        have inKnown : first ∈ known := (knownIn.known_iff here).mp seen
        obtain ⟨all, new⟩ := ih knownIn later
        rw [all, new, List.mem_cons]
        constructor
        · constructor <;> grind
        · constructor <;> grind
      · rename_i unseen
        have unknown : first ∉ known := fun inKnown => unseen ((knownIn.known_iff here).mpr inKnown)
        obtain ⟨all, new⟩ := ih (List.forall_mem_cons.mpr ⟨here, knownIn⟩) later
        simp only [List.mem_cons] at all new ⊢
        rw [all, new]
        constructor
        · constructor <;> grind
        · constructor <;> grind

end Place

namespace Regex

open Place

/-! ### Single matches -/

/-- A match of the expression from the first place to the second one. -/
inductive Matches : Regex → Place → Place → Prop where
  | empty {place : Place} : Matches .empty place place
  | charClass {set : CharClass} {place next : Place} (stepped : place.step? set = some next) :
      Matches (.charClass set) place next
  | assertion {condition : Assertion} {place : Place} (holds : condition.holds place = true) :
      Matches (.assertion condition) place place
  | sequence {first second : Regex} {start middle finish : Place}
      (here : Matches first start middle) (later : Matches second middle finish) :
      Matches (.sequence first second) start finish
  | left {left right : Regex} {start finish : Place} (one : Matches left start finish) :
      Matches (.alternative left right) start finish
  | right {left right : Regex} {start finish : Place} (one : Matches right start finish) :
      Matches (.alternative left right) start finish
  | stop {inner : Regex} {place : Place} : Matches (.star inner) place place
  | again {inner : Regex} {start middle finish : Place} (before : Matches (.star inner) start middle)
      (last : Matches inner middle finish) : Matches (.star inner) start finish

variable {text : List Char} {start finish : Place}

private theorem Matches.liesIn {regex : Regex} (found : Matches regex start finish)
    (lies : start.LiesIn text) : finish.LiesIn text := by
  induction found with
  | empty => exact lies
  | charClass stepped =>
      obtain ⟨_, _, reads⟩ := step?_eq_some.mp stepped
      exact lies.reads reads
  | assertion _ => exact lies
  | sequence _ _ here later => exact later (here lies)
  | left _ ih => exact ih lies
  | right _ ih => exact ih lies
  | stop => exact lies
  | again _ _ before last => exact last (before lies)

theorem matches_star_iff {inner : Regex} :
    Matches (.star inner) start finish ↔ Relation.ReflTransGen (Matches inner) start finish := by
  constructor
  · intro found
    generalize isStar : Regex.star inner = whole at found
    induction found with
    | stop => exact .refl
    | again _ last before _ =>
        cases isStar
        exact (before rfl).tail last
    | _ => cases isStar
  · intro way
    induction way with
    | refl => exact .stop
    | tail _ last ih => exact .again ih last

/-! ### Going on until nothing is new -/

def missing (text : List Char) (known : List Place) : Finset Nat :=
  Finset.range (text.length + 1) \ (known.map Place.offset).toFinset

private theorem missing_ssubset {known all : List Place} {place : Place}
    (knownIn : AllIn text known)
    (more : known ⊆ all) (lies : place.LiesIn text) (unknown : place ∉ known) (added : place ∈ all) :
    missing text all ⊂ missing text known := by
  rw [Finset.ssubset_iff_of_subset]
  · refine ⟨place.offset, ?_, ?_⟩
    · rw [missing, Finset.mem_sdiff, Finset.mem_range, List.mem_toFinset]
      refine ⟨lies.offset_lt, fun inOffsets => ?_⟩
      obtain ⟨other, inKnown, same⟩ := List.mem_map.mp inOffsets
      rw [(knownIn other inKnown).eq_of_offset lies same] at inKnown
      exact unknown inKnown
    · rw [missing, Finset.mem_sdiff, List.mem_toFinset]
      exact fun absent => absent.2 (List.mem_map_of_mem added)
  · refine Finset.sdiff_subset_sdiff (Finset.Subset.refl _) fun offset inOffsets => ?_
    rw [List.mem_toFinset] at inOffsets ⊢
    exact List.map_subset _ more inOffsets

private theorem missing_card_lt {known : List Place} {place : Place} (lies : place.LiesIn text)
    (inKnown : place ∈ known) : (missing text known).card < text.length + 1 := by
  rw [← Finset.card_range (text.length + 1)]
  refine Finset.card_lt_card ((Finset.ssubset_iff_of_subset Finset.sdiff_subset).mpr
    ⟨place.offset, Finset.mem_range.mpr lies.offset_lt, ?_⟩)
  rw [Finset.mem_sdiff, List.mem_toFinset]
  exact fun absent => absent.2 (List.mem_map_of_mem inKnown)

structure Reaching (text : List Char) (step : List Place → List Place)
    (reaches : Place → Place → Prop) : Prop where
  mem_step : ∀ {places}, AllIn text places →
    ∀ place, place ∈ step places ↔ ∃ start ∈ places, reaches start place
  stays : ∀ {start finish}, reaches start finish → start.LiesIn text → finish.LiesIn text

private theorem Reaching.allIn {step : List Place → List Place} {reaches : Place → Place → Prop}
    (reaching : Reaching text step reaches) {places : List Place} (placesIn : AllIn text places) :
    AllIn text (step places) := by
  intro place member
  obtain ⟨start, inPlaces, reached⟩ := (reaching.mem_step placesIn place).mp member
  exact reaching.stays reached (placesIn start inPlaces)

/-- The places that are known, of which only the fresh ones may lead to places that are not. -/
structure Searched (text : List Char) (reaches : Place → Place → Prop) (known fresh : List Place) :
    Prop where
  knownIn : AllIn text known
  isKnown : fresh ⊆ known
  closed : ∀ start ∈ known, start ∉ fresh → ∀ next, reaches start next → next ∈ known

/-- With nothing left to go on from, all that can be reached is known. -/
private theorem Searched.mem_iff_reachable {reaches : Place → Place → Prop} {known : List Place}
    (searched : Searched text reaches known []) {place : Place} :
    place ∈ known ↔ ∃ start ∈ known, Relation.ReflTransGen reaches start place := by
  constructor
  · exact fun inKnown => ⟨place, inKnown, .refl⟩
  · rintro ⟨start, inKnown, way⟩
    induction way with
    | refl => exact inKnown
    | tail _ last ih => exact searched.closed _ ih List.not_mem_nil _ last

section Round

variable {step : List Place → List Place} {reaches : Place → Place → Prop}
  {known fresh all new : List Place} (reaching : Reaching text step reaches)
  (searched : Searched text reaches known fresh) (grown : addNew known (step fresh) = (all, new))

include reaching searched

private theorem Searched.freshIn : AllIn text fresh ∧ AllIn text (step fresh) := by
  have freshIn : AllIn text fresh := fun place isFresh =>
    searched.knownIn place (searched.isKnown isFresh)
  exact ⟨freshIn, reaching.allIn freshIn⟩

include grown

private theorem Searched.mem_round (place : Place) :
    (place ∈ all ↔ place ∈ known ∨ place ∈ step fresh) ∧
      (place ∈ new ↔ place ∈ step fresh ∧ place ∉ known) := by
  have added := mem_addNew searched.knownIn (searched.freshIn reaching).2 place
  rwa [grown] at added

/-- A round goes on from the fresh places, and those that come up are the fresh ones then. -/
theorem Searched.round : Searched text reaches all new := by
  obtain ⟨freshIn, stepIn⟩ := searched.freshIn reaching
  have mem_all (place : Place) := (searched.mem_round reaching grown place).1
  have mem_new (place : Place) := (searched.mem_round reaching grown place).2
  constructor
  · exact fun place inAll => ((mem_all place).mp inAll).elim (searched.knownIn place) (stepIn place)
  · exact fun place inNew => (mem_all place).mpr (Or.inr ((mem_new place).mp inNew).1)
  · intro start inAll notNew next reached
    have inKnown : start ∈ known := by
      by_contra unknown
      have inStep := ((mem_all start).mp inAll).resolve_left unknown
      exact notNew ((mem_new start).mpr ⟨inStep, unknown⟩)
    by_cases isFresh : start ∈ fresh
    · have inStep := (reaching.mem_step freshIn next).mpr ⟨start, isFresh, reached⟩
      exact (mem_all next).mpr (Or.inr inStep)
    · exact (mem_all next).mpr (Or.inl (searched.closed start inKnown isFresh next reached))

private theorem Searched.fewer_missing (some : new ≠ []) :
    (missing text all).card < (missing text known).card := by
  obtain ⟨place, inNew⟩ := List.exists_mem_of_ne_nil new some
  have mem_all (other : Place) := (searched.mem_round reaching grown other).1
  obtain ⟨inStep, unknown⟩ := (searched.mem_round reaching grown place).2.mp inNew
  have more : known ⊆ all := fun other inKnown => (mem_all other).mpr (Or.inl inKnown)
  have added : place ∈ all := (mem_all place).mpr (Or.inr inStep)
  exact Finset.card_lt_card (missing_ssubset searched.knownIn more
    ((searched.freshIn reaching).2 place inStep) unknown added)

/-- A round adds nothing that could not be reached before. -/
private theorem Searched.reachable_round {place : Place} :
    (∃ start ∈ all, Relation.ReflTransGen reaches start place) ↔
      ∃ start ∈ known, Relation.ReflTransGen reaches start place := by
  have mem_all (other : Place) := (searched.mem_round reaching grown other).1
  constructor
  · rintro ⟨start, inAll, way⟩
    rcases (mem_all start).mp inAll with inKnown | inStep
    · exact ⟨start, inKnown, way⟩
    · obtain ⟨before, isFresh, reached⟩ :=
        (reaching.mem_step (searched.freshIn reaching).1 start).mp inStep
      exact ⟨before, searched.isKnown isFresh, .head reached way⟩
  · rintro ⟨start, inKnown, way⟩
    exact ⟨start, (mem_all start).mpr (Or.inl inKnown), way⟩

end Round

/-- Where the rounds are enough for all places that are missing, what is reached at last is what can be
reached in any number of steps. -/
private theorem mem_closure {step : List Place → List Place} {reaches : Place → Place → Prop}
    (reaching : Reaching text step reaches) {rounds : Nat} {known fresh : List Place}
    (searched : Searched text reaches known fresh)
    (enough : fresh = [] ∨ (missing text known).card < rounds) {place : Place} :
    place ∈ closure step rounds known fresh ↔
      ∃ start ∈ known, Relation.ReflTransGen reaches start place := by
  -- Each round that comes upon new places leaves fewer missing, so the rounds last.
  induction rounds generalizing known fresh with
  | zero =>
      obtain rfl := enough.resolve_right (Nat.not_lt_zero _)
      exact searched.mem_iff_reachable
  | succ rounds ih =>
      cases fresh with
      | nil => exact searched.mem_iff_reachable
      | cons first others =>
          obtain ⟨all, new, grown⟩ : ∃ all new, addNew known (step (first :: others)) = (all, new) :=
            ⟨_, _, rfl⟩
          have next : closure step (rounds + 1) known (first :: others) =
              closure step rounds all new := by
            simp only [closure, grown]
          have enoughAgain : new = [] ∨ (missing text all).card < rounds := by
            by_cases none : new = []
            · exact Or.inl none
            · have fewer := searched.fewer_missing reaching grown none
              have before := enough.resolve_left (List.cons_ne_nil _ _)
              right
              omega
          rw [next, ih (searched.round reaching grown) enoughAgain]
          exact searched.reachable_round reaching grown

/-! ### Sets of matches -/

/-- A set of places leads to the places where matches from them end. -/
private theorem mem_ends {regex : Regex} {places : List Place} (placesIn : AllIn text places)
    (place : Place) :
    place ∈ regex.ends places ↔ ∃ start ∈ places, Matches regex start place := by
  have allIn {regex : Regex} {places : List Place} (placesIn : AllIn text places)
      (found : ∀ p, p ∈ regex.ends places ↔ ∃ start ∈ places, Matches regex start p) :
      AllIn text (regex.ends places) := by
    intro p member
    obtain ⟨start, inPlaces, reached⟩ := (found p).mp member
    exact reached.liesIn (placesIn start inPlaces)
  induction regex generalizing places place with
  | empty =>
      rw [ends]
      constructor
      · exact fun member => ⟨place, member, .empty⟩
      · rintro ⟨_, member, ⟨⟩⟩
        exact member
  | charClass set =>
      rw [ends, List.mem_filterMap]
      constructor
      · rintro ⟨start, member, stepped⟩
        exact ⟨start, member, .charClass stepped⟩
      · rintro ⟨start, member, found⟩
        cases found with
        | charClass stepped => exact ⟨start, member, stepped⟩
  | assertion condition =>
      rw [ends, List.mem_filter]
      constructor
      · rintro ⟨member, holds⟩
        exact ⟨place, member, .assertion holds⟩
      · rintro ⟨start, member, found⟩
        cases found with
        | assertion holds => exact ⟨member, holds⟩
  | sequence first second here later =>
      have reached := later (allIn placesIn (here placesIn)) place
      rw [ends]
      refine reached.trans ⟨?_, ?_⟩
      · rintro ⟨middle, member, second⟩
        obtain ⟨start, inPlaces, first⟩ := (here placesIn middle).mp member
        exact ⟨start, inPlaces, .sequence first second⟩
      · rintro ⟨start, inPlaces, found⟩
        cases found with
        | sequence first second => exact ⟨_, (here placesIn _).mpr ⟨start, inPlaces, first⟩, second⟩
  | alternative left right inLeft inRight =>
      have reached := (mem_addNew (allIn placesIn (inLeft placesIn))
        (allIn placesIn (inRight placesIn)) place).1.trans
          (or_congr (inLeft placesIn place) (inRight placesIn place))
      rw [ends]
      refine reached.trans ⟨?_, ?_⟩
      · rintro (⟨start, member, one⟩ | ⟨start, member, one⟩)
        · exact ⟨start, member, .left one⟩
        · exact ⟨start, member, .right one⟩
      · rintro ⟨start, member, found⟩
        cases found with
        | left one => exact Or.inl ⟨start, member, one⟩
        | right one => exact Or.inr ⟨start, member, one⟩
  | star inner ih =>
      have reaching : Reaching text inner.ends (Matches inner) :=
        ⟨fun placesIn place => ih placesIn place, Matches.liesIn⟩
      have enough : places = [] ∨ (missing text places).card < placeCount places := by
        cases places with
        | nil => exact Or.inl rfl
        | cons first rest =>
            have lies := placesIn first List.mem_cons_self
            rw [placeCount, lies.placeCount]
            exact Or.inr (missing_card_lt lies List.mem_cons_self)
      have searched : Searched text (Matches inner) places places :=
        ⟨placesIn, List.Subset.refl _, fun _ member notFresh => absurd member notFresh⟩
      rw [ends, mem_closure reaching searched enough]
      simp only [matches_star_iff]

/-- A search finds a match from any place of the text to any other. -/
theorem isFoundInChars_iff {regex : Regex} :
    regex.isFoundInChars text = true ↔
      ∃ start finish, start.LiesIn text ∧ Matches regex start finish := by
  have places (place : Place) : place ∈ placesFrom 0 [] text ↔ place.LiesIn text :=
    (@mem_placesFrom place 0 [] text rfl).trans (and_iff_left (Nat.zero_le _))
  have placesIn : AllIn text (placesFrom 0 [] text) := fun place => (places place).mp
  rw [isFoundInChars, Bool.not_eq_true', List.isEmpty_eq_false_iff_exists_mem]
  constructor
  · rintro ⟨finish, member⟩
    obtain ⟨start, inPlaces, found⟩ := (mem_ends placesIn finish).mp member
    exact ⟨start, finish, placesIn start inPlaces, found⟩
  · rintro ⟨start, finish, lies, found⟩
    exact ⟨finish, (mem_ends placesIn finish).mpr ⟨start, (places start).mpr lies, found⟩⟩

end Regex

end SchemaCodec
