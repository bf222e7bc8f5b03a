import Mathlib.Algebra.Group.Nat.Defs
import Mathlib.Data.List.Forall2
import SchemaCodec.Symbol

/-!
Which symbols are the same. A supply numbers the symbols it makes one after the other and keeps the
registered ones, so that among no more symbols than there are numbers two answers are the same symbol
exactly if both were asked for under the same key.
-/

namespace SchemaCodec.SymbolSupply

def Call.key? : Call → Option String
  | .describe _ => none
  | .anonymous => none
  | .register key => some key

/-- How many symbols are made for the calls if symbols are registered under the known keys. -/
def creations (known : List String) : List Call → Nat
  | [] => 0
  | .register key :: rest =>
    if key ∈ known then creations known rest else creations (key :: known) rest + 1
  | _ :: rest => creations known rest + 1

def keys (supply : SymbolSupply) : List String := supply.registered.map (·.1)

def numberAt (first : UInt64) (ordinal : Nat) : UInt64 := first + UInt64.ofNat ordinal

def MadeIn (first : UInt64) (low high : Nat) (symbol : Symbol) : Prop :=
  ∃ ordinal, low ≤ ordinal ∧ ordinal < high ∧ symbol.number = numberAt first ordinal

/-- So many symbols were made, and each registered one is one of them with its own key. -/
structure Sound (first : UInt64) (count : Nat) (supply : SymbolSupply) : Prop where
  next_eq : supply.next = numberAt first count
  registered : ∀ key symbol, supply.registered.lookup key = some symbol →
    symbol.key? = some key ∧ MadeIn first 0 count symbol
  apart : ∀ key other symbol another, supply.registered.lookup key = some symbol →
    supply.registered.lookup other = some another → symbol.number = another.number → key = other

inductive Gives (supply : SymbolSupply) : Call → Symbol → SymbolSupply → Nat → Prop where
  | fresh {call : Call} (noKey : call.key? = none) (description : Option String) :
      Gives supply call ⟨supply.next, description, false⟩ { supply with next := supply.next + 1 } 1
  | known {key : String} {symbol : Symbol} (found : supply.registered.lookup key = some symbol) :
      Gives supply (.register key) symbol supply 0
  | registered {key : String} (unknown : supply.registered.lookup key = none) :
      Gives supply (.register key) ⟨supply.next, some key, true⟩
        ⟨supply.next + 1, (key, ⟨supply.next, some key, true⟩) :: supply.registered⟩ 1

/-- Where an answer comes from: it is registered already, or it is made in the given stretch. -/
inductive Origin (first : UInt64) (low high : Nat) (registered : List (String × Symbol)) :
    Call → Symbol → Prop where
  | known {key : String} {symbol : Symbol} (found : registered.lookup key = some symbol) :
      Origin first low high registered (.register key) symbol
  | made {call : Call} {symbol : Symbol}
      (unknown : ∀ key, call = .register key → registered.lookup key = none)
      (keyed : symbol.key? = call.key?)
      (madeIn : MadeIn first low high symbol) : Origin first low high registered call symbol

/-- Two answers are the same symbol if both calls ask for the same key, and otherwise their numbers
differ. -/
structure ToldApart (asked askedToo : Call × Symbol) : Prop where
  shared : ∀ key, asked.1 = .register key → askedToo.1 = .register key → asked.2 = askedToo.2
  apart : asked.2.number = askedToo.2.number →
    ∃ key, asked.1 = .register key ∧ askedToo.1 = .register key

variable {first : UInt64} {supply after : SymbolSupply} {count made low high : Nat} {key : String}
  {symbol another : Symbol} {call other : Call} {calls : List Call}

theorem ToldApart.symm {asked askedToo : Call × Symbol} (told : ToldApart asked askedToo) :
    ToldApart askedToo asked where
  shared key isKey isKeyToo := (told.shared key isKeyToo isKey).symm
  apart same := by
    obtain ⟨key, isKey, isKeyToo⟩ := told.apart same.symm
    exact ⟨key, isKeyToo, isKey⟩

private theorem numberAt_succ (first : UInt64) (ordinal : Nat) :
    numberAt first ordinal + 1 = numberAt first (ordinal + 1) := by
  rw [numberAt, numberAt, UInt64.ofNat_add, UInt64.add_assoc]
  rfl

/-- Numbers come again only after all of them were given. -/
private theorem numberAt_inj {ordinal later : Nat} (small : ordinal < 2 ^ 64)
    (smallToo : later < 2 ^ 64)
    (same : numberAt first ordinal = numberAt first later) : ordinal = later := by
  have words := congrArg UInt64.toNat ((UInt64.add_right_inj first).mp same)
  rwa [UInt64.toNat_ofNat', UInt64.toNat_ofNat', Nat.mod_eq_of_lt small, Nat.mod_eq_of_lt smallToo]
    at words

theorem MadeIn.mono {lower higher : Nat} (madeIn : MadeIn first low high symbol)
    (down : lower ≤ low) (up : high ≤ higher) : MadeIn first lower higher symbol := by
  obtain ⟨ordinal, atLeast, below, number⟩ := madeIn
  exact ⟨ordinal, Nat.le_trans down atLeast, Nat.lt_of_lt_of_le below up, number⟩

private theorem MadeIn.number_ne {middle : Nat} (few : high ≤ 2 ^ 64)
    (madeIn : MadeIn first low middle symbol) (madeLater : MadeIn first middle high another) :
    symbol.number ≠ another.number := by
  obtain ⟨ordinal, _, below, number⟩ := madeIn
  obtain ⟨later, atLeast, bound, numberToo⟩ := madeLater
  rw [number, numberToo]
  intro same
  have := numberAt_inj (by omega) (by omega) same
  omega

private theorem lookup_eq_none_iff : supply.registered.lookup key = none ↔ key ∉ supply.keys := by
  rw [List.lookup_eq_none_iff, keys, List.mem_map]
  constructor
  · rintro apart ⟨entry, member, rfl⟩
    simpa using apart entry member
  · intro unknown entry member
    rw [bne_iff_ne]
    rintro rfl
    exact unknown ⟨entry, member, rfl⟩

/-- What is found once another symbol is registered is that one, or it was found before. -/
private theorem found_cases {asked : String} {latest : Symbol}
    (found : ((key, latest) :: supply.registered).lookup asked = some symbol) :
    asked = key ∧ symbol = latest ∨ supply.registered.lookup asked = some symbol := by
  rw [List.lookup_cons] at found
  split at found
  · rename_i same
    exact Or.inl ⟨beq_iff_eq.mp same, (Option.some.inj found).symm⟩
  · exact Or.inr found

/-! ## One call -/

private theorem gives_answer (supply : SymbolSupply) (call : Call) :
    ∃ made, Gives supply call (supply.answer call).1 (supply.answer call).2 made := by
  cases call with
  | describe description => exact ⟨1, .fresh rfl (some description)⟩
  | anonymous => exact ⟨1, .fresh rfl none⟩
  | register key =>
      rw [answer, forKey]
      cases found : supply.registered.lookup key with
      | some symbol => exact ⟨0, .known found⟩
      | none => exact ⟨1, .registered found⟩

private theorem creations_cons (gives : Gives supply call symbol after made) (calls : List Call) :
    creations supply.keys (call :: calls) = creations after.keys calls + made := by
  cases gives with
  | fresh noKey description =>
      cases call with
      | describe | anonymous => rfl
      | register key => cases noKey
  | @known key _ found =>
      have member : key ∈ supply.keys := by
        by_contra absent
        rw [lookup_eq_none_iff.mpr absent] at found
        cases found
      rw [creations, if_pos member, Nat.add_zero]
  | registered unknown =>
      rw [creations, if_neg (lookup_eq_none_iff.mp unknown)]
      rfl

private theorem sound_start (first : UInt64) : Sound first 0 ⟨first, []⟩ := by
  refine ⟨?_, nofun, nofun⟩
  change first = first + 0
  rw [UInt64.add_zero]

namespace Sound

variable (sound : Sound first count supply)

include sound

private theorem madeNext (isNext : symbol.number = supply.next) : MadeIn first count
    (count + 1) symbol :=
  ⟨count, Nat.le_refl count, Nat.lt_succ_self count, isNext.trans sound.next_eq⟩

private theorem keyed_of_found (found : supply.registered.lookup key = some symbol)
    (upTo : count ≤ high) :
    symbol.key? = some key ∧ MadeIn first 0 high symbol := by
  obtain ⟨isKey, madeIn⟩ := sound.registered key symbol found
  exact ⟨isKey, madeIn.mono (Nat.le_refl 0) upTo⟩

private theorem next_succ : supply.next + 1 = numberAt first (count + 1) := by
  rw [← numberAt_succ, ← sound.next_eq]

/-- The newly registered symbol differs from all those that were registered before. -/
theorem register (few : count + 1 ≤ 2 ^ 64) :
    Sound first (count + 1)
      ⟨supply.next + 1, (key, ⟨supply.next, some key, true⟩) :: supply.registered⟩ := by
  have madeNow : MadeIn first count (count + 1) ⟨supply.next, some key, true⟩ := sound.madeNext rfl
  refine ⟨sound.next_succ, ?_, ?_⟩
  · intro asked symbol found
    rcases found_cases found with ⟨rfl, rfl⟩ | before
    · exact ⟨rfl, madeNow.mono (Nat.zero_le count) (Nat.le_refl _)⟩
    · exact sound.keyed_of_found before (Nat.le_succ count)
  · intro asked askedToo symbol another found foundToo same
    rcases found_cases found with ⟨rfl, rfl⟩ | before <;>
      rcases found_cases foundToo with ⟨rfl, rfl⟩ | beforeToo
    · rfl
    · have madeBefore := (sound.registered askedToo another beforeToo).2
      exact absurd same.symm (madeBefore.number_ne few madeNow)
    · have madeBefore := (sound.registered asked symbol before).2
      exact absurd same (madeBefore.number_ne few madeNow)
    · exact sound.apart asked askedToo symbol another before beforeToo same

private theorem key?_of_origin (origin : Origin first low high supply.registered call symbol) :
    symbol.key? = call.key? := by
  cases origin with
  | known found => exact (sound.registered _ symbol found).1
  | made _ keyed => exact keyed

private theorem toldApart_of_found (few : high ≤ 2 ^ 64)
    (found : supply.registered.lookup key = some symbol)
    (later : Origin first count high supply.registered other another) :
    ToldApart (.register key, symbol) (other, another) where
  shared := by
    rintro _ ⟨⟩ rfl
    cases later with
    | known foundToo => exact Option.some.inj (found.symm.trans foundToo)
    | made unknown =>
        rw [unknown key rfl] at found
        cases found
  apart same := by
    cases later with
    | @known keyToo _ foundToo =>
        cases sound.apart key keyToo symbol another found foundToo same
        exact ⟨key, rfl, rfl⟩
    | made _ _ madeLater =>
        exact absurd same ((sound.registered key symbol found).2.number_ne few madeLater)

private theorem toldApart_of_made {middle : Nat} (few : high ≤ 2 ^ 64) (upTo : middle ≤ high)
    (noKey : call.key? = none) (madeNow : MadeIn first count middle symbol)
    (later : Origin first middle high supply.registered other another) :
    ToldApart (call, symbol) (other, another) where
  shared := by
    rintro key rfl
    cases noKey
  apart same := by
    cases later with
    | @known keyToo _ found =>
        have madeBefore := (sound.registered keyToo another found).2
        exact absurd same.symm (madeBefore.number_ne (Nat.le_trans upTo few) madeNow)
    | made _ _ madeLater => exact absurd same (madeNow.number_ne few madeLater)

variable (gives : Gives supply call symbol after made)

include gives

theorem step (few : count + made ≤ 2 ^ 64) : Sound first (count + made) after := by
  cases gives with
  | fresh =>
      refine ⟨sound.next_succ, fun key symbol found => ?_, sound.apart⟩
      exact sound.keyed_of_found found (Nat.le_succ count)
  | known => exact sound
  | registered => exact sound.register few

theorem origin (upTo : count + made ≤ high) :
    Origin first count high supply.registered call symbol := by
  cases gives with
  | fresh noKey =>
      refine .made ?_ noKey.symm ((sound.madeNext rfl).mono (Nat.le_refl count) upTo)
      rintro key rfl
      cases noKey
  | known found => exact .known found
  | registered unknown =>
      refine .made ?_ rfl ((sound.madeNext rfl).mono (Nat.le_refl count) upTo)
      rintro _ ⟨⟩
      exact unknown

/-- What a later call finds registered was registered before this one, or this one made it. -/
private theorem origin_of_after (upTo : count + made ≤ high)
    (later : Origin first (count + made) high after.registered other another) :
    Origin first count high supply.registered other another := by
  cases gives with
  | fresh =>
      cases later with
      | known found => exact .known found
      | made unknown keyed madeIn =>
          exact .made unknown keyed (madeIn.mono (Nat.le_succ count) (Nat.le_refl high))
  | known => exact later
  | registered unknown =>
      cases later with
      | known found =>
          rcases found_cases found with ⟨rfl, rfl⟩ | before
          · exact sound.origin (.registered unknown) upTo
          · exact .known before
      | made unknownAfter keyed madeIn =>
          refine .made (fun asked isKey => ?_) keyed
            (madeIn.mono (Nat.le_succ count) (Nat.le_refl high))
          have notAfter := unknownAfter asked isKey
          rw [List.lookup_cons] at notAfter
          split at notAfter
          · cases notAfter
          · exact notAfter

/-- An answer is told apart from every later one. -/
private theorem toldApart (few : high ≤ 2 ^ 64) (upTo : count + made ≤ high)
    (later : Origin first (count + made) high after.registered other another) :
    ToldApart (call, symbol) (other, another) := by
  have soundAfter := sound.step gives (Nat.le_trans upTo few)
  cases gives with
  | fresh noKey => exact sound.toldApart_of_made few upTo noKey (sound.madeNext rfl) later
  | known found => exact soundAfter.toldApart_of_found few found later
  | registered => exact soundAfter.toldApart_of_found few List.lookup_cons_self later

end Sound

/-! ## All calls -/

private theorem origins_of_answers (sound : Sound first count supply)
    (few : count + creations supply.keys calls ≤ 2 ^ 64) :
    List.Forall₂ (Origin first count (count + creations supply.keys calls) supply.registered) calls
      (supply.answers calls) := by
  induction calls generalizing supply count with
  | nil => exact .nil
  | cons call rest ih =>
      obtain ⟨made, gives⟩ := gives_answer supply call
      rw [creations_cons gives rest, Nat.add_comm _ made, ← Nat.add_assoc] at few ⊢
      have upTo := Nat.le_add_right (count + made) (creations (supply.answer call).2.keys rest)
      refine .cons (sound.origin gives upTo) ?_
      refine (ih (sound.step gives (Nat.le_trans upTo few)) few).imp fun _ _ later => ?_
      exact sound.origin_of_after gives upTo later

private theorem toldApart_of_answers (sound : Sound first count supply)
    (few : count + creations supply.keys calls ≤ 2 ^ 64) :
    (calls.zip (supply.answers calls)).Pairwise ToldApart := by
  induction calls generalizing supply count with
  | nil => exact .nil
  | cons call rest ih =>
      obtain ⟨made, gives⟩ := gives_answer supply call
      rw [creations_cons gives rest, Nat.add_comm _ made, ← Nat.add_assoc] at few
      have upTo := Nat.le_add_right (count + made) (creations (supply.answer call).2.keys rest)
      have soundAfter := sound.step gives (Nat.le_trans upTo few)
      refine .cons ?_ (ih soundAfter few)
      rintro ⟨other, another⟩ member
      have later := (List.forall₂_iff_zip.mp (origins_of_answers soundAfter few)).2 member
      exact sound.toldApart gives few upTo later

private theorem toldApart_at {entries : List (Call × Symbol)} {position elsewhere : Nat}
    {asked askedToo : Call × Symbol} (pairs : entries.Pairwise ToldApart)
    (distinct : elsewhere ≠ position) (here : entries[position]? = some asked)
    (there : entries[elsewhere]? = some askedToo) : ToldApart asked askedToo := by
  obtain ⟨inside, rfl⟩ := List.getElem?_eq_some_iff.mp here
  obtain ⟨insideToo, rfl⟩ := List.getElem?_eq_some_iff.mp there
  rcases Nat.lt_or_gt_of_ne distinct with before | behind
  · exact (List.pairwise_iff_getElem.mp pairs elsewhere position insideToo inside before).symm
  · exact List.pairwise_iff_getElem.mp pairs position elsewhere inside insideToo behind

/-- However the calls are mixed, each is answered, and a symbol has the key that it was asked for under
and no other. Answers to two calls are the same symbol exactly if both calls ask for the same key, and
their numbers tell whether they are. -/
theorem answers_tell_apart (first : UInt64) (calls : List Call) (few : creations [] calls ≤ 2 ^ 64) :
    ((mk first []).answers calls).length = calls.length ∧
      ∀ (position : Nat) (call : Call) (symbol : Symbol), calls[position]? = some call →
        ((mk first []).answers calls)[position]? = some symbol →
        symbol.key? = call.key? ∧
        ∀ (elsewhere : Nat) (other : Call) (another : Symbol), elsewhere ≠ position →
          calls[elsewhere]? = some other →
          ((mk first []).answers calls)[elsewhere]? = some another →
          (symbol = another ↔ ∃ key, call = .register key ∧ other = .register key) ∧
          (symbol.number = another.number ↔ symbol = another) := by
  have fewFromStart : 0 + creations (mk first []).keys calls ≤ 2 ^ 64 := by
    rwa [Nat.zero_add]
  have sound := sound_start first
  have origins := List.forall₂_iff_zip.mp (origins_of_answers sound fewFromStart)
  have pairs := toldApart_of_answers sound fewFromStart
  refine ⟨origins.1.symm, fun position call symbol asked given => ?_⟩
  have here := (@List.getElem?_zip_eq_some _ _ _ _ (call, symbol) _).mpr ⟨asked, given⟩
  refine ⟨sound.key?_of_origin (origins.2 (List.mem_of_getElem? here)), ?_⟩
  intro elsewhere other another distinct askedToo givenToo
  have there := (@List.getElem?_zip_eq_some _ _ _ _ (other, another) _).mpr ⟨askedToo, givenToo⟩
  have told := toldApart_at pairs distinct here there
  have same_of_number (same : symbol.number = another.number) : symbol = another := by
    obtain ⟨key, isKey, isKeyToo⟩ := told.apart same
    exact told.shared key isKey isKeyToo
  refine ⟨⟨fun same => told.apart (congrArg Symbol.number same), ?_⟩, same_of_number, congrArg _⟩
  rintro ⟨key, isKey, isKeyToo⟩
  exact told.shared key isKey isKeyToo

/-- The numbers begin again at the second of three symbols, and the last call finds the first one. -/
theorem wrapped_answers_tell_apart :
    creations [] [.register "unit", .describe "unit", .anonymous, .register "unit"] ≤ 2 ^ 64 ∧
    ∃ unit described again : Symbol,
      ((mk 18446744073709551615 []).answers
        [.register "unit", .describe "unit", .anonymous, .register "unit"])[0]? = some unit ∧
      ((mk 18446744073709551615 []).answers
        [.register "unit", .describe "unit", .anonymous, .register "unit"])[1]? = some described ∧
      ((mk 18446744073709551615 []).answers
        [.register "unit", .describe "unit", .anonymous, .register "unit"])[3]? = some again ∧
      described.number = 0 ∧ unit.key? = some "unit" ∧ unit = again ∧ unit ≠ described := by
  have few : creations [] [.register "unit", .describe "unit", .anonymous, .register "unit"]
      ≤ 2 ^ 64 := by
    decide
  obtain ⟨keyed, compared⟩ :=
    (answers_tell_apart 18446744073709551615 _ few).2 0 (.register "unit") _ rfl rfl
  refine ⟨few, _, _, _, rfl, rfl, rfl, rfl, keyed, ?_, fun same => ?_⟩
  · exact (compared 3 (.register "unit") _ (by decide) rfl rfl).1.mpr ⟨"unit", rfl, rfl⟩
  · obtain ⟨_, _, described⟩ := (compared 1 (.describe "unit") _ (by decide) rfl rfl).1.mp same
    cases described

end SchemaCodec.SymbolSupply
