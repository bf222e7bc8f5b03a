import Mathlib.Data.List.Forall2
import Mathlib.Data.List.Nodup
import SchemaCodec.Proofs.Value.Parts
import SchemaCodec.Value.Display

/-!
Values that differ only by the order of object members. Arrays agree item by item; objects have the
same keys, and what the one has under a key the other one has there up to the order of members again.
A value whose keys are not distinct is related to nothing.
-/

namespace SchemaCodec.Value

/-- The values differ only by the order of the members of objects, at any depth. -/
inductive Reordered : Value → Value → Prop where
  | scalar {value : Value} (notArray : value.array? = none) (notObject : value.object? = none) :
      Reordered value value
  | array {items others : List Value} (sameLength : items.length = others.length)
      (each : ∀ pair ∈ items.zip others, Reordered pair.1 pair.2) :
      Reordered (.array items) (.array others)
  | object {members others : Members} (distinct : (Table.keys members).Nodup)
      (distinctToo : (Table.keys others).Nodup)
      (sameKeys : ∀ key, key ∈ Table.keys members ↔ key ∈ Table.keys others)
      (each : ∀ key value other, Table.find? key members = some value →
        Table.find? key others = some other → Reordered value other) :
      Reordered (.object members) (.object others)

/-! ### Arrays and objects -/

theorem reordered_array_iff {items others : List Value} :
    (Value.array items).Reordered (.array others) ↔ List.Forall₂ Reordered items others := by
  rw [List.forall₂_iff_zip]
  constructor
  · intro reordered
    cases reordered with
    | scalar notArray _ => cases notArray
    | array sameLength each => exact ⟨sameLength, fun {_ _} inZip => each _ inZip⟩
  · rintro ⟨sameLength, each⟩
    exact .array sameLength fun _ inZip => each inZip

theorem reordered_object_iff {members others : Members} :
    (Value.object members).Reordered (.object others) ↔
      (Table.keys members).Nodup ∧ (Table.keys others).Nodup ∧
        Table.Alike Reordered members others := by
  rw [Table.alike_iff]
  constructor
  · intro reordered
    cases reordered with
    | scalar _ notObject => cases notObject
    | object distinct distinctToo sameKeys each => exact ⟨distinct, distinctToo, sameKeys, each⟩
  · rintro ⟨distinct, distinctToo, sameKeys, each⟩
    exact .object distinct distinctToo sameKeys each

namespace Reordered

variable {value other : Value}

theorem exists_items {items : List Value} (reordered : (Value.array items).Reordered other) :
    ∃ others, other = .array others ∧ List.Forall₂ Reordered items others := by
  cases reordered with
  | scalar notArray _ => cases notArray
  | array sameLength each => exact ⟨_, rfl, reordered_array_iff.mp (.array sameLength each)⟩

theorem exists_members {members : Members} (reordered : (Value.object members).Reordered other) :
    ∃ others, other = .object others ∧ (Table.keys members).Nodup ∧ (Table.keys others).Nodup ∧
      Table.Alike Reordered members others := by
  cases reordered with
  | scalar _ notObject => cases notObject
  | object distinct distinctToo sameKeys each =>
      exact ⟨_, rfl, reordered_object_iff.mp (.object distinct distinctToo sameKeys each)⟩

theorem symm (reordered : value.Reordered other) : other.Reordered value := by
  induction reordered with
  | scalar notArray notObject => exact .scalar notArray notObject
  | array sameLength _ ih =>
      have swapped := (List.forall₂_iff_zip.mpr ⟨sameLength, fun {_ _} inZip => ih _ inZip⟩).flip
      exact reordered_array_iff.mpr swapped
  | object distinct distinctToo sameKeys _ ih =>
      exact .object distinctToo distinct (fun key => (sameKeys key).symm)
        fun key value other found foundToo => ih key other value foundToo found

/-- A value with distinct keys is in the order that it has. -/
theorem of_proper (proper : value.Proper) : value.Reordered value := by
  induction proper with
  | scalar notArray notObject => exact .scalar notArray notObject
  | array _ ih => exact reordered_array_iff.mpr (List.forall₂_same.mpr ih)
  | object distinct _ ih =>
      refine .object distinct distinct (fun _ => Iff.rfl) fun key value other found foundToo => ?_
      rw [found] at foundToo
      cases foundToo
      exact ih _ (Table.mem_of_find? found)

theorem member? (reordered : value.Reordered other) (key : PropertyKey) :
    Option.Rel Reordered (value.member? key) (other.member? key) := by
  cases reordered with
  | scalar notArray notObject =>
      rw [Value.member?, notObject]
      exact .none
  | array _ _ => exact .none
  | object _ _ sameKeys each => exact Table.alike_iff.mpr ⟨sameKeys, each⟩ key

theorem isNullish_eq (reordered : value.Reordered other) : value.isNullish = other.isNullish := by
  cases reordered <;> rfl

private theorem displayItems_eq {items others : List Value}
    (same : List.Forall₂ (fun item other => item.isNullish = other.isNullish ∧
      item.display = other.display) items others) : displayItems items = displayItems others := by
  induction same with
  | nil => rfl
  | cons head _ ih => rw [displayItems, displayItems, head.1, head.2, ih]

/-- The text of a value does not show the order of members. -/
theorem display_eq (reordered : value.Reordered other) : value.display = other.display := by
  induction reordered with
  | scalar _ _ => rfl
  | array sameLength each ih =>
      have same := displayItems_eq (List.forall₂_iff_zip.mpr
        ⟨sameLength, fun {_ _} inZip => ⟨(each _ inZip).isNullish_eq, ih _ inZip⟩⟩)
      rw [display, display, same]
  | object _ _ _ _ => rfl

end Reordered

/-! ### Orders of members -/

/-- The members of the first object, in the order that their keys have in the second one. -/
def arrangedLike (others members : Members) : Members :=
  others.map fun other => (other.1, (Table.find? other.1 members).getD other.2)

private theorem keys_arrangedLike (others members : Members) :
    Table.keys (arrangedLike others members) = Table.keys others := by
  rw [Table.keys, arrangedLike, List.map_map]
  rfl

private theorem perm_arrangedLike {members others : Members} (distinct : (Table.keys members).Nodup)
    (distinctToo : (Table.keys others).Nodup)
    (sameKeys : ∀ key, key ∈ Table.keys members ↔ key ∈ Table.keys others) :
    members.Perm (arrangedLike others members) := by
  have distinctArranged : (Table.keys (arrangedLike others members)).Nodup := by
    rw [keys_arrangedLike]
    exact distinctToo
  refine (List.perm_ext_iff_of_nodup (List.Nodup.of_map Prod.fst distinct)
    (List.Nodup.of_map Prod.fst distinctArranged)).mpr fun member => ?_
  constructor
  · intro inMembers
    obtain ⟨other, inOthers, sameKey⟩ :=
      List.mem_map.mp ((sameKeys member.1).mp (List.mem_map_of_mem inMembers))
    refine List.mem_map.mpr ⟨other, inOthers, ?_⟩
    rw [sameKey, Table.find?_of_mem distinct inMembers]
    rfl
  · intro inArranged
    obtain ⟨other, inOthers, rfl⟩ := List.mem_map.mp inArranged
    have present := (sameKeys other.1).mpr (List.mem_map_of_mem inOthers)
    obtain ⟨value, found⟩ := Option.isSome_iff_exists.mp (Table.has_eq_true_iff.mpr present)
    rw [found]
    exact Table.mem_of_find? found

/-- Two objects differ by the order of members if the members of the one, in some order, are one by
one those of the other, up to the order of members below. -/
theorem reordered_object_iff_perm {members others : Members} :
    (Value.object members).Reordered (.object others) ↔
      (Table.keys members).Nodup ∧ ∃ arranged, members.Perm arranged ∧
        List.Forall₂ (fun member other => member.1 = other.1 ∧ member.2.Reordered other.2) arranged
          others := by
  rw [reordered_object_iff]
  constructor
  · rintro ⟨distinct, distinctToo, alike⟩
    have perm := perm_arrangedLike distinct distinctToo (Table.alike_iff.mp alike).1
    refine ⟨distinct, _, perm, ?_⟩
    refine List.forall₂_map_left_iff.mpr (List.forall₂_same.mpr fun other inOthers => ?_)
    have related := alike other.1
    rw [Table.find?_of_mem distinctToo inOthers] at related
    generalize Table.find? other.1 members = found at related ⊢
    cases related with
    | some reordered => exact ⟨rfl, reordered⟩
  · rintro ⟨distinct, arranged, perm, each⟩
    have sameKeys : Table.keys arranged = Table.keys others := by
      rw [Table.keys, Table.keys, ← List.forall₂_eq_eq_eq, List.forall₂_map_left_iff,
        List.forall₂_map_right_iff]
      exact each.imp fun _ _ alike => alike.1
    have distinctArranged : (Table.keys arranged).Nodup := (perm.map Prod.fst).nodup_iff.mp distinct
    refine ⟨distinct, sameKeys ▸ distinctArranged, fun key => ?_⟩
    rw [Table.find?_of_perm distinct perm]
    exact Table.Alike.of_forall₂ each key

end SchemaCodec.Value
