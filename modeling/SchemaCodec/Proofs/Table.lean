import Mathlib.Data.List.Induction
import SchemaCodec.Table

/-!
Laws of tables. Keys come in the order of first insertion and once each; the entries of a table made
from a list are entries of the list, and a list without repeated keys is its own table.
-/

namespace SchemaCodec.Table

variable {κ ν : Type}

def keys (table : List (κ × ν)) : List κ :=
  table.map Prod.fst

/-! ### Entries made from the items of a list -/

section Items

variable {ι : Type} {items : List ι}

/-- Where each item makes an entry under its own name or none, there are no other keys than names. -/
theorem keys_filterMap_sublist {step : ι → Option (κ × ν)} {name : ι → κ}
    (own : ∀ item entry, step item = some entry → entry.1 = name item) (items : List ι) :
    (keys (items.filterMap step)).Sublist (items.map name) := by
  induction items with
  | nil => exact .slnil
  | cons item rest ih =>
      rw [List.filterMap_cons]
      cases stepped : step item with
      | none => exact ih.cons _
      | some entry =>
          change (entry.1 :: keys (rest.filterMap step)).Sublist (name item :: rest.map name)
          rw [own item entry stepped]
          exact ih.cons_cons _

theorem mem_keys_filterMap {step : ι → Option (κ × ν)} {key : κ} :
    key ∈ keys (items.filterMap step) ↔ ∃ item ∈ items, ∃ value, step item = some (key, value) := by
  simp only [keys, List.mem_map, List.mem_filterMap, Prod.exists, exists_and_right, exists_eq_right]
  constructor
  · rintro ⟨value, item, inItems, stepped⟩
    exact ⟨item, inItems, value, stepped⟩
  · rintro ⟨item, inItems, value, stepped⟩
    exact ⟨value, item, inItems, stepped⟩

theorem keys_flatMap (entries : ι → List (κ × ν)) (items : List ι) :
    keys (items.flatMap entries) = items.flatMap fun item => keys (entries item) :=
  List.map_flatMap

end Items

variable [DecidableEq κ]

/-! ### Looking up -/

theorem mem_of_find? {key : κ} {value : ν} {table : List (κ × ν)}
    (found : find? key table = some value) : (key, value) ∈ table := by
  induction table with
  | nil => cases found
  | cons entry rest ih =>
      obtain ⟨k, v⟩ := entry
      rw [find?] at found
      split at found
      · rename_i same
        cases found
        rw [same]
        exact List.mem_cons_self
      · exact List.mem_cons_of_mem _ (ih found)

/-- What is looked up is either in the table or stands in for what is not there. -/
theorem getD_eq_or_mem (key : κ) (table : List (κ × ν)) (other : ν) :
    (find? key table).getD other = other ∨ (key, (find? key table).getD other) ∈ table := by
  cases found : find? key table with
  | none => exact Or.inl rfl
  | some value => exact Or.inr (mem_of_find? found)

theorem find?_eq_none_iff {key : κ} {table : List (κ × ν)} :
    find? key table = none ↔ key ∉ keys table := by
  induction table with
  | nil => simp [find?, keys]
  | cons entry rest ih =>
      obtain ⟨k, v⟩ := entry
      by_cases same : k = key
      · simp [find?, keys, same]
      · simpa [find?, keys, same, Ne.symm same] using ih

theorem has_eq_true_iff {key : κ} {table : List (κ × ν)} : has key table = true ↔ key ∈ keys table := by
  rw [has, Option.isSome_iff_ne_none, ne_eq, find?_eq_none_iff, Decidable.not_not]

omit [DecidableEq κ] in
theorem mem_keys {key : κ} {value : ν} {table : List (κ × ν)} (member : (key, value) ∈ table) :
    key ∈ keys table :=
  List.mem_map_of_mem member

theorem find?_of_mem {key : κ} {value : ν} {table : List (κ × ν)} (nodup : (keys table).Nodup)
    (member : (key, value) ∈ table) : find? key table = some value := by
  induction table with
  | nil => cases member
  | cons entry rest ih =>
      obtain ⟨k, v⟩ := entry
      obtain ⟨fresh, nodupRest⟩ := List.nodup_cons.mp nodup
      rw [find?]
      rcases List.mem_cons.mp member with same | later
      · cases same
        rw [if_pos rfl]
      · have apart : k ≠ key := by
          rintro rfl
          exact fresh (mem_keys later)
        rw [if_neg apart]
        exact ih nodupRest later

theorem find?_append (key : κ) (table others : List (κ × ν)) :
    find? key (table ++ others) = (find? key table).or (find? key others) := by
  induction table with
  | nil => rfl
  | cons entry rest ih =>
      obtain ⟨k, v⟩ := entry
      rw [List.cons_append, find?, find?]
      split
      · rfl
      · exact ih

theorem find?_concat (key other : κ) (value : ν) (table : List (κ × ν)) :
    find? other (table ++ [(key, value)]) =
      (find? other table).or (if key = other then some value else none) :=
  find?_append other table [(key, value)]

theorem find?_filter (keeps : κ → Bool) (key : κ) (table : List (κ × ν)) :
    find? key (table.filter fun entry => keeps entry.1) =
      if keeps key = true then find? key table else none := by
  induction table with
  | nil => exact (ite_self none).symm
  | cons entry rest ih =>
      obtain ⟨k, v⟩ := entry
      rw [List.filter_cons]
      by_cases same : k = key
      · subst same
        by_cases kept : keeps k = true
        · rw [if_pos kept, if_pos kept, find?, find?, if_pos rfl, if_pos rfl]
        · rw [if_neg kept, ih, if_neg kept, if_neg kept]
      · split
        · rw [find?, find?, if_neg same, if_neg same]
          exact ih
        · rw [find?, if_neg same]
          exact ih

theorem find?_of_perm {table others : List (κ × ν)} (nodup : (keys table).Nodup)
    (perm : table.Perm others) (key : κ) : find? key table = find? key others := by
  have nodupToo : (keys others).Nodup := (perm.map Prod.fst).nodup_iff.mp nodup
  apply Option.ext
  intro value
  constructor
  · exact fun found => find?_of_mem nodupToo (perm.mem_iff.mp (mem_of_find? found))
  · exact fun found => find?_of_mem nodup (perm.mem_iff.mpr (mem_of_find? found))

/-! ### Writing -/

private theorem insert_ne_nil (key : κ) (value : ν) (table : List (κ × ν)) :
    insert key value table ≠ [] := by
  cases table with
  | nil => exact List.cons_ne_nil _ _
  | cons entry rest =>
      obtain ⟨k, v⟩ := entry
      rw [insert]
      split <;> exact List.cons_ne_nil _ _

theorem insertAll_eq_nil {table entries : List (κ × ν)} (none : insertAll table entries = []) :
    table = [] := by
  induction entries generalizing table with
  | nil => exact none
  | cons entry rest ih => exact absurd (ih none) (insert_ne_nil _ _ _)

theorem insert_of_not_mem {key : κ} {table : List (κ × ν)} (fresh : key ∉ keys table) (value : ν) :
    insert key value table = table ++ [(key, value)] := by
  induction table with
  | nil => rfl
  | cons entry rest ih =>
      obtain ⟨k, v⟩ := entry
      have apart : k ≠ key := by
        rintro rfl
        exact fresh List.mem_cons_self
      rw [insert, if_neg apart, ih fun later => fresh (List.mem_cons_of_mem _ later)]
      rfl

theorem mem_insert {key : κ} {value : ν} {table : List (κ × ν)} {entry : κ × ν}
    (member : entry ∈ insert key value table) : entry = (key, value) ∨ entry ∈ table := by
  induction table with
  | nil => exact Or.inl (List.mem_singleton.mp member)
  | cons first rest ih =>
      obtain ⟨k, v⟩ := first
      rw [insert] at member
      split at member
      · rename_i same
        rcases List.mem_cons.mp member with here | later
        · exact Or.inl (by rw [here, same])
        · exact Or.inr (List.mem_cons_of_mem _ later)
      · rcases List.mem_cons.mp member with here | later
        · exact Or.inr (here ▸ List.mem_cons_self)
        · exact (ih later).imp_right (List.mem_cons_of_mem _)

private theorem keys_insert_of_mem {key : κ} {table : List (κ × ν)} (present : key ∈ keys table)
    (value : ν) :
    keys (insert key value table) = keys table := by
  induction table with
  | nil => cases present
  | cons entry rest ih =>
      obtain ⟨k, v⟩ := entry
      rw [insert]
      split
      · rfl
      · rename_i apart
        rcases List.mem_cons.mp present with same | later
        · exact absurd same.symm apart
        · exact congrArg (k :: ·) (ih later)

theorem mem_keys_insert {key other : κ} {value : ν} {table : List (κ × ν)} :
    other ∈ keys (insert key value table) ↔ other = key ∨ other ∈ keys table := by
  by_cases present : key ∈ keys table
  · rw [keys_insert_of_mem present]
    exact ⟨Or.inr, fun either => either.elim (fun same => same ▸ present) id⟩
  · rw [insert_of_not_mem present]
    simp [keys, or_comm]

theorem nodup_insert {key : κ} {value : ν} {table : List (κ × ν)} (nodup : (keys table).Nodup) :
    (keys (insert key value table)).Nodup := by
  by_cases present : key ∈ keys table
  · rw [keys_insert_of_mem present]
    exact nodup
  · rw [insert_of_not_mem present, keys, List.map_append]
    refine List.nodup_append.mpr ⟨nodup, List.nodup_cons.mpr ⟨List.not_mem_nil, List.nodup_nil⟩, ?_⟩
    intro other inTable single isKey
    cases List.mem_singleton.mp isKey
    rintro rfl
    exact present inTable

/-- What a table holds in all, after one of its values has grown. -/
theorem flatMap_insert_perm {β : Type} (held : ν → List β) (start : ν) {key : κ} {value : ν}
    {table : List (κ × ν)} {added : List β} (none : held start = [])
    (grows : (held value).Perm (held ((find? key table).getD start) ++ added)) :
    ((insert key value table).flatMap fun entry => held entry.2).Perm
      ((table.flatMap fun entry => held entry.2) ++ added) := by
  induction table with
  | nil =>
      rw [find?, Option.getD_none, none, List.nil_append] at grows
      rw [insert, List.flatMap_cons, List.flatMap_nil, List.append_nil, List.nil_append]
      exact grows
  | cons entry rest ih =>
      obtain ⟨k, v⟩ := entry
      rw [find?] at grows
      rw [insert, List.flatMap_cons]
      by_cases same : k = key
      · rw [if_pos same, Option.getD_some] at grows
        rw [if_pos same, List.flatMap_cons]
        apply (grows.append_right _).trans
        rw [List.append_assoc, List.append_assoc]
        exact List.perm_append_comm.append_left _
      · rw [if_neg same] at grows
        rw [if_neg same, List.flatMap_cons, List.append_assoc]
        exact (ih grows).append_left _

/-! ### Tables of lists -/

theorem insertAll_append (table entries others : List (κ × ν)) :
    insertAll table (entries ++ others) = insertAll (insertAll table entries) others :=
  List.foldl_append

theorem mem_insertAll {table entries : List (κ × ν)} {entry : κ × ν}
    (member : entry ∈ insertAll table entries) : entry ∈ table ∨ entry ∈ entries := by
  induction entries generalizing table with
  | nil => exact Or.inl member
  | cons first rest ih =>
      rcases ih member with written | later
      · rcases mem_insert written with here | old
        · exact Or.inr (here ▸ List.mem_cons_self)
        · exact Or.inl old
      · exact Or.inr (List.mem_cons_of_mem _ later)

theorem mem_of_mem_ofEntries {entries : List (κ × ν)} {entry : κ × ν}
    (member : entry ∈ ofEntries entries) : entry ∈ entries :=
  (mem_insertAll member).resolve_left (List.not_mem_nil)

theorem mem_keys_insertAll {key : κ} {table entries : List (κ × ν)} :
    key ∈ keys (insertAll table entries) ↔ key ∈ keys table ∨ key ∈ keys entries := by
  induction entries generalizing table with
  | nil => simp [insertAll, keys]
  | cons first rest ih =>
      change key ∈ keys (insertAll (insert first.1 first.2 table) rest) ↔ _
      rw [ih, mem_keys_insert]
      simp only [keys, List.map_cons, List.mem_cons]
      rw [or_comm (a := key = first.1), or_assoc]

theorem mem_keys_ofEntries {key : κ} {entries : List (κ × ν)} :
    key ∈ keys (ofEntries entries) ↔ key ∈ keys entries := by
  rw [ofEntries, mem_keys_insertAll]
  simp [keys]

private theorem nodup_insertAll {table entries : List (κ × ν)} (nodup : (keys table).Nodup) :
    (keys (insertAll table entries)).Nodup := by
  induction entries generalizing table with
  | nil => exact nodup
  | cons first rest ih => exact ih (nodup_insert nodup)

theorem nodup_ofEntries (entries : List (κ × ν)) : (keys (ofEntries entries)).Nodup :=
  nodup_insertAll List.nodup_nil

/-- What is written later counts. -/
theorem find?_insertAll (key : κ) (table entries : List (κ × ν)) :
    find? key (insertAll table entries) = (find? key (ofEntries entries)).or (find? key table) := by
  induction entries using List.reverseRecOn with
  | nil => rfl
  | append_singleton front last ih =>
      have written : ∀ start : List (κ × ν),
          insertAll start (front ++ [last]) = insert last.1 last.2 (insertAll start front) :=
        fun start => insertAll_append start front [last]
      rw [ofEntries, written, written, find?_insert, find?_insert, ih]
      by_cases same : last.1 = key
      · rw [if_pos same, if_pos same]
        rfl
      · rw [if_neg same, if_neg same]
        rfl

theorem mem_ofEntries_append {front back : List (κ × ν)} {entry : κ × ν}
    (member : entry ∈ ofEntries (front ++ back)) :
    entry ∈ ofEntries back ∨ (entry ∈ front ∧ entry.1 ∉ keys back) := by
  have found := find?_of_mem (nodup_ofEntries _) member
  rw [ofEntries, insertAll_append, find?_insertAll] at found
  cases later : find? entry.1 (ofEntries back) with
  | some value =>
      rw [later] at found
      cases found
      exact Or.inl (mem_of_find? later)
  | none =>
      rw [later, Option.none_or] at found
      have absent := mt mem_keys_ofEntries.mpr (find?_eq_none_iff.mp later)
      exact Or.inr ⟨mem_of_mem_ofEntries (mem_of_find? found), absent⟩

/-- New keys go behind the old ones. -/
private theorem insertAll_of_disjoint {table entries : List (κ × ν)} (nodup : (keys entries).Nodup)
    (disjoint : ∀ key ∈ keys entries, key ∉ keys table) :
    insertAll table entries = table ++ entries := by
  induction entries generalizing table with
  | nil => exact (List.append_nil table).symm
  | cons first rest ih =>
      obtain ⟨fresh, nodupRest⟩ := List.nodup_cons.mp nodup
      have written := insert_of_not_mem (disjoint first.1 List.mem_cons_self) first.2
      change insertAll (insert first.1 first.2 table) rest = _
      rw [written, ih nodupRest, List.append_assoc]
      · rfl
      · intro key inRest inTable
        rw [keys, List.map_append] at inTable
        rcases List.mem_append.mp inTable with old | here
        · exact disjoint key (List.mem_cons_of_mem _ inRest) old
        · cases List.mem_singleton.mp here
          exact fresh inRest

theorem ofEntries_of_nodup {entries : List (κ × ν)} (nodup : (keys entries).Nodup) :
    ofEntries entries = entries :=
  insertAll_of_disjoint nodup fun _ _ => List.not_mem_nil

private theorem insert_append {key : κ} {table : List (κ × ν)} (fresh : key ∉ keys table)
    (value : ν)
    (others : List (κ × ν)) :
    insert key value (table ++ others) = table ++ insert key value others := by
  induction table with
  | nil => rfl
  | cons entry rest ih =>
      obtain ⟨k, v⟩ := entry
      have apart : k ≠ key := by
        rintro rfl
        exact fresh List.mem_cons_self
      rw [List.cons_append, insert, if_neg apart, ih fun later => fresh (List.mem_cons_of_mem _ later)]
      rfl

private theorem insertAll_append_left {table others entries : List (κ × ν)}
    (disjoint : ∀ key ∈ keys entries, key ∉ keys table) :
    insertAll (table ++ others) entries = table ++ insertAll others entries := by
  induction entries generalizing others with
  | nil => rfl
  | cons first rest ih =>
      have written := insert_append (disjoint first.1 List.mem_cons_self) first.2 others
      change insertAll (insert first.1 first.2 (table ++ others)) rest = _
      rw [written]
      exact ih fun key later => disjoint key (List.mem_cons_of_mem _ later)

/-- Lists without a key in common make tables that follow one another. -/
theorem ofEntries_append {entries others : List (κ × ν)}
    (disjoint : ∀ key ∈ keys others, key ∉ keys entries) :
    ofEntries (entries ++ others) = ofEntries entries ++ ofEntries others := by
  rw [ofEntries, insertAll_append]
  have apart : ∀ key ∈ keys others, key ∉ keys (ofEntries entries) := fun key inOthers =>
    mt mem_keys_ofEntries.mp (disjoint key inOthers)
  calc insertAll (insertAll [] entries) others
      _ = insertAll (ofEntries entries ++ []) others := by rw [List.append_nil]; rfl
      _ = ofEntries entries ++ ofEntries others := insertAll_append_left apart

/-! ### Other values under the same keys -/

section Values

variable {μ : Type}

theorem find?_map (function : ν → μ) (key : κ) (table : List (κ × ν)) :
    find? key (table.map (Prod.map id function)) = (find? key table).map function := by
  induction table with
  | nil => rfl
  | cons entry rest ih =>
      obtain ⟨k, v⟩ := entry
      rw [List.map_cons, Prod.map, id, find?, find?, ih]
      split <;> rfl

theorem insert_map (function : ν → μ) (key : κ) (value : ν) (table : List (κ × ν)) :
    insert key (function value) (table.map (Prod.map id function)) =
      (insert key value table).map (Prod.map id function) := by
  induction table with
  | nil => rfl
  | cons entry rest ih =>
      obtain ⟨k, v⟩ := entry
      rw [List.map_cons, Prod.map, id, insert, insert, ih]
      split <;> rfl

end Values

/-! ### Tables alike -/

section Alike

variable {μ : Type} {relates : ν → μ → Prop} {table : List (κ × ν)} {others : List (κ × μ)}

/-- The tables have the same keys, with related values. -/
def Alike (relates : ν → μ → Prop) (table : List (κ × ν)) (others : List (κ × μ)) : Prop :=
  ∀ key, Option.Rel relates (find? key table) (find? key others)

theorem alike_iff :
    Alike relates table others ↔
      (∀ key, key ∈ keys table ↔ key ∈ keys others) ∧
      ∀ key value other, find? key table = some value → find? key others = some other →
        relates value other := by
  constructor
  · intro alike
    refine ⟨fun key => ?_, fun key value other found foundToo => ?_⟩
    · have same := alike key
      rw [← not_iff_not, ← find?_eq_none_iff, ← find?_eq_none_iff]
      generalize find? key table = first, find? key others = second at same ⊢
      cases same with
      | none => exact ⟨fun _ => rfl, fun _ => rfl⟩
      | some _ => exact ⟨nofun, nofun⟩
    · have same := alike key
      rw [found, foundToo] at same
      cases same with
      | some related => exact related
  · rintro ⟨sameKeys, each⟩ key
    have same := not_congr (sameKeys key)
    rw [← find?_eq_none_iff, ← find?_eq_none_iff] at same
    cases found : find? key table with
    | none =>
        rw [same.mp found]
        exact .none
    | some value =>
        cases foundToo : find? key others with
        | none =>
            rw [same.mpr foundToo] at found
            cases found
        | some other => exact .some (each key value other found foundToo)

namespace Alike

omit [DecidableEq κ] in
private theorem rel_or {value valueToo : Option ν} {other otherToo : Option μ}
    (first : Option.Rel relates value other) (second : Option.Rel relates valueToo otherToo) :
    Option.Rel relates (value.or valueToo) (other.or otherToo) := by
  cases first with
  | none => exact second
  | some related => exact .some related

/-- Lists with the same keys in the same places. -/
theorem of_forall₂ (each : List.Forall₂ (fun entry other => entry.1 = other.1 ∧
    relates entry.2 other.2) table others) : Alike relates table others := by
  intro key
  induction each with
  | nil => exact .none
  | @cons entry other _ _ head _ ih =>
      obtain ⟨k, v⟩ := entry
      obtain ⟨k', v'⟩ := other
      obtain ⟨rfl, related⟩ := head
      rw [find?, find?]
      by_cases same : k = key
      · rw [if_pos same, if_pos same]
        exact .some related
      · rw [if_neg same, if_neg same]
        exact ih

theorem insert (alike : Alike relates table others) (key : κ) {value : ν} {other : μ}
    (related : relates value other) :
    Alike relates (insert key value table) (insert key other others) := by
  intro wanted
  rw [find?_insert, find?_insert]
  by_cases same : key = wanted
  · rw [if_pos same, if_pos same]
    exact .some related
  · rw [if_neg same, if_neg same]
    exact alike wanted

theorem insertAll_of_forall₂ (alike : Alike relates table others) {entries : List (κ × ν)}
    {entriesToo : List (κ × μ)} (each : List.Forall₂ (fun entry other => entry.1 = other.1 ∧
      relates entry.2 other.2) entries entriesToo) :
    Alike relates (insertAll table entries) (insertAll others entriesToo) := by
  induction each generalizing table others with
  | nil => exact alike
  | @cons entry other _ _ head _ ih =>
      obtain ⟨k, v⟩ := entry
      obtain ⟨k', v'⟩ := other
      obtain ⟨rfl, related⟩ := head
      exact ih (alike.insert k related)

theorem filter (alike : Alike relates table others) (keeps : κ → Bool) :
    Alike relates (table.filter fun entry => keeps entry.1)
      (others.filter fun entry => keeps entry.1) := by
  intro key
  rw [find?_filter, find?_filter]
  by_cases kept : keeps key = true
  · rw [if_pos kept, if_pos kept]
    exact alike key
  · rw [if_neg kept, if_neg kept]
    exact .none

theorem append {tableToo : List (κ × ν)} {othersToo : List (κ × μ)}
    (alike : Alike relates table others) (alikeToo : Alike relates tableToo othersToo) :
    Alike relates (table ++ tableToo) (others ++ othersToo) := by
  intro key
  rw [find?_append, find?_append]
  exact rel_or (alike key) (alikeToo key)

theorem insertAll (alike : Alike relates table others) {entries : List (κ × ν)}
    {entriesToo : List (κ × μ)} (alikeToo : Alike relates (ofEntries entries) (ofEntries entriesToo)) :
    Alike relates (insertAll table entries) (insertAll others entriesToo) := by
  intro key
  rw [find?_insertAll, find?_insertAll]
  exact rel_or (alikeToo key) (alike key)

end Alike

end Alike

end SchemaCodec.Table
