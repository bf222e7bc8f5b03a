/-!
Tables: keys with values in order of first insertion. Writing to a key that is present keeps its
place.
-/

namespace SchemaCodec.Table

variable {κ ν : Type} [DecidableEq κ]

def find? (key : κ) : List (κ × ν) → Option ν
  | [] => none
  | (k, v) :: rest => if k = key then some v else find? key rest

def has (key : κ) (table : List (κ × ν)) : Bool :=
  (find? key table).isSome

/-- Write to the place of the key, or behind all others if it is new. -/
def insert (key : κ) (value : ν) : List (κ × ν) → List (κ × ν)
  | [] => [(key, value)]
  | (k, v) :: rest => if k = key then (k, value) :: rest else (k, v) :: insert key value rest

def remove (key : κ) (table : List (κ × ν)) : List (κ × ν) :=
  table.filter fun entry => entry.1 ≠ key

def insertAll (table entries : List (κ × ν)) : List (κ × ν) :=
  entries.foldl (fun t entry => insert entry.1 entry.2 t) table

/-- The table of a list of entries; of entries with one key the last counts, at the first's place. -/
def ofEntries (entries : List (κ × ν)) : List (κ × ν) :=
  insertAll [] entries

theorem find?_insert (key other : κ) (value : ν) (table : List (κ × ν)) :
    find? other (insert key value table) = if key = other then some value else find? other table := by
  induction table with
  | nil => simp [insert, find?]
  | cons entry rest ih =>
    obtain ⟨k, v⟩ := entry
    by_cases same : k = key
    · subst same
      by_cases hit : k = other <;> simp [insert, find?, hit]
    · by_cases hit : k = other
      · subst hit
        simp [insert, find?, same, Ne.symm same]
      · simp [insert, find?, same, hit, ih]

end SchemaCodec.Table
