import Mathlib.Data.List.Infix
import SchemaCodec.Text.Search

/-!
What lies between the occurrences of a separator. With the separator put between them the pieces are the
text again. The search goes from left to right, so that the first occurrence ends a piece and no piece
has the separator in it, also where occurrences overlap.
-/

namespace SchemaCodec.Text

variable {separator : List Char}

theorem intercalate_cons (separator line : List Char) (rest : List (List Char)) :
    separator.intercalate (line :: rest) = line ++ rest.flatMap (separator ++ ·) := by
  induction rest generalizing line with
  | nil => simp
  | cons next others ih =>
      rw [List.intercalate_cons_cons, ih, List.flatMap_cons, List.append_assoc, List.append_assoc]

/-- The pieces make up the text without the characters that are skipped. -/
private theorem append_pieces (notEmpty : separator ≠ []) (skip : Nat) (text : List Char) :
    (pieces separator skip text).1 ++ (pieces separator skip text).2.flatMap (separator ++ ·) =
      text.drop skip := by
  induction text generalizing skip with
  | nil => cases skip <;> rfl
  | cons c rest ih =>
      cases skip with
      | succ skip => exact ih skip
      | zero =>
          rw [pieces]
          split
          · rename_i found
            have whole := List.prefix_iff_eq_append.mp (List.isPrefixOf_iff_prefix.mp found)
            have after : (c :: rest).drop separator.length = rest.drop (separator.length - 1) := by
              obtain ⟨first, others, rfl⟩ := List.exists_cons_of_ne_nil notEmpty
              rfl
            rw [after, ← ih (separator.length - 1)] at whole
            simpa using whole
          · exact congrArg (c :: ·) (ih 0)

/-- No piece has the separator in it: it would have been found there. -/
private theorem not_infix_pieces (notEmpty : separator ≠ []) (skip : Nat) (text : List Char) :
    ∀ piece ∈ (pieces separator skip text).1 :: (pieces separator skip text).2,
      ¬separator <:+: piece := by
  have notNil : ¬separator <:+: [] := fun inside => notEmpty (List.infix_nil.mp inside)
  induction text generalizing skip with
  | nil => cases skip <;> exact List.forall_mem_singleton.mpr notNil
  | cons c rest ih =>
      cases skip with
      | succ skip => exact ih skip
      | zero =>
          rw [pieces]
          split
          · exact List.forall_mem_cons.mpr ⟨notNil, ih (separator.length - 1)⟩
          · rename_i notFound
            obtain ⟨ofFirst, ofOthers⟩ := List.forall_mem_cons.mp (ih 0)
            refine List.forall_mem_cons.mpr ⟨fun inside => ?_, ofOthers⟩
            rcases List.infix_cons_iff.mp inside with atFront | later
            · have front : (c :: (pieces separator 0 rest).1) <+: c :: rest :=
                ⟨_, congrArg (c :: ·) (append_pieces notEmpty 0 rest)⟩
              exact notFound (List.isPrefixOf_iff_prefix.mpr (atFront.trans front))
            · exact ofFirst later

/-! ### All pieces of a text -/

private theorem intercalate_splitChars (separator text : List Char) :
    separator.intercalate (splitChars separator text) = text := by
  cases separator with
  | nil =>
      have singles : (text.map ([·])).flatten = text := by
        rw [← List.flatMap_def, List.flatMap_singleton']
      simp [splitChars, intercalate_cons, ← List.flatMap_def]
  | cons first others =>
      rw [splitChars, intercalate_cons]
      exact append_pieces (List.cons_ne_nil first others) 0 text

theorem intercalate_split (separator text : String) :
    separator.intercalate (split text separator) = text := by
  rw [← String.toList_inj, String.toList_intercalate, split, List.map_map]
  have texts : String.toList ∘ String.ofList = id := funext fun _ => String.toList_ofList
  rw [texts, List.map_id, intercalate_splitChars]

theorem not_infix_of_mem_split {separator text part : String} (notEmpty : separator ≠ "")
    (inPieces : part ∈ split text separator) : ¬separator.toList <:+: part.toList := by
  obtain ⟨piece, inList, rfl⟩ := List.mem_map.mp inPieces
  rw [String.toList_ofList]
  have someChars : separator.toList ≠ [] := by simpa using notEmpty
  revert inList someChars
  cases separator.toList with
  | nil => exact fun _ absurdly => absurd rfl absurdly
  | cons first others =>
      exact fun inList notNil => not_infix_pieces notNil 0 text.toList piece inList

end SchemaCodec.Text
