import SchemaCodec.Proofs.Run.RoundTrip
import SchemaCodec.Proofs.Text.Pieces

/-!
Transformations of texts. A run reads the text and checks what was read, and the other way it checks the
value and writes it, so that what such a schema takes and gives is known from its two functions.
-/

namespace SchemaCodec.Run

open Schema

variable {targets : Targets} {settings : Settings} {input value : Value}

theorem partialOn_eq_ok_iff {apply : Value → Option Value} {options : Options} {expected : Expected} :
    (Transformer.partialOn apply).apply options expected input = .ok value ↔
      apply input = some value := by
  unfold Transformer.partialOn Transformer.fallible
  dsimp only
  cases apply input with
  | none =>
      constructor
      · intro absurdly
        cases absurdly
      · intro absurdly
        cases absurdly
  | some result =>
      change Except.ok result = Except.ok value ↔ _
      rw [Except.ok.injEq, Option.some.injEq]

private theorem yields_string_iff : Yields targets settings Schema.string input (.ok value) ↔
    ∃ text, input = .string text ∧ value = .string text := by
  have leaf : Schema.string.kind.IsLeaf := trivial
  rw [yields_iff_step, step_leaf leaf]
  constructor
  · rintro ⟨admitted, rfl⟩
    cases value with
    | string text => exact ⟨text, rfl, rfl⟩
    | _ => cases admitted
  · rintro ⟨text, rfl, rfl⟩
    exact ⟨rfl, rfl⟩

section Transform

variable {id : NodeId} {target : Schema} {decode encode : Transformer}

/-- The text is read and the target takes what was read. -/
theorem decodes_text_iff (prompt : decode.suspends = false) :
    Yields targets settings.decoding (Schema.transform id .string target decode encode) input
        (.ok value) ↔
      ∃ text given, input = .string text ∧
        decode.apply settings.options (Schema.transform id .string target decode encode).expected
          (.string text) = .ok given ∧
        Yields targets settings.decoding target given (.ok value) := by
  have isTransform : (Schema.transform id .string target decode encode).kind =
      .transform .string target decode encode true := rfl
  rw [yields_iff_step, step_transform_decode isTransform rfl]
  simp only [if_true, outcome?_eq_some, transformer_eq prompt, yields_string_iff]
  constructor
  · rintro ⟨_, given, ⟨text, rfl, rfl⟩, read, took⟩
    exact ⟨text, given, rfl, read, took⟩
  · rintro ⟨text, given, rfl, read, took⟩
    exact ⟨.string text, given, ⟨text, rfl, rfl⟩, read, took⟩

/-- The target takes the value and what it gives is written. -/
theorem encodes_text_iff (prompt : encode.suspends = false) :
    Yields targets settings.encoding (Schema.transform id .string target decode encode) input
        (.ok value) ↔
      ∃ given text, Yields targets settings.encoding target input (.ok given) ∧
        encode.apply settings.options (Schema.transform id .string target decode encode).expected
          given = .ok (.string text) ∧ value = .string text := by
  have isTransform : (Schema.transform id .string target decode encode).kind =
      .transform .string target decode encode true := rfl
  rw [yields_iff_step, step_transform_encode isTransform rfl]
  simp only [if_true, outcome?_eq_some, transformer_eq prompt, yields_string_iff]
  constructor
  · rintro ⟨given, _, took, wrote, ⟨text, rfl, rfl⟩⟩
    exact ⟨given, text, took, wrote, rfl⟩
  · rintro ⟨given, text, took, wrote, rfl⟩
    exact ⟨given, .string text, took, wrote, ⟨text, rfl, rfl⟩⟩

end Transform

/-! ### Split texts -/

/-- An array of texts is taken as it is. -/
private theorem yields_texts (id : NodeId) (texts : List String) :
    Yields targets settings (Schema.array id .string) (.array (texts.map .string))
      (.ok (.array (texts.map .string))) := by
  have isTuple : (Schema.array id .string).kind = .tuple [] [.string] := rfl
  rw [yields_iff_step, step_tuple isTuple]
  refine ⟨_, rfl, Nat.zero_le _, nofun, texts.map .string, ?_, rfl⟩
  have repeated : slots [] [Schema.string] (texts.map Value.string).length =
      List.replicate texts.length Schema.string := by
    simp [slots]
  rw [repeated]
  induction texts with
  | nil => exact .nil _
  | cons text rest ih =>
      apply ItemsMatch.cons
      · exact outcome?_eq_some.mpr (yields_string_iff.mpr ⟨text, rfl, rfl⟩)
      · exact ih (by simp [slots])

private theorem joinValue_texts (separator : String) (texts : List String) :
    joinValue separator (.array (texts.map .string)) = .string (separator.intercalate texts) := by
  have shown : Value.display ∘ Value.string = fun text => text := by
    funext text
    rw [Function.comp_apply, Value.display]
  rw [joinValue, List.map_map, shown, List.map_id']

/-- Every text can be split at every separator, and the pieces joined are the text again; no piece has
the separator in it, unless the separator is empty. -/
theorem split_joins (targets : Targets) (settings : Settings) (id : NodeId)
    (separator text : String) :
    ∃ parts : List String,
      Yields targets settings.decoding (Schema.split id .string separator) (.string text)
        (.ok (.array (parts.map .string))) ∧
      Yields targets settings.encoding (Schema.split id .string separator)
        (.array (parts.map .string)) (.ok (.string text)) ∧
      (separator ≠ "" → ∀ part ∈ parts, ¬separator.toList <:+: part.toList) := by
  refine ⟨Text.split text separator, ?_, ?_, ?_⟩
  · exact (decodes_text_iff rfl).mpr ⟨text, _, rfl, rfl, yields_texts _ _⟩
  · refine (encodes_text_iff rfl).mpr ⟨_, text, yields_texts _ _, ?_, rfl⟩
    change Except.ok (joinValue separator (.array ((Text.split text separator).map .string))) = _
    rw [joinValue_texts, Text.intercalate_split]
  · exact fun notEmpty part inParts => Text.not_infix_of_mem_split notEmpty inParts

/-- The first of two occurrences that overlap is the one that is cut out. -/
example : Text.split "aaab" "aa" = ["", "ab"] := by decide

end SchemaCodec.Run
