import SchemaCodec.Proofs.Instant.Text
import SchemaCodec.Proofs.Run.TextTransforms

/-!
Runs of dates that are written as texts. Every date that was read can be written; its text is of
milliseconds in universal time, and it is read again as long as the year there has four digits.
-/

namespace SchemaCodec.Run

open Schema

variable {targets : Targets} {settings : Settings} {input value : Value}

private theorem yields_date_iff : Yields targets settings Schema.date input (.ok value) ↔
    ∃ instant, input = .date instant ∧ value = .date instant := by
  have isDeclaration : Schema.date.kind = .declaration [] dateHook dateHook := rfl
  rw [yields_iff_step]
  unfold step
  rw [isDeclaration]
  cases input with
  | date instant =>
      cases settings.direction <;> simp [dateHook, hook, eq_comm]
  | _ => cases settings.direction <;> simp [dateHook, hook, Outcome.fail]

private theorem decodes_date_iff {id : NodeId} : Yields targets settings.decoding
    (Schema.dateFromString id .string) input (.ok value) ↔
      ∃ text instant, input = .string text ∧ Instant.read? text.toList = some instant ∧
        value = .date instant := by
  rw [Schema.dateFromString, decodes_text_iff rfl]
  constructor
  · rintro ⟨text, given, rfl, applied, took⟩
    obtain ⟨instant, found, rfl⟩ := Option.map_eq_some_iff.mp (partialOn_eq_ok_iff.mp applied)
    obtain ⟨_, same, rfl⟩ := yields_date_iff.mp took
    exact ⟨text, instant, rfl, found, same.symm⟩
  · rintro ⟨text, instant, rfl, found, rfl⟩
    have read : dateOfText? (.string text) = some (.date instant) := by
      rw [dateOfText?, found]
      rfl
    exact ⟨text, .date instant, rfl, partialOn_eq_ok_iff.mpr read,
      yields_date_iff.mpr ⟨instant, rfl, rfl⟩⟩

private theorem encodes_date (id : NodeId) (instant : Instant) : Yields targets settings.encoding
    (Schema.dateFromString id .string) (.date instant) (.ok (.string instant.text)) := by
  rw [Schema.dateFromString, encodes_text_iff rfl]
  exact ⟨.date instant, instant.text, yields_date_iff.mpr ⟨instant, rfl, rfl⟩,
    partialOn_eq_ok_iff.mpr rfl, rfl⟩

/-- A date that was decoded is encoded as its text in milliseconds. If its year in universal time has
four digits the text is decoded, to the date without what lies below a millisecond. -/
theorem dates_reread {id : NodeId} {text : String}
    (decodes : Yields targets settings.decoding (Schema.dateFromString id .string) (.string text)
      (.ok value)) :
    ∃ instant, value = .date instant ∧
      Yields targets settings.encoding (Schema.dateFromString id .string) value
        (.ok (.string instant.text)) ∧
      (0 ≤ instant.year → instant.year ≤ 9999 →
        Yields targets settings.decoding (Schema.dateFromString id .string) (.string instant.text)
          (.ok (.date instant.inMilliseconds)) ∧
        (instant.inMilliseconds = instant ↔ 1000000 ∣ instant.nanoseconds)) := by
  obtain ⟨_, instant, _, found, rfl⟩ := decodes_date_iff.mp decodes
  refine ⟨instant, rfl, encodes_date id instant, fun low high => ⟨?_, instant.inMilliseconds_eq_iff⟩⟩
  have again := Instant.read?_chars (Instant.onClock_of_read? found) low high
  refine decodes_date_iff.mpr ⟨instant.text, _, rfl, ?_, rfl⟩
  rw [Instant.text, String.toList_ofList]
  exact again

/-- A leap second that was noted nine hours to the east comes back. -/
theorem leapSecond_reread : ∃ instant,
    Yields (fun _ => .never) ⟨.sync, {}, .decode⟩ (Schema.dateFromString (.made 1) .string)
      (.string "2017-01-01T08:59:60.25+09:00") (.ok (.date instant)) ∧
    Yields (fun _ => .never) ⟨.sync, {}, .decode⟩ (Schema.dateFromString (.made 1) .string)
      (.string instant.text) (.ok (.date instant)) := by
  have decodes : Yields (fun _ => .never) ⟨.sync, {}, .decode⟩
      (Schema.dateFromString (.made 1) .string) (.string "2017-01-01T08:59:60.25+09:00")
      (.ok (.date ⟨1483228799, 1250000000⟩)) :=
    (@decodes_date_iff _ ⟨.sync, {}, .decode⟩ _ _ _).mpr ⟨_, _, rfl, by decide +kernel, rfl⟩
  obtain ⟨_, same, _, again⟩ := @dates_reread _ ⟨.sync, {}, .decode⟩ _ _ _ decodes
  cases same
  have year : Instant.year ⟨1483228799, 1250000000⟩ = 2016 := rfl
  obtain ⟨reread, whole⟩ := again (by rw [year]; decide) (by rw [year]; decide)
  rw [whole.mpr (by decide)] at reread
  exact ⟨_, decodes, reread⟩

def DateReturns (text : String) : Prop :=
  ∀ value, Yields (fun _ => .never) ⟨.sync, {}, .decode⟩ (Schema.dateFromString (.made 1) .string)
      (.string text) (.ok value) →
    ∃ written, Yields (fun _ => .never) ⟨.sync, {}, .encode⟩
        (Schema.dateFromString (.made 1) .string) value (.ok written) ∧
      Yields (fun _ => .never) ⟨.sync, {}, .decode⟩ (Schema.dateFromString (.made 1) .string) written
        (.ok value)

/-- A tenth of a millisecond is not written. A day that is over in universal time when the year 9999 ends
elsewhere has a year of five digits, which is written and not read. -/
theorem dates_not_returned : ¬DateReturns "2020-01-01T00:00:00.0001Z" ∧
    ¬DateReturns "9999-12-31T23:59:59-23:59" := by
  constructor
  · intro returns
    obtain ⟨written, encoded, decoded⟩ := returns (.date ⟨1577836800, 100000⟩) ⟨3, rfl⟩
    have text : Yields (fun _ => .never) ⟨.sync, {}, .encode⟩ (Schema.dateFromString (.made 1) .string)
        (.date ⟨1577836800, 100000⟩) (.ok (.string "2020-01-01T00:00:00.000Z")) := ⟨3, rfl⟩
    cases text.unique encoded
    have other : Yields (fun _ => .never) ⟨.sync, {}, .decode⟩
        (Schema.dateFromString (.made 1) .string) (.string "2020-01-01T00:00:00.000Z")
        (.ok (.date ⟨1577836800, 0⟩)) := ⟨3, rfl⟩
    cases other.unique decoded
  · intro returns
    obtain ⟨written, encoded, decoded⟩ := returns (.date ⟨253402387139, 0⟩) ⟨3, rfl⟩
    have text : Yields (fun _ => .never) ⟨.sync, {}, .encode⟩ (Schema.dateFromString (.made 1) .string)
        (.date ⟨253402387139, 0⟩) (.ok (.string "+10000-01-01T23:58:59.000Z")) := ⟨3, rfl⟩
    cases text.unique encoded
    obtain ⟨_, _, same, found, _⟩ := (@decodes_date_iff _ ⟨.sync, {}, .decode⟩ _ _ _).mp decoded
    cases same
    cases found

end SchemaCodec.Run
