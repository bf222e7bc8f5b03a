import SchemaCodec.Proofs.Run.Level

/-!
Computations that take notes. A level can note every run that it starts below, in order; this does not
change its outcome, and what was noted is kept where a run below is exhausted.
-/

namespace SchemaCodec.Run

abbrev Noting (ε : Type) := OptionT (StateM (List ε))

def note {ε : Type} (entry : ε) : Noting ε Unit :=
  modify (entry :: ·)

/-- The result of a computation and its notes, the last one first, whatever was noted before. -/
def Notes {ε α : Type} (computation : Noting ε α) (result : Option α) (entries : List ε) : Prop :=
  ∀ before, computation.run.run before = (result, entries ++ before)

namespace Notes

variable {ε α β : Type} {computation : Noting ε α} {entries more : List ε} {next : α → Noting ε β}

theorem pure (value : α) : Notes (pure value : Noting ε α) (some value) [] :=
  fun _ => rfl

theorem note (entry : ε) : Notes (note entry) (some ()) [entry] :=
  fun _ => rfl

theorem failure : Notes (failure : Noting ε α) none [] :=
  fun _ => rfl

theorem bind_none (notes : Notes computation none entries) :
    Notes (computation >>= next) none entries := by
  intro before
  rw [OptionT.run_bind, Option.elimM, StateT.run_bind, notes before]
  rfl

theorem bind_some {value : α} {result : Option β} (notes : Notes computation (some value) entries)
    (later : Notes (next value) result more) :
    Notes (computation >>= next) result (more ++ entries) := by
  intro before
  rw [OptionT.run_bind, Option.elimM, StateT.run_bind, notes before, List.append_assoc]
  exact later (entries ++ before)

theorem bind_silent {value : α} {result : Option β} (notes : Notes computation (some value) entries)
    (later : Notes (next value) result []) : Notes (computation >>= next) result entries :=
  notes.bind_some later

theorem map {result : Option α} (notes : Notes computation result entries) (function : α → β) :
    Notes (do return function (← computation)) (result.map function) entries := by
  cases result with
  | none => exact notes.bind_none
  | some value =>
      apply notes.bind_silent
      exact .pure (function value)

theorem unique {result resultToo : Option α} (notes : Notes computation result entries)
    (notesToo : Notes computation resultToo more) : result = resultToo ∧ entries = more := by
  have same := (notes []).symm.trans (notesToo [])
  rw [List.append_nil, List.append_nil] at same
  exact Prod.ext_iff.mp same

end Notes

/-- The computation that takes notes gives the result of the other one and notes only such entries. -/
def noting {ε : Type} (holds : ε → Prop) : Alongside (Noting ε) Option where
  rel computation plain := ∃ entries, Notes computation plain entries ∧ ∀ entry ∈ entries, holds entry
  pure value := ⟨[], .pure value, nofun⟩
  bind := by
    rintro α β computation plain next nextToo ⟨entries, notes, here⟩ later
    cases plain with
    | none => exact ⟨entries, notes.bind_none, here⟩
    | some value =>
        obtain ⟨more, notesToo, there⟩ := later value
        refine ⟨more ++ entries, notes.bind_some notesToo, fun entry member => ?_⟩
        exact (List.mem_append.mp member).elim (there entry) (here entry)

/-! ### The runs that a level starts -/

structure Start where
  settings : Settings
  schema : Schema
  input : Value

def noted (run : Settings → Schema → Value → Option Outcome) (settings : Settings) (schema : Schema)
    (input : Value) : Noting Start Outcome := do
  note ⟨settings, schema, input⟩
  OptionT.mk (pure (run settings schema input))

theorem notes_noted (run : Settings → Schema → Value → Option Outcome) (settings : Settings)
    (schema : Schema) (input : Value) :
    Notes (noted run settings schema input) (run settings schema input)
      [⟨settings, schema, input⟩] :=
  fun _ => rfl

def notedLevel (targets : Targets) (depth : Nat) (settings : Settings) (schema : Schema)
    (input : Value) : Noting Start Outcome :=
  step (fun cell => pure (cell.resolve targets)) (noted (parse targets depth)) settings schema input

def starts (targets : Targets) (depth : Nat) (settings : Settings) (schema : Schema)
    (input : Value) : List Start :=
  ((notedLevel targets depth settings schema input).run.run []).2.reverse

/-- Noting what a level starts does not change its outcome. -/
theorem starts_of_notes {targets : Targets} {depth : Nat} {settings : Settings} {schema : Schema}
    {input : Value} {result : Option Outcome} {entries : List Start}
    (notes : Notes (notedLevel targets depth settings schema input) result entries) :
    parse targets (depth + 1) settings schema input = result ∧
      starts targets depth settings schema input = entries.reverse := by
  have along : (noting fun _ : Start => True).rel (notedLevel targets depth settings schema input)
      (parse targets (depth + 1) settings schema input) := by
    apply (noting fun _ => True).rel_step targets
    · intro others part _ input
      exact ⟨_, notes_noted _ others part input, fun _ _ => trivial⟩
    · intro cell _ input
      exact ⟨_, notes_noted _ settings (cell.resolve targets) input, fun _ _ => trivial⟩
  obtain ⟨other, notesToo, _⟩ := along
  constructor
  · exact (notesToo.unique notes).1
  · rw [starts, notes [], List.append_nil]

end SchemaCodec.Run
