import SchemaCodec.Proofs.Run.Level

/-!
Runs without a bound on their depth. A run that gives an outcome within some depth gives the same
outcome within every greater depth, so that a schema, a value and settings have at most one outcome.
The outcomes without a bound satisfy the equation of a single step: later arguments unfold one level
at a time and need not say how deep a run goes.
-/

namespace SchemaCodec.Run

/-! ### Chains of partial results -/

/-- Results that appear at some depth, stay from there on, and make up the limit. -/
structure Settles {α : Type} (chain : Nat → Option α) (limit : Option α) : Prop where
  stays : ∀ depth value, chain depth = some value → chain (depth + 1) = some value
  reached : ∀ value, limit = some value ↔ ∃ depth, chain depth = some value

namespace Settles

variable {α β : Type}

private theorem const (result : Option α) : Settles (fun _ => result) result :=
  ⟨fun _ _ found => found, fun _ => ⟨fun found => ⟨0, found⟩, fun ⟨_, found⟩ => found⟩⟩

theorem le {chain : Nat → Option α} {limit : Option α} (settles : Settles chain limit)
    {depth deeper : Nat} (below : depth ≤ deeper) {value : α} (found : chain depth = some value) :
    chain deeper = some value := by
  induction below with
  | refl => exact found
  | step _ ih => exact settles.stays _ _ ih

theorem unique {chain : Nat → Option α} {limit other : Option α} (settles : Settles chain limit)
    (settlesToo : Settles chain other) : limit = other := by
  apply Option.ext
  intro value
  rw [settles.reached value, settlesToo.reached value]

private theorem shift {chain : Nat → Option α} {limit : Option α} (settles : Settles chain limit) :
    Settles (fun depth => chain (depth + 1)) limit := by
  refine ⟨fun depth => settles.stays (depth + 1), fun value => ?_⟩
  rw [settles.reached value]
  constructor
  · rintro ⟨depth, found⟩
    exact ⟨depth, settles.stays depth value found⟩
  · rintro ⟨depth, found⟩
    exact ⟨depth + 1, found⟩

theorem bind {chain : Nat → Option α} {limit : Option α} {next : Nat → α → Option β}
    {nextLimit : α → Option β} (settles : Settles chain limit)
    (nextSettles : ∀ value, Settles (fun depth => next depth value) (nextLimit value)) :
    Settles (fun depth => chain depth >>= next depth) (limit >>= nextLimit) := by
  constructor
  · intro depth result found
    obtain ⟨value, valueAt, resultAt⟩ := Option.bind_eq_some_iff.1 found
    exact Option.bind_eq_some_iff.2
      ⟨value, settles.stays depth value valueAt, (nextSettles value).stays depth result resultAt⟩
  · intro result
    constructor
    · intro found
      obtain ⟨value, valueAt, resultAt⟩ := Option.bind_eq_some_iff.1 found
      obtain ⟨depth, atDepth⟩ := (settles.reached value).1 valueAt
      obtain ⟨other, atOther⟩ := ((nextSettles value).reached result).1 resultAt
      refine ⟨max depth other, Option.bind_eq_some_iff.2 ⟨value, ?_, ?_⟩⟩
      · exact settles.le (Nat.le_max_left depth other) atDepth
      · exact (nextSettles value).le (Nat.le_max_right depth other) atOther
    · rintro ⟨depth, found⟩
      obtain ⟨value, valueAt, resultAt⟩ := Option.bind_eq_some_iff.1 found
      exact Option.bind_eq_some_iff.2 ⟨value, (settles.reached value).2 ⟨depth, valueAt⟩,
        ((nextSettles value).reached result).2 ⟨depth, resultAt⟩⟩

end Settles

/-! ### Chains alongside their limits -/

def settling : Alongside (ReaderT Nat Option) Option where
  rel chain limit := Settles chain limit
  pure value := .const (some value)
  bind settles later := settles.bind later

def atDepth (depth : Nat) : Alongside (ReaderT Nat Option) Option where
  rel chain result := chain depth = result
  pure _ := rfl
  bind := by
    rintro α β chain _ next nextToo rfl later
    exact congrArg (chain depth >>= ·) (funext later)

/-- A walker settles if it goes alongside its limit, and at each depth alongside itself. -/
private theorem Settles.of_rel {α : Type} {walked : ReaderT Nat Option α} {chain : Nat → Option α}
    {limit : Option α} (settles : settling.rel walked limit)
    (atEach : ∀ depth, (atDepth depth).rel walked (chain depth)) : Settles chain limit :=
  (funext atEach : walked = chain) ▸ settles

/-- What the first computation gives, the second one gives as well. -/
def extending : Alongside Option Option where
  rel first second := ∀ value, first = some value → second = some value
  pure _ _ found := found
  bind := by
    intro α β first second next nextToo here later result found
    obtain ⟨value, valueAt, resultAt⟩ := Option.bind_eq_some_iff.1 found
    exact Option.bind_eq_some_iff.2 ⟨value, here value valueAt, later value result resultAt⟩

/-! ### One level -/

private theorem step_settles (enter : LazyCell → Option Schema)
    {run : Nat → Settings → Schema → Value → Option Outcome}
    {limit : Settings → Schema → Value → Option Outcome}
    (settles : ∀ settings schema input,
      Settles (fun depth => run depth settings schema input) (limit settings schema input))
    (settings : Settings) (schema : Schema) (input : Value) :
    Settles (fun depth => step enter (run depth) settings schema input)
      (step enter limit settings schema input) := by
  have walked : settling.rel
      (step (fun cell _ => enter cell)
        (fun settings schema input depth => run depth settings schema input) settings schema input)
      (step enter limit settings schema input) := by
    refine settling.rel_step (fun _ => Schema.never) (fun others part _ => settles others part) ?_ input
    exact fun cell _ input => (Settles.const (enter cell)).bind fun target =>
      settles settings target input
  refine .of_rel walked fun depth => ?_
  exact (atDepth depth).rel_step (fun _ => Schema.never) (fun _ _ _ _ => rfl) (fun _ _ _ => rfl) input

/-- A level gives what it gives over runs that give less. -/
theorem step_mono (enter : LazyCell → Option Schema)
    {run deeper : Settings → Schema → Value → Option Outcome}
    (below : ∀ settings schema input outcome, run settings schema input = some outcome →
      deeper settings schema input = some outcome)
    {settings : Settings} {schema : Schema} {input : Value} {outcome : Outcome}
    (found : step enter run settings schema input = some outcome) :
    step enter deeper settings schema input = some outcome := by
  refine extending.rel_step (fun _ => Schema.never) (fun others part _ => ?_) ?_ input outcome found
  · exact fun input => below others part input
  · intro cell _ input
    exact extending.bind (fun _ entered => entered) fun target => below settings target input

/-! ### Outcomes without a bound -/

variable (targets : Targets)

def Yields (settings : Settings) (schema : Schema) (input : Value) (outcome : Outcome) : Prop :=
  ∃ depth, parse targets depth settings schema input = some outcome

def Ends (settings : Settings) (schema : Schema) (input : Value) : Prop :=
  ∃ outcome, Yields targets settings schema input outcome

open Classical in
noncomputable def outcome? (settings : Settings) (schema : Schema) (input : Value) :
    Option Outcome :=
  if ends : Ends targets settings schema input then some (choose ends) else none

theorem parse_succ (depth : Nat) (settings : Settings) (schema : Schema) (input : Value) :
    parse targets (depth + 1) settings schema input =
      step (fun cell => some (cell.resolve targets)) (parse targets depth) settings schema input :=
  rfl

/-- A deeper run gives what a run gives. -/
theorem parse_stays (depth : Nat) (settings : Settings) (schema : Schema) (input : Value)
    (outcome : Outcome) (found : parse targets depth settings schema input = some outcome) :
    parse targets (depth + 1) settings schema input = some outcome := by
  induction depth generalizing settings schema input outcome with
  | zero => cases found
  | succ depth ih => exact step_mono _ ih found

theorem parse_le {depth deeper : Nat} (below : depth ≤ deeper) {settings : Settings}
    {schema : Schema} {input : Value} {outcome : Outcome}
    (found : parse targets depth settings schema input = some outcome) :
    parse targets deeper settings schema input = some outcome := by
  induction below with
  | refl => exact found
  | step _ ih => exact parse_stays targets _ settings schema input outcome ih

variable {targets}

/-- A run has at most one outcome. -/
theorem Yields.unique {settings : Settings} {schema : Schema} {input : Value}
    {outcome other : Outcome} (yields : Yields targets settings schema input outcome)
    (yieldsToo : Yields targets settings schema input other) : outcome = other := by
  obtain ⟨depth, found⟩ := yields
  obtain ⟨deeper, foundToo⟩ := yieldsToo
  have left := parse_le targets (Nat.le_max_left depth deeper) found
  have right := parse_le targets (Nat.le_max_right depth deeper) foundToo
  exact Option.some.inj (left.symm.trans right)

theorem outcome?_eq_some {settings : Settings} {schema : Schema} {input : Value}
    {outcome : Outcome} :
    outcome? targets settings schema input = some outcome ↔
      Yields targets settings schema input outcome := by
  unfold outcome?
  split
  · rename_i ends
    have chosen := Classical.choose_spec ends
    constructor
    · intro same
      rwa [← Option.some.inj same]
    · intro yields
      rw [chosen.unique yields]
  · rename_i endless
    exact ⟨fun found => (by cases found), fun yields => absurd ⟨outcome, yields⟩ endless⟩

private theorem parse_settles (settings : Settings) (schema : Schema) (input : Value) :
    Settles (fun depth => parse targets depth settings schema input)
      (outcome? targets settings schema input) :=
  ⟨fun depth => parse_stays targets depth settings schema input, fun _ => outcome?_eq_some⟩

variable (targets)

/-- Outcomes without a bound satisfy the equation of one level. -/
theorem outcome?_eq_step (settings : Settings) (schema : Schema) (input : Value) :
    outcome? targets settings schema input =
      step (fun cell => some (cell.resolve targets)) (outcome? targets) settings schema input :=
  (parse_settles settings schema input).shift.unique
    (step_settles _ parse_settles settings schema input)

variable {targets}

/-- The outcomes without a bound, as the runs below a level. -/
theorem yields_iff_step {settings : Settings} {schema : Schema} {input : Value}
    {outcome : Outcome} :
    Yields targets settings schema input outcome ↔
      step (fun cell => some (cell.resolve targets)) (outcome? targets) settings schema input =
        some outcome := by
  rw [← outcome?_eq_step, outcome?_eq_some]

end SchemaCodec.Run
