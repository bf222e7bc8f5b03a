import SchemaCodec.Proofs.Run.FailFast
import SchemaCodec.Proofs.Run.Termination

/-!
Runs that may not wait against runs that may. A noted run is the run that may not wait, with a note of
the functions it could not wait for and of what became of each. A run that comes to none of them does
what the waiting run does; one that comes to some fails and tells each of them at its place, or the
absent field it belongs to, unless a union goes on to a member that succeeds.
-/

namespace SchemaCodec

/-! ### Functions that are met -/

/-- What becomes of a function that a run comes to and cannot wait for: it is told to be forbidden, or
the absent field that it belongs to is told to be missing, or a union passes it by, succeeding with
another member. -/
inductive Fate where
  | forbidden
  | missing
  | passed
deriving DecidableEq, Repr

structure Meeting where
  /-- Where the function stands, or the absent field it belongs to. -/
  place : List PathStep
  fate : Fate
deriving DecidableEq, Repr

namespace Meeting

def here : Meeting := ⟨[], .forbidden⟩

def under (step : PathStep) (meeting : Meeting) : Meeting :=
  { meeting with place := step :: meeting.place }

/-- The meeting belongs to an absent field. -/
def absent (name : PropertyKey) (meeting : Meeting) : Meeting :=
  if meeting.fate = .passed then meeting.under (.key name) else ⟨[.key name], .missing⟩

def passBy (meeting : Meeting) : Meeting :=
  { meeting with fate := .passed }

/-- The issue is the fate of the function, told at its place below the path. Only where absent fields
are run can they be missing on account of a function. -/
def ToldBy (exact : Bool) (path : List PathStep) (meeting : Meeting) (issue : Issue) : Prop :=
  issue.path = path ++ meeting.place ∧
    (meeting.fate = .forbidden ∧ issue.kind = .forbidden ∨
      meeting.fate = .missing ∧ exact = false ∧ issue.kind = .missing)

end Meeting

def Fault.Tells (exact : Bool) (meeting : Meeting) (fault : Fault) : Prop :=
  ∀ path, ∃ issue ∈ fault.issuesAt path, meeting.ToldBy exact path issue

def Faults.Tell (exact : Bool) (meeting : Meeting) (faults : Faults) : Prop :=
  ∀ path, ∃ issue ∈ faults.issuesAt path, meeting.ToldBy exact path issue

private theorem Faults.mem_issuesAt {path : List PathStep} {issue : Issue} {faults : Faults} :
    issue ∈ faults.issuesAt path ↔ ∃ fault ∈ faults.toList, issue ∈ fault.issuesAt path := by
  induction faults using Faults.rec (motive_1 := fun _ => True) with
  | single fault _ => simp [Faults.issuesAt, Faults.toList]
  | cons fault rest _ ih => simp [Faults.issuesAt, Faults.toList, ih]
  | _ => trivial

private theorem Faults.tell_of_mem {exact : Bool} {meeting : Meeting} {fault first : Fault}
    {rest : List Fault} (member : fault ∈ first :: rest) (tells : fault.Tells exact meeting) :
    (Faults.ofCons first rest).Tell exact meeting := by
  intro path
  obtain ⟨issue, inFault, told⟩ := tells path
  exact ⟨issue, mem_issuesAt.mpr ⟨fault, by rwa [toList_ofCons], inFault⟩, told⟩

private theorem Faults.tell_of_ofList? {exact : Bool} {meeting : Meeting} {list : List Fault}
    {faults : Faults} (made : Faults.ofList? list = some faults) {fault : Fault}
    (member : fault ∈ list) (tells : fault.Tells exact meeting) : faults.Tell exact meeting := by
  cases list with
  | nil => cases member
  | cons first rest =>
      cases made
      exact tell_of_mem member tells

private theorem Faults.tell_here {exact : Bool} : (Faults.single .forbidden).Tell exact .here :=
  fun path => ⟨⟨path, .forbidden, _⟩, List.mem_singleton.mpr rfl, (List.append_nil path).symm,
    Or.inl ⟨rfl, rfl⟩⟩

private theorem Fault.tells_index {exact : Bool} {meeting : Meeting} {faults : Faults}
    (tell : faults.Tell exact meeting) (position : Nat) :
    (Fault.index position faults).Tells exact (meeting.under (.index position)) := by
  intro path
  obtain ⟨issue, inFaults, samePath, fate⟩ := tell (path ++ [.index position])
  exact ⟨issue, inFaults, samePath.trans (List.append_assoc _ _ _), fate⟩

private theorem Fault.tells_key {exact : Bool} {meeting : Meeting} {faults : Faults}
    (tell : faults.Tell exact meeting) (key : PropertyKey) :
    (Fault.key key faults).Tells exact (meeting.under (.key key)) := by
  intro path
  obtain ⟨issue, inFaults, samePath, fate⟩ := tell (path ++ [.key key])
  exact ⟨issue, inFaults, samePath.trans (List.append_assoc _ _ _), fate⟩

private theorem Fault.tells_unionMember {exact : Bool} {meeting : Meeting} {faults : Faults}
    (tell : faults.Tell exact meeting) : (Fault.unionMember faults).Tells exact meeting := tell

/-- What was wrong with an absent field is lost; that it is missing stands for it. -/
private theorem Fault.tells_missing (name : PropertyKey) :
    (Fault.key name (.single .missing)).Tells false ⟨[.key name], .missing⟩ :=
  fun path => ⟨⟨path ++ [.key name], .missing, _⟩, List.mem_singleton.mpr rfl, rfl,
    Or.inr ⟨rfl, rfl, rfl⟩⟩

namespace Run

/-! ### Notes -/

abbrev Note := List Meeting

/-- Results with a note of what the run came to; none if the run is exhausted. -/
def Noted (α : Type) : Type := Option (α × Note)

instance : Monad Noted where
  pure value := some (value, [])
  bind noted next := Option.bind noted fun (value, note) =>
    Option.map (fun (result, later) => (result, note ++ later)) (next value)

namespace Noted

private theorem pure_bind {α β : Type} (value : α) (next : α → Noted β) :
    (pure value : Noted α) >>= next = next value := by
  change Option.map (fun (result, later) => (result, [] ++ later)) (next value) = next value
  exact Option.map_id'

def mapNote {α : Type} (function : Meeting → Meeting) (noted : Noted α) : Noted α :=
  Option.map (fun (value, note) => (value, note.map function)) noted

/-- A success is followed by a function that suspends. -/
def meet (noted : Noted Outcome) : Noted Outcome :=
  Option.map (fun (outcome, note) =>
    (outcome, if outcome.isOk then note ++ [Meeting.here] else note)) noted

/-- A union that succeeds passes by what its members came to. -/
def pass (noted : Noted Outcome) : Noted Outcome :=
  Option.map (fun (outcome, note) =>
    (outcome, if outcome.isOk then note.map Meeting.passBy else note)) noted

end Noted

def notePositions {α : Type} : Nat → List (Noted α) → List (Noted α)
  | _, [] => []
  | first, step :: rest =>
    step.mapNote (.under (.index first)) :: notePositions (first + 1) rest

def tupleNoted (run : Schema → Value → Noted Outcome) (mode : FaultMode)
    (elements : List (Element Schema)) (rest : List Schema) (items : List Value) :
    Noted Outcome := do
  let excess : List (Noted (Except Fault Value)) :=
    if rest.isEmpty then excessItems elements.length (items.drop elements.length) else []
  let steps := notePositions 0 (itemSteps run 0 (slots elements rest items.length) items)
  let outcome ← collect mode (missingItems elements rest items.length ++ excess ++ steps)
  return outcome.map Value.array

def fieldStepNoted? (run : Schema → Value → Noted Outcome) (exact : Bool) (members : Members)
    (field : Field Schema) : Option (Noted MemberResult) :=
  (fieldStep? run exact members field).map <|
    match Table.find? field.name members with
    | some _ => Noted.mapNote (.under (.key field.name))
    | none => Noted.mapNote (.absent field.name)

def indexStepNoted (run : Schema → Value → Noted Outcome) (index : IndexSignature Schema)
    (member : PropertyKey × Value) : Noted MemberResult :=
  (indexStep run index member).mapNote (.under (.key member.1))

def structNoted (run decodeKey : Schema → Value → Noted Outcome) (options : Options)
    (fields : List (Field Schema)) (indexes : List (IndexSignature Schema)) (members : Members) :
    Noted Outcome := do
  let excess : List (Noted MemberResult) :=
    if options.excess = .error then members.map (excessStep decodeKey fields indexes) else []
  let declared := fields.filterMap (fieldStepNoted? run options.exact members)
  let indexed := indexes.flatMap fun index =>
    (indexMembers fields index members).map (indexStepNoted run index)
  let outcome ← collect options.faults (excess ++ declared ++ indexed)
  return outcome.map fun results =>
    let output := Table.ofEntries (results.filterMap fun result => result)
    .object (if options.excess = .preserve then preserve output members else output)

end Run

/-- Runs in the direction apply a function that suspends after the near side. -/
def Kind.suspends (direction : Direction) : Kind Schema → Bool
  | .transform _ _ decode encode _ =>
    match direction with
    | .decode => decode.suspends
    | .encode => encode.suspends
  | _ => false

def Kind.isUnion : Kind Schema → Bool
  | .union _ => true
  | _ => false

namespace Run

/-- One level of a noted run: what the level does, with the places and fates noted. -/
def stepNoted (enter : LazyCell → Noted Schema) (below : Settings → Schema → Value → Noted Outcome)
    (settings : Settings) (schema : Schema) (input : Value) : Noted Outcome :=
  let level := step enter below settings schema input
  match schema.kind with
  | .tuple elements rest =>
    match input with
    | .array items => tupleNoted (below settings) settings.options.faults elements rest items
    | _ => level
  | .struct fields indexes =>
    match input with
    | .object members =>
      if fields.isEmpty && indexes.isEmpty then level
      else structNoted (below settings) (below settings.decoding) settings.options fields indexes
        members
    | _ => level
  | .union _ => level.pass
  | kind =>
    if kind.suspends settings.direction then
      step enter (fun settings schema input => (below settings schema input).meet) settings schema
        input
    else level

def parseNoted (targets : Targets) : Nat → Settings → Schema → Value → Noted Outcome
  | 0, _, _, _ => none
  | depth + 1, settings, schema, input =>
    stepNoted (fun cell => pure (cell.resolve targets)) (parseNoted targets depth) settings schema
      input

def YieldsNoted (targets : Targets) (settings : Settings) (schema : Schema) (input : Value)
    (outcome : Outcome) (note : Note) : Prop :=
  ∃ depth, parseNoted targets depth settings.withoutWaiting schema input = some (outcome, note)

/-! ### Three runs side by side -/

/-- The noted run and the run without notes give the same. If nothing was met, the run that may wait
gives it, too; and whatever was met has been passed by or is held by the result. -/
inductive Agrees {α : Type} (holds : Meeting → α → Prop) :
    Noted α → Option α → Option α → Prop where
  | exhausted {waiting : Option α} : Agrees holds none none waiting
  | ran {value : α} {note : Note} {waiting : Option α} (quiet : note = [] → waiting = some value)
      (shown : ∀ meeting ∈ note, meeting.fate = .passed ∨ holds meeting value) :
      Agrees holds (some (value, note)) (some value) waiting

/-- A failure that tells of the meeting. -/
def Fails {ε α : Type} (tells : Meeting → ε → Prop) (meeting : Meeting) (result : Except ε α) :
    Prop :=
  ∃ fault, result = .error fault ∧ tells meeting fault

/-- Nothing is met but what is passed by. -/
def Nothing {α : Type} (_ : Meeting) (_ : α) : Prop := False

namespace Agrees

variable {α β : Type} {holds : Meeting → α → Prop} {holdsToo : Meeting → β → Prop}
  {noted : Noted α} {plain waiting : Option α} {value : α} {note : Note}

theorem pure (value : α) : Agrees holds (Pure.pure value) (some value) (some value) :=
  .ran (fun _ => rfl) fun _ inNil => (List.not_mem_nil inNil).elim

theorem imp {others : Meeting → α → Prop} (agrees : Agrees holds noted plain waiting)
    (implies : ∀ meeting value, holds meeting value → others meeting value) :
    Agrees others noted plain waiting := by
  cases agrees with
  | exhausted => exact .exhausted
  | ran quiet shown =>
      exact .ran quiet fun meeting inNote => (shown meeting inNote).imp_right (implies _ _)

private theorem of_nothing (agrees : Agrees Nothing noted plain waiting) :
    Agrees holds noted plain waiting :=
  agrees.imp fun _ _ never => never.elim

theorem bind {nextNoted : α → Noted β} {nextPlain nextWaiting : α → Option β}
    (agrees : Agrees holds noted plain waiting)
    (next : ∀ value, Agrees holdsToo (nextNoted value) (nextPlain value) (nextWaiting value))
    (keeps : ∀ meeting value, holds meeting value → ∀ result note,
      nextNoted value = some (result, note) → holdsToo meeting result) :
    Agrees holdsToo (noted >>= nextNoted) (plain >>= nextPlain) (waiting >>= nextWaiting) := by
  cases agrees with
  | exhausted => exact .exhausted
  | @ran value note waiting quiet shown =>
      have later := next value
      have kept := fun meeting inNote => (shown meeting inNote).imp_right (keeps meeting value)
      change Agrees holdsToo (Option.map (fun (result, later) => (result, note ++ later))
        (nextNoted value)) (nextPlain value) (waiting >>= nextWaiting)
      have waits : note = [] → waiting >>= nextWaiting = nextWaiting value := fun unmet => by
        rw [quiet unmet]
        rfl
      generalize nextNoted value = reached, nextPlain value = plainly,
        nextWaiting value = waitingly at later kept waits ⊢
      cases later with
      | exhausted => exact .exhausted
      | ran quietToo shownToo =>
          refine .ran (fun unmet => ?_) fun meeting met => ?_
          · obtain ⟨unmetFirst, unmetLater⟩ := List.append_eq_nil_iff.mp unmet
            rw [waits unmetFirst, quietToo unmetLater]
          · rcases List.mem_append.mp met with inNote | inLater
            · exact (kept meeting inNote).imp_right fun keep => keep _ _ rfl
            · exact shownToo meeting inLater

/-- A note may say more than before. -/
private theorem mapNote {function : Meeting → Meeting} {others : Meeting → α → Prop}
    (agrees : Agrees holds noted plain waiting)
    (passes : ∀ meeting, meeting.fate = .passed → (function meeting).fate = .passed)
    (holdsStill : ∀ meeting value, meeting.fate ≠ .passed → holds meeting value →
      others (function meeting) value) :
    Agrees others (noted.mapNote function) plain waiting := by
  cases agrees with
  | exhausted => exact .exhausted
  | ran quiet shown =>
      refine .ran (fun unmet => quiet (List.map_eq_nil_iff.mp unmet)) fun meeting inMapped => ?_
      obtain ⟨former, inNote, rfl⟩ := List.mem_map.mp inMapped
      by_cases passed : former.fate = .passed
      · exact Or.inl (passes former passed)
      · exact Or.inr (holdsStill former _ passed ((shown former inNote).resolve_left passed))

private theorem noted_of_plain (agrees : Agrees holds noted plain waiting)
    (ran : plain = some value) :
    ∃ note, noted = some (value, note) := by
  cases agrees <;> cases ran
  exact ⟨_, rfl⟩

private theorem plain_of_noted (agrees : Agrees holds noted plain waiting)
    (ran : noted = some (value, note)) : plain = some value := by
  cases agrees <;> cases ran
  rfl

private theorem waiting_of_unmet (agrees : Agrees holds noted plain waiting)
    (ran : noted = some (value, [])) : waiting = some value := by
  cases agrees with
  | exhausted => cases ran
  | ran quiet _ =>
      cases ran
      exact quiet rfl

private theorem shown_of_met (agrees : Agrees holds noted plain waiting)
    (ran : noted = some (value, note)) {meeting : Meeting} (met : meeting ∈ note)
    (notPassed : meeting.fate ≠ .passed) : holds meeting value := by
  cases agrees with
  | exhausted => cases ran
  | ran _ shown =>
      cases ran
      exact (shown meeting met).resolve_left notPassed

/-- What only a success leads on from. -/
private theorem andThen {ε η : Type} {tells : Meeting → ε → Prop} {tellsToo : Meeting → η → Prop}
    {noted : Noted (Except ε α)} {plain waiting : Option (Except ε α)}
    {nextNoted : Except ε α → Noted (Except η β)}
    {nextPlain nextWaiting : Except ε α → Option (Except η β)} (wrap : ε → η)
    (agrees : Agrees (Fails tells) noted plain waiting)
    (fails : ∀ fault, nextNoted (.error fault) = some (.error (wrap fault), []) ∧
      nextPlain (.error fault) = some (.error (wrap fault)) ∧
      nextWaiting (.error fault) = some (.error (wrap fault)))
    (keeps : ∀ meeting fault, tells meeting fault → tellsToo meeting (wrap fault))
    (next : ∀ value, Agrees (Fails tellsToo) (nextNoted (.ok value)) (nextPlain (.ok value))
      (nextWaiting (.ok value))) :
    Agrees (Fails tellsToo) (noted >>= nextNoted) (plain >>= nextPlain)
      (waiting >>= nextWaiting) := by
  refine agrees.bind (fun result => ?_) ?_
  · cases result with
    | ok value => exact next value
    | error fault =>
        obtain ⟨notedFails, plainFails, waitingFails⟩ := fails fault
        rw [notedFails, plainFails, waitingFails]
        exact .pure _
  · rintro meeting _ ⟨fault, rfl, told⟩ result note reached
    rw [(fails fault).1] at reached
    cases reached
    exact ⟨wrap fault, rfl, keeps meeting fault told⟩

end Agrees

inductive AgreeAll {α : Type} (holds : Meeting → α → Prop) :
    List (Noted α) → List (Option α) → List (Option α) → Prop where
  | nil : AgreeAll holds [] [] []
  | cons {noted : Noted α} {plain waiting : Option α} {noteds : List (Noted α)}
      {plains waitings : List (Option α)} (head : Agrees holds noted plain waiting)
      (tail : AgreeAll holds noteds plains waitings) :
      AgreeAll holds (noted :: noteds) (plain :: plains) (waiting :: waitings)

namespace AgreeAll

variable {α β : Type} {holds : Meeting → α → Prop}

theorem append {noteds others : List (Noted α)} {plains otherPlains : List (Option α)}
    {waitings otherWaitings : List (Option α)} (agree : AgreeAll holds noteds plains waitings)
    (agreeToo : AgreeAll holds others otherPlains otherWaitings) :
    AgreeAll holds (noteds ++ others) (plains ++ otherPlains) (waitings ++ otherWaitings) := by
  induction agree with
  | nil => exact agreeToo
  | cons head _ ih => exact .cons head ih

theorem map {noted : β → Noted α} {plain waiting : β → Option α} {items : List β}
    (each : ∀ item ∈ items, Agrees holds (noted item) (plain item) (waiting item)) :
    AgreeAll holds (items.map noted) (items.map plain) (items.map waiting) := by
  induction items with
  | nil => exact .nil
  | cons item rest ih =>
      exact .cons (each item List.mem_cons_self)
        (ih fun other inRest => each other (List.mem_cons_of_mem _ inRest))

theorem flatMap {noted : β → List (Noted α)} {plain waiting : β → List (Option α)}
    {items : List β}
    (each : ∀ item ∈ items, AgreeAll holds (noted item) (plain item) (waiting item)) :
    AgreeAll holds (items.flatMap noted) (items.flatMap plain) (items.flatMap waiting) := by
  induction items with
  | nil => exact .nil
  | cons item rest ih =>
      exact (each item List.mem_cons_self).append
        (ih fun other inRest => each other (List.mem_cons_of_mem _ inRest))

end AgreeAll

/-! ### Collecting -/

section Walkers

variable {exact : Bool}

private theorem results_agree {α : Type} (mode : FaultMode) {tells : Meeting → Fault → Prop}
    {noteds : List (Noted (Except Fault α))} {plains waitings : List (Option (Except Fault α))}
    (agree : AgreeAll (Fails tells) noteds plains waitings) :
    Agrees (fun meeting all => ∃ fault, .error fault ∈ all ∧ tells meeting fault)
      (results mode noteds) (results mode plains) (results mode waitings) := by
  induction agree with
  | nil => exact .pure []
  | @cons noted plain waiting noteds plains waitings head _ ih =>
      refine head.bind (fun result => ?_) ?_
      · cases result with
        | ok value =>
            refine ih.bind (fun others => .pure _) ?_
            rintro meeting others ⟨fault, inOthers, told⟩ all note made
            cases made
            exact ⟨fault, List.mem_cons_of_mem _ inOthers, told⟩
        | error fault =>
            cases mode with
            | first => exact .pure _
            | all =>
                refine ih.bind (fun others => .pure _) ?_
                rintro meeting others ⟨fault, inOthers, told⟩ all note made
                cases made
                exact ⟨fault, List.mem_cons_of_mem _ inOthers, told⟩
      · rintro meeting _ ⟨fault, rfl, told⟩ all note reached
        refine ⟨fault, ?_, told⟩
        cases mode with
        | first =>
            cases reached
            exact List.mem_singleton.mpr rfl
        | all =>
            obtain ⟨⟨others, later⟩, _, made⟩ := Option.bind_eq_some_iff.mp reached
            cases made
            exact List.mem_cons_self

private theorem collect_agrees {α : Type} (mode : FaultMode)
    {noteds : List (Noted (Except Fault α))}
    {plains waitings : List (Option (Except Fault α))}
    (agree : AgreeAll (Fails (Fault.Tells exact)) noteds plains waitings) :
    Agrees (Fails (Faults.Tell exact)) (collect mode noteds) (collect mode plains)
      (collect mode waitings) := by
  refine (results_agree mode agree).bind (fun all => .pure _) ?_
  rintro meeting all ⟨fault, inAll, told⟩ outcome note made
  cases made
  have inFaults := mem_faultsOf inAll
  unfold settle
  cases found : faultsOf all with
  | nil =>
      rw [found] at inFaults
      cases inFaults
  | cons first rest =>
      rw [found] at inFaults
      exact ⟨_, rfl, Faults.tell_of_mem inFaults told⟩

namespace Agrees

/-- A level that makes a value of what it collects. -/
theorem map {α β : Type} {noted : Noted (Except Faults α)}
    {plain waiting : Option (Except Faults α)} {tells : Meeting → Faults → Prop}
    (agrees : Agrees (Fails tells) noted plain waiting) (function : α → β) :
    Agrees (Fails tells) (do return (← noted).map function)
      (do return (← plain).map function) (do return (← waiting).map function) :=
  agrees.andThen id (fun _ => ⟨rfl, rfl, rfl⟩) (fun _ _ told => told) fun _ => .pure _

/-- A part of a level, whose faults tell of its place. -/
theorem under {α : Type} {step : PathStep} {noted : Noted (Except Fault α)}
    {plain waiting : Option (Except Fault α)}
    (agrees : Agrees (Fails fun meeting fault => fault.Tells exact (meeting.under step)) noted plain
      waiting) :
    Agrees (Fails (Fault.Tells exact)) (noted.mapNote (.under step)) plain waiting :=
  agrees.mapNote (fun _ passed => passed) fun _ _ _ told => told

/-- A field that is absent is missing, whatever of it is met. -/
theorem absent {α : Type} {name : PropertyKey} {noted : Noted (Except Fault α)}
    {plain waiting : Option (Except Fault α)}
    (agrees : Agrees (Fails fun _ fault => fault = .key name (.single .missing)) noted plain
      waiting) :
    Agrees (Fails (Fault.Tells false)) (noted.mapNote (.absent name)) plain waiting := by
  refine agrees.mapNote (fun meeting passed => ?_) ?_
  · rw [Meeting.absent, if_pos passed]
    exact passed
  · rintro meeting _ notPassed ⟨_, rfl, rfl⟩
    rw [Meeting.absent, if_neg notPassed]
    exact ⟨_, rfl, Fault.tells_missing name⟩

end Agrees

/-! ### The parts of a step -/

variable {noted : Schema → Value → Noted Outcome} {plain waiting : Schema → Value → Option Outcome}

abbrev AgreesOn (exact : Bool) (noted : Schema → Value → Noted Outcome)
    (plain waiting : Schema → Value → Option Outcome) (schema : Schema) (input : Value) : Prop :=
  Agrees (Fails (Faults.Tell exact)) (noted schema input) (plain schema input)
    (waiting schema input)

private theorem itemSteps_agree {schemas : List Schema}
    (agrees : ∀ schema ∈ schemas, ∀ input, AgreesOn exact noted plain waiting schema input)
    (first : Nat) (items : List Value) :
    AgreeAll (Fails (Fault.Tells exact)) (notePositions first (itemSteps noted first schemas items))
      (itemSteps plain first schemas items) (itemSteps waiting first schemas items) := by
  induction schemas generalizing first items with
  | nil => exact .nil
  | cons schema rest ih =>
      cases items with
      | nil => exact .nil
      | cons item items =>
          refine .cons (Agrees.under ?_)
            (ih (fun other inRest => agrees other (List.mem_cons_of_mem _ inRest)) _ items)
          exact (agrees schema List.mem_cons_self item).andThen (.index first)
            (fun _ => ⟨rfl, rfl, rfl⟩) (fun _ _ told => Fault.tells_index told first)
            fun _ => .pure _

private theorem missingItems_agree {holds : Meeting → Except Fault Value → Prop}
    (elements : List (Element Schema)) (rest : List Schema) (count : Nat) :
    AgreeAll holds (missingItems elements rest count) (missingItems elements rest count)
      (missingItems elements rest count) :=
  .map fun _ _ => .pure _

private theorem excessItems_agree {holds : Meeting → Except Fault Value → Prop} (first : Nat)
    (items : List Value) :
    AgreeAll holds (excessItems first items) (excessItems first items)
      (excessItems first items) := by
  induction items generalizing first with
  | nil => exact .nil
  | cons item rest ih => exact .cons (.pure _) (ih _)

private theorem tuple_agrees {elements : List (Element Schema)} {rest : List Schema}
    (agrees : ∀ child ∈ (Kind.tuple elements rest).children, ∀ input,
      AgreesOn exact noted plain waiting child input) (mode : FaultMode) (items : List Value) :
    Agrees (Fails (Faults.Tell exact)) (tupleNoted noted mode elements rest items)
      (tuple plain mode elements rest items) (tuple waiting mode elements rest items) := by
  refine Agrees.map (collect_agrees mode (.append (.append ?_ ?_) ?_)) _
  · exact missingItems_agree elements rest items.length
  · split
    · exact excessItems_agree _ _
    · exact .nil
  · exact itemSteps_agree (fun schema inSlots => agrees schema (mem_slots inSlots)) 0 items

private theorem takesKey_agrees {indexes : List (IndexSignature Schema)} {key : PropertyKey}
    (quiet : ∀ index ∈ indexes, Agrees Nothing (noted index.parameter key.toValue)
      (plain index.parameter key.toValue) (waiting index.parameter key.toValue)) :
    Agrees Nothing (takesKey noted key indexes) (takesKey plain key indexes)
      (takesKey waiting key indexes) := by
  induction indexes with
  | nil => exact .pure false
  | cons index rest ih =>
      have later := ih fun other inRest => quiet other (List.mem_cons_of_mem _ inRest)
      simp only [takesKey]
      split
      · refine (quiet index List.mem_cons_self).bind (fun outcome => ?_) fun _ _ never => never.elim
        cases outcome with
        | ok _ => exact .pure true
        | error _ => exact later
      · exact later

private theorem excessStep_agrees {fields : List (Field Schema)}
    {indexes : List (IndexSignature Schema)}
    {member : PropertyKey × Value} {holds : Meeting → MemberResult → Prop}
    (quiet : ∀ index ∈ indexes, Agrees Nothing (noted index.parameter member.1.toValue)
      (plain index.parameter member.1.toValue) (waiting index.parameter member.1.toValue)) :
    Agrees holds (excessStep noted fields indexes member) (excessStep plain fields indexes member)
      (excessStep waiting fields indexes member) := by
  unfold excessStep
  split
  · exact .pure _
  · refine (takesKey_agrees quiet).bind (fun taken => ?_) fun _ _ never => never.elim
    cases taken <;> exact .pure _

private theorem fieldSteps_agree {fields : List (Field Schema)} {members : Members}
    (agrees : ∀ field ∈ fields, ∀ input, AgreesOn exact noted plain waiting field.schema input) :
    AgreeAll (Fails (Fault.Tells exact)) (fields.filterMap (fieldStepNoted? noted exact members))
      (fields.filterMap (fieldStep? plain exact members))
      (fields.filterMap (fieldStep? waiting exact members)) := by
  induction fields with
  | nil => exact .nil
  | cons field rest ih =>
      have here := agrees field List.mem_cons_self
      have later := ih fun other inRest => agrees other (List.mem_cons_of_mem _ inRest)
      simp only [List.filterMap_cons, fieldStepNoted?, fieldStep?]
      cases Table.find? field.name members with
      | some value =>
          refine .cons (Agrees.under ?_) later
          exact (here value).andThen (.key field.name) (fun _ => ⟨rfl, rfl, rfl⟩)
            (fun _ _ told => Fault.tells_key told field.name) fun _ => .pure _
      | none =>
          by_cases optional : field.optional = true
          · simpa only [if_pos optional, Option.map_none] using later
          · simp only [if_neg optional]
            cases exact with
            | true => exact .cons (.pure _) later
            | false =>
                refine .cons (Agrees.absent ?_) later
                exact (here .undefined).andThen (fun _ => .key field.name (.single .missing))
                  (fun _ => ⟨rfl, rfl, rfl⟩) (fun _ _ _ => rfl) fun _ => .pure _

private theorem indexStep_agrees {index : IndexSignature Schema}
    (parameter : ∀ input, AgreesOn exact noted plain waiting index.parameter input)
    (agrees : ∀ input, AgreesOn exact noted plain waiting index.schema input)
    (member : PropertyKey × Value) :
    Agrees (Fails (Fault.Tells exact)) (indexStepNoted noted index member)
      (indexStep plain index member) (indexStep waiting index member) := by
  refine Agrees.under ?_
  refine (parameter member.1.toValue).andThen (.key member.1) (fun _ => ⟨rfl, rfl, rfl⟩)
    (fun _ _ told => Fault.tells_key told member.1) fun _ => ?_
  exact (agrees member.2).andThen (.key member.1) (fun _ => ⟨rfl, rfl, rfl⟩)
    (fun _ _ told => Fault.tells_key told member.1) fun _ => .pure _

private theorem struct_agrees {decodeNoted : Schema → Value → Noted Outcome}
    {decodePlain decodeWaiting : Schema → Value → Option Outcome} {fields : List (Field Schema)}
    {indexes : List (IndexSignature Schema)}
    (agrees : ∀ child ∈ (Kind.struct fields indexes).children, ∀ input,
      AgreesOn exact noted plain waiting child input)
    (quiet : ∀ index ∈ indexes, ∀ input, Agrees Nothing (decodeNoted index.parameter input)
      (decodePlain index.parameter input) (decodeWaiting index.parameter input))
    {options : Options} (sameExact : options.exact = exact) (members : Members) :
    Agrees (Fails (Faults.Tell exact))
      (structNoted noted decodeNoted options fields indexes members)
      (struct plain decodePlain options fields indexes members)
      (struct waiting decodeWaiting options fields indexes members) := by
  subst sameExact
  refine Agrees.map (collect_agrees options.faults (.append (.append ?_ ?_) ?_)) _
  · split
    · exact .map fun member _ => excessStep_agrees fun index inList => quiet index inList _
    · exact .nil
  · exact fieldSteps_agree fun field inFields => agrees _ (Schema.field_mem_struct inFields)
  · refine .flatMap fun index inList => .map fun member _ => indexStep_agrees ?_ ?_ member
    · exact agrees _ (Schema.index_mem_struct inList).1
    · exact agrees _ (Schema.index_mem_struct inList).2

/-- A fault that is known when members are tried is told if no member succeeds. -/
private theorem ok_or_tell_of_firstOf {input : Value} {faults : List Fault} {schemas : List Schema}
    {fault : Fault} {meeting : Meeting} (known : fault ∈ faults) (tells : fault.Tells exact meeting)
    {outcome : Outcome} {note : Note}
    (reached : firstOf noted input faults schemas = some (outcome, note)) :
    outcome.isOk = true ∨ Fails (Faults.Tell exact) meeting outcome := by
  induction schemas generalizing faults outcome note with
  | nil =>
      have inReverse : fault ∈ faults.reverse := List.mem_reverse.mpr known
      cases made : Faults.ofList? faults.reverse with
      | none =>
          cases listed : faults.reverse with
          | nil => rw [listed] at inReverse; cases inReverse
          | cons first rest => rw [listed] at made; cases made
      | some all =>
          simp only [firstOf, made] at reached
          cases reached
          exact Or.inr ⟨all, rfl, Faults.tell_of_ofList? made inReverse tells⟩
  | cons schema rest ih =>
      obtain ⟨⟨first, firstNote⟩, _, after⟩ := Option.bind_eq_some_iff.mp reached
      obtain ⟨⟨last, lastNote⟩, reachedLast, made⟩ := Option.map_eq_some_iff.mp after
      cases made
      cases first with
      | ok value =>
          cases reachedLast
          exact Or.inl rfl
      | error inner => exact ih (List.mem_cons_of_mem _ known) reachedLast

private theorem firstOf_agrees {schemas : List Schema} {input : Value}
    (agrees : ∀ schema ∈ schemas, AgreesOn exact noted plain waiting schema input)
    (faults : List Fault) :
    Agrees (fun meeting outcome => outcome.isOk = true ∨ Fails (Faults.Tell exact) meeting outcome)
      (firstOf noted input faults schemas) (firstOf plain input faults schemas)
      (firstOf waiting input faults schemas) := by
  induction schemas generalizing faults with
  | nil => exact .pure _
  | cons schema rest ih =>
      refine (agrees schema List.mem_cons_self).bind (fun outcome => ?_) ?_
      · cases outcome with
        | ok value => exact .pure _
        | error inner => exact ih (fun other inRest => agrees other (List.mem_cons_of_mem _ inRest)) _
      · rintro meeting _ ⟨inner, rfl, told⟩ outcome note reached
        exact ok_or_tell_of_firstOf List.mem_cons_self (Fault.tells_unionMember told) reached

private theorem Agrees.pass {noted : Noted Outcome} {plain waiting : Option Outcome}
    (agrees : Agrees (fun meeting outcome =>
      outcome.isOk = true ∨ Fails (Faults.Tell exact) meeting outcome) noted plain waiting) :
    Agrees (Fails (Faults.Tell exact)) noted.pass plain waiting := by
  cases agrees with
  | exhausted => exact .exhausted
  | @ran outcome note waiting quiet shown =>
      cases outcome with
      | ok value =>
          refine .ran (fun unmet => quiet (List.map_eq_nil_iff.mp unmet)) fun meeting met => ?_
          obtain ⟨former, _, rfl⟩ := List.mem_map.mp met
          exact Or.inl rfl
      | error faults =>
          refine .ran quiet fun meeting met => (shown meeting met).imp_right fun told => ?_
          exact told.resolve_left Bool.false_ne_true

private theorem union_agrees {members : List Schema} {input : Value}
    (agrees : ∀ member ∈ members, AgreesOn exact noted plain waiting member input)
    (direction : Direction) :
    Agrees (Fails (Faults.Tell exact)) (union noted direction members input).pass
      (union plain direction members input) (union waiting direction members input) := by
  refine Agrees.pass (firstOf_agrees (fun schema inOrder => ?_) _)
  obtain ⟨position, _, atPosition⟩ := List.mem_filterMap.mp inOrder
  exact agrees schema (List.mem_of_getElem? atPosition)

private theorem hook_agrees
    (never : ∀ input, Agrees Nothing (noted Schema.never input) (plain Schema.never input)
      (waiting Schema.never input)) (step : HookStep) (nothing : ∀ other, ¬step.Asks other) :
    Agrees Nothing (hook noted [] step) (hook plain [] step) (hook waiting [] step) := by
  induction step with
  | done outcome => exact .pure outcome
  | parse parameter input resume ih =>
      refine (never input).bind (fun outcome => ih outcome fun other asks => ?_)
        fun _ _ absurdly => absurdly.elim
      exact nothing other ⟨outcome, asks⟩
  | parseBy schema input resume ih => exact absurd (Or.inl rfl) (nothing schema)

/-- A function that does not suspend is applied alike. -/
private theorem transform_agrees {settings settingsToo : Settings} {expected : Expected}
    {near far : Schema}
    {function : Transformer}
    (same : transformer settings function expected = transformer settingsToo function expected)
    (agreesNear : ∀ input, AgreesOn exact noted plain waiting near input)
    (agreesFar : ∀ input, AgreesOn exact noted plain waiting far input) (strict : Bool)
    (input : Value) :
    Agrees (Fails (Faults.Tell exact))
      (transform noted settings expected near far function strict input)
      (transform plain settings expected near far function strict input)
      (transform waiting settingsToo expected near far function strict input) := by
  refine (agreesNear input).andThen id (fun _ => ⟨rfl, rfl, rfl⟩) (fun _ _ told => told)
    fun value => ?_
  simp only [same]
  cases transformer settingsToo function expected value with
  | error faults => exact .pure _
  | ok result =>
      cases strict with
      | false => exact .pure _
      | true => exact agreesFar result

/-- A function that suspends is met as soon as the near side succeeds. -/
private theorem transform_meets {settings settingsToo : Settings} {expected : Expected}
    {near far : Schema}
    {function : Transformer} (suspends : function.suspends = true)
    (sync : settings.execution = .sync) {input : Value}
    (agreesNear : AgreesOn exact noted plain waiting near input) (strict : Bool) :
    Agrees (Fails (Faults.Tell exact))
      (transform (fun schema value => (noted schema value).meet) settings expected near far function
        strict input)
      (transform plain settings expected near far function strict input)
      (transform waiting settingsToo expected near far function strict input) := by
  have forbids : ∀ value, transformer settings function expected value =
      Outcome.fail .forbidden := fun value => by simp [transformer, suspends, sync]
  unfold transform
  simp only [forbids]
  unfold AgreesOn at agreesNear
  generalize noted near input = notedNear, plain near input = plainNear,
    waiting near input = waitingNear at agreesNear ⊢
  cases agreesNear with
  | exhausted => exact .exhausted
  | @ran outcome note waitingNear quiet shown =>
      cases outcome with
      | error faults =>
          refine .ran (fun unmet => ?_) fun meeting met => ?_
          · rw [quiet (List.append_eq_nil_iff.mp unmet).1]
            rfl
          · have before : meeting ∈ note ++ [] := met
            exact shown meeting (List.append_nil note ▸ before)
      | ok value =>
          refine .ran (fun unmet => ?_) fun meeting met => ?_
          · simp [Except.isOk, Except.toBool] at unmet
          · have cases : meeting ∈ note ∨ meeting = .here := by
              simpa [Except.isOk, Except.toBool] using met
            rcases cases with before | rfl
            · refine (shown meeting before).imp_right ?_
              rintro ⟨_, fails, _⟩
              cases fails
            · exact Or.inr ⟨_, rfl, Faults.tell_here⟩

end Walkers

/-! ### Whole runs -/

def Settings.waiting (settings : Settings) : Settings :=
  { settings with execution := .async }

variable {targets : Targets} {depth : Nat} {schema : Schema}

def AgreeAt (targets : Targets) (depth : Nat) (settings : Settings) (schema : Schema)
    (input : Value) : Prop :=
  AgreesOn settings.options.exact (parseNoted targets depth settings.withoutWaiting)
    (parse targets depth settings.withoutWaiting) (parse targets depth settings.waiting) schema input

/-- What decides about keys comes to no function. -/
private theorem parameter_agrees {schema : Schema} (parameter : schema.isParameter = true)
    (depth : Nat)
    {settings : Settings} (decoding : settings.direction = .decode) (input : Value) :
    Agrees Nothing (parseNoted targets depth settings.withoutWaiting schema input)
      (parse targets depth settings.withoutWaiting schema input)
      (parse targets depth settings.waiting schema input) := by
  induction depth generalizing schema input with
  | zero => exact .exhausted
  | succ depth ih =>
      obtain ⟨id, annotations, kind⟩ := schema
      cases kind with
      | keyword keyword => exact .pure _
      | template template => exact .pure _
      | refinement source filter =>
          obtain ⟨execution, options, direction⟩ := settings
          cases decoding
          refine (@ih source parameter input).bind (fun outcome => ?_)
            fun _ _ never => never.elim
          cases outcome with
          | error faults => exact .pure _
          | ok value =>
              simp only [Settings.withoutWaiting, Settings.waiting]
              cases filter options _ value <;> exact .pure _
      | _ => cases parameter

private theorem agreeAt_tuple {elements : List (Element Schema)} {rest : List Schema}
    (isTuple : schema.kind = .tuple elements rest) (settings : Settings)
    (children : ∀ child ∈ schema.kind.children, ∀ input, AgreeAt targets depth settings child input)
    (input : Value) : AgreeAt targets (depth + 1) settings schema input := by
  unfold AgreeAt AgreesOn
  rw [parse_succ, parse_succ, parseNoted]
  unfold stepNoted step
  rw [isTuple] at children ⊢
  cases input with
  | array items => exact tuple_agrees children settings.options.faults items
  | _ => exact .pure _

private theorem agreeAt_struct {fields : List (Field Schema)}
    {indexes : List (IndexSignature Schema)}
    (isStruct : schema.kind = .struct fields indexes)
    (wellFormed : (Kind.struct fields indexes).WellFormed) (settings : Settings)
    (children : ∀ child ∈ schema.kind.children, ∀ input, AgreeAt targets depth settings child input)
    (input : Value) : AgreeAt targets (depth + 1) settings schema input := by
  unfold AgreeAt AgreesOn
  rw [parse_succ, parse_succ, parseNoted]
  unfold stepNoted step
  rw [isStruct] at children ⊢
  by_cases bare : (fields.isEmpty && indexes.isEmpty) = true
  · simp only [if_pos bare]
    cases input <;> exact .pure _
  · simp only [if_neg bare]
    cases input with
    | object members =>
        have quiet := fun index (inIndexes : index ∈ indexes) =>
          @parameter_agrees targets _ (wellFormed.2 index inIndexes) depth settings.decoding rfl
        exact struct_agrees children quiet rfl members
    | _ => exact .pure _

private theorem agreeAt_union {members : List Schema} (isUnion : schema.kind = .union members)
    (settings : Settings) (children : ∀ child ∈ schema.kind.children, ∀ input,
      AgreeAt targets depth settings.failingFast child input)
    (input : Value) : AgreeAt targets (depth + 1) settings schema input := by
  unfold AgreeAt AgreesOn
  rw [parse_succ, parse_succ, parseNoted]
  unfold stepNoted step
  rw [isUnion] at children ⊢
  exact union_agrees (fun member inMembers => children member inMembers input) settings.direction

private theorem agreeAt_refinement {source : Schema} {filter : Filter}
    (isRefinement : schema.kind = .refinement source filter) (settings : Settings)
    (atSource : ∀ input, AgreeAt targets depth settings source input)
    (atSide : ∀ input, AgreeAt targets depth settings.decoding schema.outputSide input)
    (atPeeled : ∀ input, AgreeAt targets depth settings source.withoutRefinements input)
    (input : Value) : AgreeAt targets (depth + 1) settings schema input := by
  unfold AgreeAt AgreesOn
  rw [parse_succ, parse_succ, parseNoted]
  unfold stepNoted step
  rw [isRefinement]
  obtain ⟨execution, options, direction⟩ := settings
  cases direction with
  | decode =>
      refine (atSource input).andThen id (fun _ => ⟨rfl, rfl, rfl⟩) (fun _ _ told => told)
        fun value => ?_
      simp only [Settings.withoutWaiting, Settings.waiting]
      cases filter options _ value <;> exact .pure _
  | encode =>
      exact (atSide input).andThen id (fun _ => ⟨rfl, rfl, rfl⟩) (fun _ _ told => told) atPeeled

private theorem agreeAt_transform {source target : Schema} {decode encode : Transformer}
    {strict : Bool}
    (isTransform : schema.kind = .transform source target decode encode strict)
    (settings : Settings) (atSource : ∀ input, AgreeAt targets depth settings source input)
    (atTarget : ∀ input, AgreeAt targets depth settings target input) (input : Value) :
    AgreeAt targets (depth + 1) settings schema input := by
  have same : ∀ function : Transformer, ¬function.suspends = true → ∀ expected,
      transformer settings.withoutWaiting function expected =
        transformer settings.waiting function expected := by
    intro function ready expected
    funext value
    simp [transformer, ready, Settings.withoutWaiting, Settings.waiting]
  unfold AgreeAt AgreesOn
  rw [parse_succ, parse_succ, parseNoted]
  unfold stepNoted step
  rw [isTransform]
  dsimp only
  by_cases suspends : (Kind.transform source target decode encode strict).suspends
      settings.withoutWaiting.direction = true
  · rw [if_pos suspends]
    obtain ⟨execution, options, direction⟩ := settings
    cases direction with
    | decode => exact transform_meets suspends rfl (atSource input) strict
    | encode => exact transform_meets suspends rfl (atTarget input) strict
  · rw [if_neg suspends]
    obtain ⟨execution, options, direction⟩ := settings
    cases direction with
    | decode => exact transform_agrees (same decode suspends _) atSource atTarget strict input
    | encode => exact transform_agrees (same encode suspends _) atTarget atSource strict input

private theorem agreeAt_declaration {parameters : List Schema} {decode encode : Hook}
    (isDeclaration : schema.kind = .declaration parameters decode encode)
    (bare : (Kind.declaration parameters decode encode).WithoutRequests) (settings : Settings)
    (input : Value) : AgreeAt targets (depth + 1) settings schema input := by
  obtain ⟨rfl, nothing⟩ := bare
  have never : ∀ input, Agrees Nothing
      (parseNoted targets depth settings.withoutWaiting Schema.never input)
      (parse targets depth settings.withoutWaiting Schema.never input)
      (parse targets depth settings.withoutWaiting Schema.never input) := by
    intro input
    cases depth with
    | zero => exact .exhausted
    | succ depth => exact .pure _
  unfold AgreeAt AgreesOn
  rw [parse_succ, parse_succ, parseNoted]
  unfold stepNoted step
  rw [isDeclaration]
  exact (hook_agrees never _ fun other asks =>
    nothing other (Kind.asks_of_chosen asks)).of_nothing

/-- At each node the noted run, the run that may not wait and the run that may agree. -/
private theorem parseNoted_agrees {schema : Schema} (regular : schema.Throughout targets fun node =>
      node.kind.WellFormed ∧ node.kind.WithoutRequests)
    (depth : Nat) (settings : Settings) (input : Value) :
    AgreeAt targets depth settings schema input := by
  induction depth generalizing schema settings input with
  | zero => exact .exhausted
  | succ depth ih =>
      have children : ∀ settings, ∀ child ∈ schema.kind.children, ∀ input,
          AgreeAt targets depth settings child input :=
        fun settings child below input => ih (regular.child below) settings input
      have here := regular.here
      cases kindAt : schema.kind with
      | tuple elements rest => exact agreeAt_tuple kindAt settings (children settings) input
      | struct fields indexes =>
          exact agreeAt_struct kindAt (kindAt ▸ here.1) settings (children settings) input
      | union members => exact agreeAt_union kindAt settings (children settings.failingFast) input
      | lazy cell =>
          unfold AgreeAt AgreesOn
          rw [parse_succ, parse_succ, parseNoted]
          unfold stepNoted step
          rw [kindAt]
          simp only [Noted.pure_bind]
          exact ih (regular.enter kindAt) settings input
      | refinement source filter =>
          have below := Schema.refined_mem_children kindAt
          have viewed := regular.sideOf
            ((Kind.wellFormed_projects .output).and (Kind.withoutRequests_projects .output))
          exact agreeAt_refinement kindAt settings (children settings source below)
            (ih viewed settings.decoding) (ih (regular.child below).withoutRefinements settings) input
      | transform source target decode encode strict =>
          exact agreeAt_transform kindAt settings
            (children settings source (Schema.source_mem_children kindAt))
            (children settings target (Schema.target_mem_children kindAt)) input
      | declaration parameters decode encode =>
          exact agreeAt_declaration kindAt (kindAt ▸ here.2) settings input
      | _ =>
          unfold AgreeAt AgreesOn
          rw [parse_succ, parse_succ, parseNoted]
          unfold stepNoted step
          rw [kindAt]
          exact .pure _

/-- A run that may not wait against the one that may. One that comes to no function that suspends
does what the waiting run does. If it succeeds and no union passes such a function by, the waiting
run succeeds alike. And each function that it comes to and no union passes by makes it fail, with a
fault at the place of the function or at the absent field that the function belongs to. -/
theorem withoutWaiting_against_waiting {schema : Schema}
    (regular : schema.Throughout targets fun node =>
      node.kind.WellFormed ∧ node.kind.WithoutRequests) (settings : Settings) (input : Value) :
    (∀ outcome, Yields targets settings.withoutWaiting schema input outcome ↔
      ∃ note, YieldsNoted targets settings schema input outcome note) ∧
    ∀ outcome note, YieldsNoted targets settings schema input outcome note →
      (note = [] → Yields targets settings.waiting schema input outcome) ∧
      (∀ value, outcome = .ok value → (∀ meeting ∈ note, meeting.fate ≠ .passed) →
        Yields targets settings.waiting schema input (.ok value)) ∧
      (∀ meeting ∈ note, meeting.fate ≠ .passed → ∃ faults, outcome = .error faults ∧
        ∃ issue ∈ faults.issues, meeting.ToldBy settings.options.exact [] issue) := by
  have agrees := fun depth => parseNoted_agrees regular depth settings input
  refine ⟨fun outcome => ⟨?_, ?_⟩, ?_⟩
  · rintro ⟨depth, ran⟩
    obtain ⟨note, noted⟩ := (agrees depth).noted_of_plain ran
    exact ⟨note, depth, noted⟩
  · rintro ⟨note, depth, noted⟩
    exact ⟨depth, (agrees depth).plain_of_noted noted⟩
  · rintro outcome note ⟨depth, noted⟩
    have told : ∀ meeting ∈ note, meeting.fate ≠ .passed → ∃ faults, outcome = .error faults ∧
        faults.Tell settings.options.exact meeting := fun meeting met notPassed =>
      (agrees depth).shown_of_met noted met notPassed
    refine ⟨?_, ?_, fun meeting met notPassed => ?_⟩
    · rintro rfl
      exact ⟨depth, (agrees depth).waiting_of_unmet noted⟩
    · rintro value rfl unpassed
      cases note with
      | nil => exact ⟨depth, (agrees depth).waiting_of_unmet noted⟩
      | cons meeting rest =>
          obtain ⟨_, fails, _⟩ :=
            told meeting List.mem_cons_self (unpassed meeting List.mem_cons_self)
          cases fails
    · obtain ⟨faults, fails, tell⟩ := told meeting met notPassed
      exact ⟨faults, fails, tell []⟩

def lateTruth : Transformer := ⟨true, fun _ _ _ => .ok (.boolean true)⟩

def truthOf (source : Schema) : Schema :=
  .plain (.made 1) (.transform source .boolean lateTruth ⟨false, fun _ _ _ => .ok .undefined⟩ true)

def truthOrText : Schema := .plain (.made 2) (.union [.boolean, truthOf .string])

/-- A truth value needs no wait; a text is told to need one. -/
theorem truthOrText_waits :
    Yields (fun _ => truthOrText) ⟨.async, {}, .decode⟩ truthOrText (.boolean false)
      (.ok (.boolean false)) ∧
    ∃ faults,
      Yields (fun _ => truthOrText) ⟨.sync, {}, .decode⟩ truthOrText (.string "a") (.error faults) ∧
      ∃ issue ∈ faults.issues, Meeting.here.ToldBy false [] issue := by
  have regular : truthOrText.Throughout (fun _ => truthOrText) fun node =>
      node.kind.WellFormed ∧ node.kind.WithoutRequests := by
    refine .of_closed [truthOrText, .boolean, truthOf .string, .string] ?_ ?_ List.mem_cons_self
    · change [Schema.boolean, truthOf .string, .string, .boolean] ⊆ _
      simp
    · simp only [List.forall_mem_cons]
      exact ⟨⟨nofun, trivial, trivial⟩, ⟨nofun, trivial, trivial⟩, ⟨nofun, trivial, trivial⟩,
        ⟨nofun, trivial, trivial⟩, nofun⟩
  have settled := withoutWaiting_against_waiting regular ⟨.sync, {}, .decode⟩
  obtain ⟨_, onTruth⟩ := settled (.boolean false)
  obtain ⟨plain, onText⟩ := settled (.string "a")
  refine ⟨(onTruth _ [] ⟨3, rfl⟩).1 rfl, ?_⟩
  have noted : YieldsNoted (fun _ => truthOrText) ⟨.sync, {}, .decode⟩ truthOrText (.string "a")
      (.error (.ofCons (.unionMember (.single (.mismatch Schema.boolean.expected (.string "a"))))
        [.unionMember (.single .forbidden)])) [.here] := ⟨3, rfl⟩
  obtain ⟨faults, fails, told⟩ :=
    (onText _ _ noted).2.2 .here (List.mem_singleton.mpr rfl) (by decide)
  exact ⟨faults, fails ▸ (plain _).mpr ⟨_, noted⟩, told⟩

def hasty : Schema := .plain (.made 2) (.union [truthOf .string, .string])

def unset : Schema := .plain (.made 2) (.struct [⟨.string "set", truthOf .undefined, false⟩] [])

/-- A union goes on to a member that need not wait, and gives another value than the waiting run;
and where the field of a function that suspends is absent, it is only told to be missing. -/
theorem waiting_may_answer_differently :
    (Yields (fun _ => hasty) ⟨.sync, {}, .decode⟩ hasty (.string "a") (.ok (.string "a")) ∧
      ¬Yields (fun _ => hasty) ⟨.async, {}, .decode⟩ hasty (.string "a") (.ok (.string "a")) ∧
      Yields (fun _ => hasty) ⟨.async, {}, .decode⟩ hasty (.string "a") (.ok (.boolean true))) ∧
    (Yields (fun _ => unset) ⟨.sync, {}, .decode⟩ unset (.object [])
        (Outcome.fail (.key (.string "set") (.single .missing))) ∧
      Yields (fun _ => unset) ⟨.async, {}, .decode⟩ unset (.object [])
        (.ok (.object [(.string "set", .boolean true)]))) := by
  have waited : Yields (fun _ => hasty) ⟨.async, {}, .decode⟩ hasty (.string "a")
      (.ok (.boolean true)) := ⟨3, rfl⟩
  refine ⟨⟨⟨3, rfl⟩, fun alike => ?_, waited⟩, ⟨3, rfl⟩, ⟨3, rfl⟩⟩
  simpa using alike.unique waited

end Run

end SchemaCodec
