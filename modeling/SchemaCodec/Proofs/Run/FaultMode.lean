import SchemaCodec.Proofs.Run.Success
import SchemaCodec.Proofs.Schema.WellFormed
import SchemaCodec.Report.Issue

/-!
Stopping at the first fault against collecting them all. The run that stops does what the run that
collects does, up to the first fault of each level: it gives the same value, or it fails with faults
that abridge those of the other run. Functions in the schema must not look at the fault mode.
-/

namespace SchemaCodec

/-! ### Functions that do not look at the fault mode -/

def Options.withFaults (options : Options) (mode : FaultMode) : Options :=
  { options with faults := mode }

def Run.Settings.withFaults (settings : Run.Settings) (mode : FaultMode) : Run.Settings :=
  { settings with options := settings.options.withFaults mode }

namespace Run.Settings

@[simp]
theorem options_withFaults (settings : Settings) (mode : FaultMode) :
    (settings.withFaults mode).options = settings.options.withFaults mode :=
  rfl

@[simp]
theorem direction_withFaults (settings : Settings) (mode : FaultMode) :
    (settings.withFaults mode).direction = settings.direction :=
  rfl

@[simp]
theorem execution_withFaults (settings : Settings) (mode : FaultMode) :
    (settings.withFaults mode).execution = settings.execution :=
  rfl

end Run.Settings

def Filter.IgnoresFaultMode (filter : Filter) : Prop :=
  ∀ options mode expected value,
    filter (options.withFaults mode) expected value = filter options expected value

def Transformer.IgnoresFaultMode (function : Transformer) : Prop :=
  ∀ options mode expected value,
    function.apply (options.withFaults mode) expected value =
      function.apply options expected value

/-- Outcomes that differ in nothing but the faults. -/
inductive Outcome.Alike : Outcome → Outcome → Prop where
  | ok (value : Value) : Alike (.ok value) (.ok value)
  | error (faults others : Faults) : Alike (.error faults) (.error others)

/-- Steps that ask for the same runs and end alike, whatever the faults of those runs are. -/
inductive HookStep.Alike : HookStep → HookStep → Prop where
  | done {outcome other : Outcome} (alike : outcome.Alike other) : Alike (.done outcome) (.done other)
  | parse {parameter : Nat} {input : Value} {resume resumeToo : Outcome → HookStep}
      (alike : ∀ outcome other, Outcome.Alike outcome other →
        Alike (resume outcome) (resumeToo other)) :
      Alike (.parse parameter input resume) (.parse parameter input resumeToo)
  | parseBy {schema : Schema} {input : Value} {resume resumeToo : Outcome → HookStep}
      (alike : ∀ outcome other, Outcome.Alike outcome other →
        Alike (resume outcome) (resumeToo other)) :
      Alike (.parseBy schema input resume) (.parseBy schema input resumeToo)

/-- The hook looks at the fault mode neither in the options nor in the faults that it is told of,
whose number depends on the mode. -/
def Hook.IgnoresFaultMode (hook : Hook) : Prop :=
  ∀ (options : Options) mode other direction expected value,
    HookStep.Alike (hook (options.withFaults mode) direction expected value)
      (hook (options.withFaults other) direction expected value)

/-- The functions of one level do not look at the fault mode. -/
def Kind.IgnoresFaultMode : Kind Schema → Prop :=
  Kind.EachFunction Filter.IgnoresFaultMode
    (fun decode encode => decode.IgnoresFaultMode ∧ encode.IgnoresFaultMode)
    fun decode encode => decode.IgnoresFaultMode ∧ encode.IgnoresFaultMode

def Kind.IsDeclaration : Kind Schema → Prop
  | .declaration _ _ _ => True
  | _ => False

/-- What one level must satisfy for a stopped run to follow the other one. A run that goes on after
a fault of a declaration's parameter can only be followed loosely. -/
def Kind.Regular (loose : Prop) (kind : Kind Schema) : Prop :=
  kind.WellFormed ∧ kind.IgnoresFaultMode ∧ (loose ∨ ¬kind.IsDeclaration)

private theorem Kind.regular_projects (side : Side) (loose : Prop) :
    Kind.Projects side (Regular loose) (Regular loose) := by
  refine (wellFormed_projects side).and ((eachFunction_projects side _ _ _).and ?_)
  exact
    { leaf := fun _ _ here => here
      tuple := fun _ _ _ => Or.inr id
      struct := fun _ _ _ => Or.inr id
      union := fun _ _ _ => ⟨Or.inr id, Or.inr id⟩
      lazy := fun _ _ _ => Or.inr id
      refinement := fun _ _ _ => Or.inr id
      declaration := fun _ _ _ here => here.imp_right fun absent => absurd trivial absent }

namespace Run

/-! ### One run that follows another -/

/-- The first run follows the second: it gives the value that the other gives, or a fault that is
related to the other's. If the other run is exhausted, the first one may fail before it is, or, in a
loose relation, do anything. -/
inductive Follows {ε α : Type} (loose : Prop) (relates : ε → ε → Prop) :
    Option (Except ε α) → Option (Except ε α) → Prop where
  | value (value : α) : Follows loose relates (some (.ok value)) (some (.ok value))
  | fault {fault other : ε} (related : relates fault other) :
      Follows loose relates (some (.error fault)) (some (.error other))
  | exhausted {first : Option (Except ε α)} (unfinished : loose ∨ ∀ value, first ≠ some (.ok value)) :
      Follows loose relates first none

namespace Follows

variable {ε η α β : Type} {loose : Prop} {relates : ε → ε → Prop} {relatesToo : η → η → Prop}

theorem refl (reflexive : ∀ fault, relates fault fault) (result : Option (Except ε α)) :
    Follows loose relates result result := by
  rcases result with _ | fault | value
  · exact .exhausted (Or.inr nofun)
  · exact .fault (reflexive fault)
  · exact .value value

theorem bind {first second : Option (Except ε α)}
    {next nextToo : Except ε α → Option (Except η β)} (follows : Follows loose relates first second)
    (values : ∀ value, Follows loose relatesToo (next (.ok value)) (nextToo (.ok value)))
    (faults : ∀ fault other, relates fault other →
      Follows loose relatesToo (next (.error fault)) (nextToo (.error other)))
    (fails : loose ∨ ∀ fault value, next (.error fault) ≠ some (.ok value)) :
    Follows loose relatesToo (first >>= next) (second >>= nextToo) := by
  cases follows with
  | value value => exact values value
  | fault related => exact faults _ _ related
  | exhausted unfinished =>
      refine .exhausted ?_
      rcases unfinished with isLoose | notOk
      · exact Or.inl isLoose
      · rcases fails with isLoose | failing
        · exact Or.inl isLoose
        · refine Or.inr fun result found => ?_
          rcases first with _ | fault | value
          · cases found
          · exact failing fault result found
          · exact notOk value rfl

theorem map {first second : Option (Except ε α)} (follows : Follows loose relates first second)
    (function : α → β) :
    Follows loose relates (do return (← first).map function)
      (do return (← second).map function) :=
  follows.bind (fun value => .value (function value)) (fun _ _ related => .fault related)
    (Or.inr nofun)

theorem ok_iff {first second : Option (Except ε α)} (tight : ¬loose)
    (follows : Follows loose relates first second) (value : α) :
    first = some (.ok value) ↔ second = some (.ok value) := by
  cases follows with
  | value other => exact Iff.rfl
  | fault related =>
      constructor
      · intro absent
        cases absent
      · intro absent
        cases absent
  | exhausted unfinished =>
      refine ⟨fun found => ?_, fun absent => by cases absent⟩
      rcases unfinished with isLoose | notOk
      · exact absurd isLoose tight
      · exact absurd found (notOk value)

end Follows

/-! ### Faults that abridge others -/

/-- A way to say that the faults of a stopped run are among the faults of the other run. -/
structure Abridgement where
  /-- Runs may go on after a fault, so that a stopped run may end where the other one does not. -/
  loose : Prop
  fault : Fault → Fault → Prop
  faults : Faults → Faults → Prop
  fault_refl : ∀ one, fault one one
  faults_refl : ∀ one, faults one one
  index : ∀ position one other, faults one other → fault (.index position one) (.index position other)
  key : ∀ key one other, faults one other → fault (.key key one) (.key key other)
  /-- Further faults of the same level may follow. -/
  lead : ∀ one other rest, fault one other → faults (.single one) (.ofCons other rest)
  /-- A loose abridgement compares nothing. -/
  total : loose → ∀ one other, faults one other

/-- All faults of one run stand for all faults of the other. -/
def Abridgement.any : Abridgement where
  loose := True
  fault _ _ := True
  faults _ _ := True
  fault_refl _ := trivial
  faults_refl _ := trivial
  index _ _ _ _ := trivial
  key _ _ _ _ := trivial
  lead _ _ _ _ := trivial
  total _ _ _ := trivial

namespace Abridgement

variable (abridges : Abridgement)

abbrev Step {α : Type} : Option (Except Fault α) → Option (Except Fault α) → Prop :=
  Follows abridges.loose abridges.fault

abbrev Level {α : Type} : Option (Except Faults α) → Option (Except Faults α) → Prop :=
  Follows abridges.loose abridges.faults

end Abridgement

section Walkers

variable {abridges : Abridgement}

private theorem results_follow {α : Type} {steps others : List (Option (Except Fault α))}
    (follow : List.Forall₂ abridges.Step steps others) :
    (∀ all, results .all others = some all →
      (results .first steps = some all ∧ faultsOf all = []) ∨
      ∃ stopped fault other rest, results .first steps = some stopped ∧
        faultsOf stopped = [fault] ∧ faultsOf all = other :: rest ∧ abridges.fault fault other) ∧
    (results .all others = none →
      abridges.loose ∨ ∀ stopped, results .first steps = some stopped → faultsOf stopped ≠ []) := by
  induction follow with
  | nil =>
      refine ⟨fun all found => Or.inl ⟨found, ?_⟩, fun absent => by cases absent⟩
      cases found
      rfl
  | @cons step other steps others head _ ih =>
      cases head with
      | value value =>
          simp only [results, bind, Option.bind, pure]
          cases later : results .all others with
          | none =>
              refine ⟨fun all found => (by cases found), fun _ => ?_⟩
              rcases ih.2 later with isLoose | failing
              · exact Or.inl isLoose
              · refine Or.inr fun stopped found => ?_
                cases stoppedLater : results .first steps with
                | none => rw [stoppedLater] at found; cases found
                | some inner =>
                    rw [stoppedLater] at found
                    cases found
                    exact failing inner stoppedLater
          | some inner =>
              refine ⟨fun all found => ?_, fun absent => by cases absent⟩
              cases found
              rcases ih.1 inner later with ⟨same, clean⟩ | ⟨stopped, fault, first, rest, same, facts⟩
              · rw [same]
                exact Or.inl ⟨rfl, clean⟩
              · rw [same]
                exact Or.inr ⟨_, fault, first, rest, rfl, facts⟩
      | @fault fault first related =>
          simp only [results, bind, Option.bind, pure]
          cases later : results .all others with
          | none =>
              refine ⟨fun all found => (by cases found), fun _ => Or.inr fun stopped found => ?_⟩
              cases found
              exact List.cons_ne_nil _ _
          | some inner =>
              refine ⟨fun all found => ?_, fun absent => by cases absent⟩
              cases found
              exact Or.inr ⟨_, fault, first, faultsOf inner, rfl, rfl, rfl, related⟩
      | exhausted unfinished =>
          refine ⟨fun all found => (by cases found), fun _ => ?_⟩
          rcases unfinished with isLoose | notOk
          · exact Or.inl isLoose
          · refine Or.inr fun stopped found => ?_
            rcases step with _ | fault | value
            · cases found
            · cases found
              exact List.cons_ne_nil _ _
            · exact absurd rfl (notOk value)

private theorem collect_follows {α : Type} {steps others : List (Option (Except Fault α))}
    (follow : List.Forall₂ abridges.Step steps others) :
    abridges.Level (collect .first steps) (collect .all others) := by
  obtain ⟨finished, unfinished⟩ := results_follow follow
  simp only [collect, bind, Option.bind, pure]
  cases later : results .all others with
  | none =>
      refine .exhausted ?_
      rcases unfinished later with isLoose | failing
      · exact Or.inl isLoose
      · refine Or.inr fun values found => ?_
        cases stopping : results .first steps with
        | none => rw [stopping] at found; cases found
        | some stopped =>
            rw [stopping] at found
            have faulty := failing stopped stopping
            cases faultsAt : faultsOf stopped with
            | nil => exact faulty faultsAt
            | cons fault rest => simp [settle, faultsAt, Faults.ofList?] at found
  | some all =>
      rcases finished all later with ⟨same, clean⟩ | ⟨stopped, fault, other, rest, same, one, more, related⟩
      · rw [same]
        simp only [settle, clean, Faults.ofList?]
        exact .value _
      · rw [same]
        simp only [settle, one, more, Faults.ofList?]
        exact .fault (abridges.lead fault other rest related)

theorem forall₂_refl {α : Type} (steps : List (Option (Except Fault α))) :
    List.Forall₂ abridges.Step steps steps := by
  induction steps with
  | nil => exact .nil
  | cons step rest ih => exact .cons (.refl abridges.fault_refl step) ih

/-! ### The parts of a step -/

variable {run others : Schema → Value → Option Outcome}

private theorem itemStep_follows {schema : Schema} {item : Value}
    (follows : abridges.Level (run schema item) (others schema item)) (position : Nat) :
    abridges.Step (itemStep run position schema item) (itemStep others position schema item) :=
  follows.bind (fun value => .value value)
    (fun one other related => .fault (abridges.index position one other related))
    (Or.inr nofun)

private theorem itemSteps_follow {schemas : List Schema}
    (follows : ∀ schema ∈ schemas, ∀ input, abridges.Level (run schema input) (others schema input))
    (first : Nat) (items : List Value) :
    List.Forall₂ abridges.Step (itemSteps run first schemas items)
      (itemSteps others first schemas items) := by
  induction schemas generalizing first items with
  | nil => exact .nil
  | cons schema rest ih =>
      cases items with
      | nil => exact .nil
      | cons item items =>
          refine .cons (itemStep_follows (follows schema List.mem_cons_self item) first) ?_
          exact ih (fun other member => follows other (List.mem_cons_of_mem _ member)) _ items

private theorem tuple_follows {elements : List (Element Schema)} {rest : List Schema}
    (follows : ∀ child ∈ (Kind.tuple elements rest).children, ∀ input,
      abridges.Level (run child input) (others child input)) (items : List Value) :
    abridges.Level (tuple run .first elements rest items)
      (tuple others .all elements rest items) := by
  refine Follows.map (collect_follows ?_) _
  refine List.rel_append (forall₂_refl _) (itemSteps_follow (fun schema member input => ?_) 0 items)
  exact follows schema (mem_slots member) input

private theorem fieldStep_follows {field : Field Schema}
    (follows : ∀ input, abridges.Level (run field.schema input) (others field.schema input))
    (exact : Bool) (members : Members) :
    Option.Rel abridges.Step (fieldStep? run exact members field)
      (fieldStep? others exact members field) := by
  unfold fieldStep?
  cases Table.find? field.name members with
  | some value =>
      refine .some ((follows value).bind (fun value => .value _) (fun one other related => ?_) ?_)
      · exact .fault (abridges.key field.name one other related)
      · exact Or.inr nofun
  | none =>
      by_cases optional : field.optional = true
      · simp only [if_pos optional]
        exact .none
      · simp only [if_neg optional]
        by_cases needed : exact = true
        · simp only [if_pos needed]
          exact .some (.fault (abridges.fault_refl _))
        · simp only [if_neg needed]
          refine .some ((follows .undefined).bind (fun value => .value _) (fun _ _ _ => ?_) ?_)
          · exact .fault (abridges.fault_refl _)
          · exact Or.inr nofun

private theorem fieldSteps_follow {fields : List (Field Schema)}
    (follows : ∀ field ∈ fields, ∀ input,
      abridges.Level (run field.schema input) (others field.schema input))
    (exact : Bool) (members : Members) :
    List.Forall₂ abridges.Step (fields.filterMap (fieldStep? run exact members))
      (fields.filterMap (fieldStep? others exact members)) := by
  refine List.rel_filterMap (R := fun field other => field = other ∧ field ∈ fields) ?_ ?_
  · rintro field _ ⟨rfl, member⟩
    exact fieldStep_follows (follows field member) exact members
  · exact List.forall₂_same.mpr fun field member => ⟨rfl, member⟩

private theorem indexStep_follows {index : IndexSignature Schema}
    (parameter : ∀ input, abridges.Level (run index.parameter input) (others index.parameter input))
    (follows : ∀ input, abridges.Level (run index.schema input) (others index.schema input))
    (member : PropertyKey × Value) :
    abridges.Step (indexStep run index member) (indexStep others index member) := by
  refine (parameter member.1.toValue).bind (fun _ => ?_) (fun one other related => ?_) ?_
  · refine (follows member.2).bind (fun value => .value _) (fun one other related => ?_) ?_
    · exact .fault (abridges.key member.1 one other related)
    · exact Or.inr nofun
  · exact .fault (abridges.key member.1 one other related)
  · exact Or.inr nofun

private theorem takesKey_congr {decodeKey otherKey : Schema → Value → Option Outcome}
    {indexes : List (IndexSignature Schema)}
    (same : ∀ index ∈ indexes, decodeKey index.parameter = otherKey index.parameter)
    (key : PropertyKey) : takesKey decodeKey key indexes = takesKey otherKey key indexes := by
  induction indexes with
  | nil => rfl
  | cons index rest ih =>
      have later := ih fun other member => same other (List.mem_cons_of_mem _ member)
      simp only [takesKey, same index List.mem_cons_self, later]

private theorem indexSteps_follow {indexes : List (IndexSignature Schema)}
    (parameter : ∀ index ∈ indexes, ∀ input,
      abridges.Level (run index.parameter input) (others index.parameter input))
    (follows : ∀ index ∈ indexes, ∀ input,
      abridges.Level (run index.schema input) (others index.schema input))
    (among : IndexSignature Schema → Members) :
    List.Forall₂ abridges.Step
      (indexes.flatMap fun index => (among index).map (indexStep run index))
      (indexes.flatMap fun index => (among index).map (indexStep others index)) := by
  induction indexes with
  | nil => exact .nil
  | cons index rest ih =>
      have later := ih (fun other member => parameter other (List.mem_cons_of_mem _ member))
        (fun other member => follows other (List.mem_cons_of_mem _ member))
      have step := indexStep_follows (parameter index List.mem_cons_self)
        (follows index List.mem_cons_self)
      simp only [List.flatMap_cons]
      refine List.rel_append ?_ later
      exact List.forall₂_map_left_iff.mpr (List.forall₂_map_right_iff.mpr
        (List.forall₂_same.mpr fun member _ => step member))

private theorem struct_follows {decodeKey otherKey : Schema → Value → Option Outcome}
    {fields : List (Field Schema)} {indexes : List (IndexSignature Schema)}
    (follows : ∀ child ∈ (Kind.struct fields indexes).children, ∀ input,
      abridges.Level (run child input) (others child input))
    (same : ∀ index ∈ indexes, decodeKey index.parameter = otherKey index.parameter)
    (options : Options) (members : Members) :
    abridges.Level (struct run decodeKey (options.withFaults .first) fields indexes members)
      (struct others otherKey (options.withFaults .all) fields indexes members) := by
  have inIndexes : ∀ index ∈ indexes, ∀ child ∈ [index.parameter, index.schema],
      child ∈ (Kind.struct fields indexes).children := fun index member child among =>
    List.mem_append_right _ (List.mem_flatMap.mpr ⟨index, member, among⟩)
  have sameExcess : excessStep decodeKey fields indexes = excessStep otherKey fields indexes := by
    funext member
    simp only [excessStep, takesKey_congr same]
  unfold struct
  rw [sameExcess]
  refine Follows.map (collect_follows ?_) _
  refine List.rel_append (List.rel_append (forall₂_refl _) ?_) ?_
  · refine fieldSteps_follow (fun field member input => ?_) _ _
    exact follows _ (List.mem_append_left _ (List.mem_map_of_mem member)) input
  · refine indexSteps_follow (fun index member => ?_) (fun index member => ?_) _
    · exact follows _ (inIndexes index member _ List.mem_cons_self)
    · exact follows _ (inIndexes index member _ (List.mem_cons_of_mem _ List.mem_cons_self))

end Walkers

private theorem hook_follows {abridges : Abridgement} {run others : Schema → Value → Option Outcome}
    {parameters : List Schema} (isLoose : abridges.loose)
    (follows : ∀ (position : Nat) input,
      abridges.Level (run (parameters[position]?.getD Schema.never) input)
        (others (parameters[position]?.getD Schema.never) input))
    {step other : HookStep} (alike : step.Alike other)
    (asked : ∀ schema, step.Asks schema → ∀ input,
      abridges.Level (run schema input) (others schema input)) :
    abridges.Level (hook run parameters step) (hook others parameters other) := by
  induction alike with
  | done same =>
      cases same with
      | ok value => exact .value value
      | error faults otherFaults => exact .fault (abridges.total isLoose faults otherFaults)
  | @parse parameter input resume resumeToo _ ih =>
      have later := fun outcome other (same : Outcome.Alike outcome other) =>
        ih outcome other same fun schema asks => asked schema ⟨outcome, asks⟩
      refine (follows parameter input).bind (fun value => ?_) (fun one otherFaults _ => ?_) ?_
      · exact later _ _ (.ok value)
      · exact later _ _ (.error one otherFaults)
      · exact Or.inl isLoose
  | @parseBy schema input resume resumeToo _ ih =>
      have later := fun outcome other (same : Outcome.Alike outcome other) =>
        ih outcome other same fun schema asks => asked schema (Or.inr ⟨outcome, asks⟩)
      refine (asked schema (Or.inl rfl) input).bind (fun value => ?_)
        (fun one otherFaults _ => ?_) ?_
      · exact later _ _ (.ok value)
      · exact later _ _ (.error one otherFaults)
      · exact Or.inl isLoose

private theorem transform_follows {abridges : Abridgement}
    {run others : Schema → Value → Option Outcome}
    {near far : Schema} {function : Transformer} (ignores : function.IgnoresFaultMode)
    (nearFollows : ∀ input, abridges.Level (run near input) (others near input))
    (farFollows : ∀ input, abridges.Level (run far input) (others far input))
    (settings : Settings) (expected : Expected) (strict : Bool) (input : Value) :
    abridges.Level
      (transform run (settings.withFaults .first) expected near far function strict input)
      (transform others (settings.withFaults .all) expected near far function strict input) := by
  refine (nearFollows input).bind (fun value => ?_) (fun _ _ related => .fault related)
    (Or.inr nofun)
  have same : transformer (settings.withFaults .first) function expected value =
      transformer (settings.withFaults .all) function expected value := by
    simp only [transformer, Settings.options_withFaults, Settings.execution_withFaults,
      ignores settings.options]
    rfl
  simp only [same]
  cases transformer (settings.withFaults .all) function expected value with
  | error faults => exact .fault (abridges.faults_refl faults)
  | ok result =>
      cases strict with
      | false => exact .value result
      | true => exact farFollows result

/-! ### Whole runs -/

variable {targets : Targets}

/-- What decides about keys does not depend on the fault mode at all. -/
private theorem parse_parameter_eq {schema : Schema} (parameter : schema.isParameter = true)
    (ignores : schema.All (·.kind.IgnoresFaultMode)) (depth : Nat) {settings : Settings}
    (decoding : settings.direction = .decode) (mode other : FaultMode) (input : Value) :
    parse targets depth (settings.withFaults mode) schema input =
      parse targets depth (settings.withFaults other) schema input := by
  induction depth generalizing schema input with
  | zero => rfl
  | succ depth ih =>
      obtain ⟨id, annotations, kind⟩ := schema
      rw [parse_succ, parse_succ]
      cases kind with
      | keyword keyword => rfl
      | template template => rfl
      | refinement source filter =>
          have ignoresHere : filter.IgnoresFaultMode := ignores.here
          have below : ∀ input, parse targets depth (settings.withFaults mode) source input =
              parse targets depth (settings.withFaults other) source input :=
            ih parameter (ignores.child (List.mem_singleton.mpr rfl))
          simp only [step, Schema.kind, Settings.direction_withFaults, decoding, below,
            Settings.options_withFaults, ignoresHere settings.options]
      | _ => cases parameter

def Abridgement.FollowsAt (abridges : Abridgement) (targets : Targets) (depth : Nat)
    (settings : Settings) (schema : Schema) (input : Value) : Prop :=
  abridges.Level (parse targets depth (settings.withFaults .first) schema input)
    (parse targets depth (settings.withFaults .all) schema input)

section Levels

variable {abridges : Abridgement} {depth : Nat} {settings : Settings} {schema : Schema}

private theorem followsAt_struct {fields : List (Field Schema)}
    {indexes : List (IndexSignature Schema)} (isStruct : schema.kind = .struct fields indexes)
    (wellFormed : (Kind.struct fields indexes).WellFormed)
    (ignores : schema.All (·.kind.IgnoresFaultMode))
    (children : ∀ child ∈ schema.kind.children, ∀ input,
      abridges.FollowsAt targets depth settings child input)
    (input : Value) : abridges.FollowsAt targets (depth + 1) settings schema input := by
  have sameKeys : ∀ index ∈ indexes,
      parse targets depth (settings.decoding.withFaults .first) index.parameter =
        parse targets depth (settings.decoding.withFaults .all) index.parameter := by
    intro index member
    funext input
    exact parse_parameter_eq (wellFormed.2 index member)
      (ignores.child (Schema.index_mem_children isStruct member).1) depth rfl _ _ input
  unfold Abridgement.FollowsAt
  rw [parse_succ, parse_succ]
  unfold step
  rw [isStruct] at children ⊢
  simp only
  split
  · exact .refl abridges.faults_refl _
  · cases input with
    | object members => exact struct_follows children sameKeys settings.options members
    | _ => exact .refl abridges.faults_refl _

private theorem followsAt_refinement {source : Schema} {filter : Filter}
    (isRefinement : schema.kind = .refinement source filter)
    (ignores : (Kind.refinement source filter).IgnoresFaultMode)
    (atSource : ∀ input, abridges.FollowsAt targets depth settings source input)
    (atSide : ∀ input, abridges.FollowsAt targets depth settings.decoding schema.outputSide input)
    (atPeeled : ∀ input,
      abridges.FollowsAt targets depth settings source.withoutRefinements input)
    (input : Value) : abridges.FollowsAt targets (depth + 1) settings schema input := by
  unfold Abridgement.FollowsAt
  rw [parse_succ, parse_succ]
  unfold step
  rw [isRefinement]
  simp only [Settings.direction_withFaults]
  cases settings.direction with
  | decode =>
      refine (atSource input).bind (fun value => ?_) (fun _ _ related => .fault related)
        (Or.inr nofun)
      simp only [Settings.options_withFaults, ignores settings.options]
      exact .refl abridges.faults_refl _
  | encode =>
      exact (atSide input).bind atPeeled (fun _ _ related => .fault related) (Or.inr nofun)

private theorem followsAt_transform {source target : Schema} {decode encode : Transformer}
    {strict : Bool} (isTransform : schema.kind = .transform source target decode encode strict)
    (ignores : (Kind.transform source target decode encode strict).IgnoresFaultMode)
    (atSource : ∀ input, abridges.FollowsAt targets depth settings source input)
    (atTarget : ∀ input, abridges.FollowsAt targets depth settings target input)
    (input : Value) : abridges.FollowsAt targets (depth + 1) settings schema input := by
  unfold Abridgement.FollowsAt
  rw [parse_succ, parse_succ]
  unfold step
  rw [isTransform]
  simp only [Settings.direction_withFaults]
  cases settings.direction with
  | decode => exact transform_follows ignores.1 atSource atTarget settings _ strict input
  | encode => exact transform_follows ignores.2 atTarget atSource settings _ strict input

private theorem followsAt_declaration {parameters : List Schema} {decode encode : Hook}
    (isDeclaration : schema.kind = .declaration parameters decode encode)
    (isLoose : abridges.loose) (ignores : (Kind.declaration parameters decode encode).IgnoresFaultMode)
    (atParameters : ∀ parameter ∈ parameters, ∀ input,
      abridges.FollowsAt targets depth settings.withoutWaiting parameter input)
    (atNever : ∀ input, abridges.FollowsAt targets depth settings.withoutWaiting Schema.never input)
    (atAsked : ∀ other, (Kind.declaration parameters decode encode).Asks other → ∀ input,
      abridges.FollowsAt targets depth settings.withoutWaiting other input)
    (input : Value) : abridges.FollowsAt targets (depth + 1) settings schema input := by
  have atPosition : ∀ (position : Nat) input, abridges.FollowsAt targets depth
      settings.withoutWaiting (parameters[position]?.getD Schema.never) input := by
    intro position input
    cases found : parameters[position]? with
    | some parameter => exact atParameters parameter (List.mem_of_getElem? found) input
    | none => exact atNever input
  unfold Abridgement.FollowsAt
  rw [parse_succ, parse_succ]
  unfold step
  rw [isDeclaration]
  simp only [Settings.direction_withFaults]
  cases settings.direction with
  | decode =>
      exact hook_follows isLoose atPosition (ignores.1 settings.options .first .all .decode _ input)
        fun other asks => atAsked other (Or.inl ⟨_, _, _, _, asks⟩)
  | encode =>
      exact hook_follows isLoose atPosition (ignores.2 settings.options .first .all .encode _ input)
        fun other asks => atAsked other (Or.inr ⟨_, _, _, _, asks⟩)

end Levels

/-- A run that stops at the first fault follows the run that collects all faults. -/
theorem parse_follows (abridges : Abridgement) {schema : Schema}
    (regular : schema.Throughout targets (·.kind.Regular abridges.loose)) (depth : Nat)
    (settings : Settings) (input : Value) : abridges.FollowsAt targets depth settings schema input := by
  induction depth generalizing settings schema input with
  | zero => exact .refl abridges.faults_refl none
  | succ depth ih =>
      have children : ∀ settings, ∀ child ∈ schema.kind.children, ∀ input,
          abridges.FollowsAt targets depth settings child input :=
        fun settings child below input => ih (regular.child below) settings input
      have here := regular.here
      cases kindAt : schema.kind with
      | tuple elements rest =>
          unfold Abridgement.FollowsAt
          rw [parse_succ, parse_succ]
          unfold step
          rw [kindAt] at children ⊢
          cases input with
          | array items => exact tuple_follows (children settings) items
          | _ => exact .refl abridges.faults_refl _
      | struct fields indexes =>
          exact followsAt_struct kindAt (kindAt ▸ here.1)
            (regular.all.imp fun _ node => node.1.2.1) (children settings) input
      | lazy cell =>
          unfold Abridgement.FollowsAt
          rw [parse_succ, parse_succ]
          unfold step
          rw [kindAt]
          exact ih (regular.enter kindAt) settings input
      | refinement source filter =>
          have below := Schema.refined_mem_children kindAt
          have viewed := regular.sideOf (Kind.regular_projects .output abridges.loose)
          exact followsAt_refinement kindAt (kindAt ▸ here.2.1) (children settings source below)
            (ih viewed settings.decoding) (ih (regular.child below).withoutRefinements settings) input
      | transform source target decode encode strict =>
          exact followsAt_transform kindAt (kindAt ▸ here.2.1)
            (children settings source (Schema.source_mem_children kindAt))
            (children settings target (Schema.target_mem_children kindAt)) input
      | declaration parameters decode encode =>
          have isLoose : abridges.loose := by
            rcases here.2.2 with isLoose | other
            · exact isLoose
            · rw [kindAt] at other
              exact absurd trivial other
          have never : (Schema.never.kind).Regular abridges.loose := ⟨trivial, trivial, Or.inr id⟩
          refine followsAt_declaration kindAt isLoose (kindAt ▸ here.2.1)
            (fun parameter inParameters => children _ parameter ?_)
            (ih (.of_keyword rfl never) _) (fun other asks => ih (regular.asked (kindAt ▸ asks)) _) input
          rw [kindAt]
          exact inParameters
      | _ =>
          unfold Abridgement.FollowsAt
          rw [parse_succ, parse_succ]
          unfold step
          rw [kindAt]
          exact .refl abridges.faults_refl _

end Run

end SchemaCodec
