import SchemaCodec.Proofs.Run.Awaiting
import SchemaCodec.Proofs.Run.FaultOrigin
import SchemaCodec.Proofs.Run.Level
import SchemaCodec.Proofs.Run.Rejection

/-!
Where runs are forbidden. Only a function that suspends makes a run forbidden, and only where the run
may not wait. A run that may wait comes to such a place through a declaration alone: what the hook of
a declaration asks for is run without waiting. As long as no request of a hook comes to a function
that suspends, nothing is forbidden.
-/

namespace SchemaCodec

/-! ### Faults and functions that forbid nothing -/

/-- No leaf of the faults is forbidden. -/
def Faults.Unforbidden (faults : Faults) : Prop :=
  ∀ path, ¬faults.Leaf path .forbidden

def Fault.Unforbidden (fault : Fault) : Prop :=
  ∀ path, ¬fault.Leaf path .forbidden

def Outcome.Unforbidden (outcome : Outcome) : Prop :=
  ∀ faults, outcome = .error faults → faults.Unforbidden

namespace Faults

private theorem unforbidden_iff {faults : Faults} :
    faults.Unforbidden ↔ ∀ fault ∈ faults.toList, fault.Unforbidden :=
  ⟨fun clean fault among path found => clean path ⟨fault, among, found⟩,
    fun each path ⟨fault, among, found⟩ => each fault among path found⟩

private theorem unforbidden_single {fault : Fault} (clean : fault.Unforbidden) :
    (Faults.single fault).Unforbidden :=
  unforbidden_iff.mpr fun _ among => List.mem_singleton.mp among ▸ clean

end Faults

namespace Fault.Unforbidden

variable {faults : Faults}

theorem index (position : Nat) (clean : faults.Unforbidden) :
    (Fault.index position faults).Unforbidden := by
  intro path found
  cases found with
  | index among below => exact clean _ ⟨_, among, below⟩

theorem key (name : PropertyKey) (clean : faults.Unforbidden) :
    (Fault.key name faults).Unforbidden := by
  intro path found
  cases found with
  | key among below => exact clean _ ⟨_, among, below⟩

theorem unionMember (clean : faults.Unforbidden) : (Fault.unionMember faults).Unforbidden := by
  intro path found
  cases found with
  | unionMember among below => exact clean _ ⟨_, among, below⟩

theorem mismatch (expected : Expected) (actual : Value) :
    (Fault.mismatch expected actual).Unforbidden :=
  fun _ found => nomatch found

theorem missing : Fault.missing.Unforbidden :=
  fun _ found => nomatch found

theorem unexpected (actual : Value) : (Fault.unexpected actual).Unforbidden :=
  fun _ found => nomatch found

end Fault.Unforbidden

namespace Outcome.Unforbidden

theorem ok (value : Value) : Outcome.Unforbidden (.ok value) :=
  fun _ failed => nomatch failed

theorem error {faults : Faults} (clean : faults.Unforbidden) :
    Outcome.Unforbidden (.error faults) := by
  intro others same
  cases same
  exact clean

theorem fail {fault : Fault} (clean : fault.Unforbidden) : (Outcome.fail fault).Unforbidden :=
  error (Faults.unforbidden_single clean)

end Outcome.Unforbidden

/-- A hook that is told of nothing forbidden gives nothing forbidden. -/
def HookStep.NeverForbids : HookStep → Prop
  | .done outcome => outcome.Unforbidden
  | .parse _ _ resume =>
    ∀ outcome : Outcome, outcome.Unforbidden → HookStep.NeverForbids (resume outcome)
  | .parseBy _ _ resume =>
    ∀ outcome : Outcome, outcome.Unforbidden → HookStep.NeverForbids (resume outcome)

def Filter.NeverForbids (filter : Filter) : Prop :=
  ∀ options expected value fault, filter options expected value = some fault → fault.Unforbidden

def Transformer.NeverForbids (function : Transformer) : Prop :=
  ∀ options expected value, (function.apply options expected value).Unforbidden

def Hook.NeverForbids (hook : Hook) : Prop :=
  ∀ options direction expected value, (hook options direction expected value).NeverForbids

def Kind.NeverForbids : Kind Schema → Prop :=
  Kind.EachFunction Filter.NeverForbids
    (fun decode encode => decode.NeverForbids ∧ encode.NeverForbids)
    fun decode encode => decode.NeverForbids ∧ encode.NeverForbids

namespace Run

/-! ### One level -/

section Level

variable {run : Schema → Value → Option Outcome}

/-- Nothing in the outcome of a run is forbidden. -/
abbrev Clean (result : Option Outcome) : Prop :=
  ∀ outcome, result = some outcome → outcome.Unforbidden

private theorem Clean.of_faults {result : Option Outcome}
    (each : ∀ faults, result = some (.error faults) → ∀ fault ∈ faults.toList, fault.Unforbidden) :
    Clean result := by
  rintro outcome ran faults rfl
  exact Faults.unforbidden_iff.mpr (each faults ran)

private theorem unforbidden_tuple {elements : List (Element Schema)} {rest : List Schema}
    {items : List Value} {fault : Fault}
    (each : ∀ schema ∈ slots elements rest items.length, ∀ item, Clean (run schema item))
    (reported : TupleFault run elements rest items fault) : fault.Unforbidden := by
  cases reported with
  | missing _ _ => exact .index _ (Faults.unforbidden_single .missing)
  | unexpected _ _ _ => exact .index _ (Faults.unforbidden_single (.unexpected _))
  | item inSlots _ ran => exact .index _ (each _ (List.mem_of_getElem? inSlots) _ _ ran _ rfl)

private theorem unforbidden_struct {decodeKey : Schema → Value → Option Outcome} {options : Options}
    {fields : List (Field Schema)} {indexes : List (IndexSignature Schema)} {members : Members}
    {fault : Fault}
    (each : ∀ child ∈ (Kind.struct fields indexes).children, ∀ item, Clean (run child item))
    (reported : StructFault run decodeKey options fields indexes members fault) :
    fault.Unforbidden := by
  cases reported with
  | unexpected _ _ _ _ => exact .key _ (Faults.unforbidden_single (.unexpected _))
  | missing _ _ _ _ => exact .key _ (Faults.unforbidden_single .missing)
  | field inFields _ ran => exact .key _ (each _ (Schema.field_mem_struct inFields) _ _ ran _ rfl)
  | parameter inIndexes _ ran =>
      exact .key _ (each _ (Schema.index_mem_struct inIndexes).1 _ _ ran _ rfl)
  | index inIndexes _ ran =>
      exact .key _ (each _ (Schema.index_mem_struct inIndexes).2 _ _ ran _ rfl)

private theorem unforbidden_union {members : List Schema} {input : Value} {fault : Fault}
    (each : ∀ member ∈ members, Clean (run member input))
    (reported : UnionFault run members input fault) : fault.Unforbidden := by
  cases reported with
  | tagMissing _ _ => exact .key _ (Faults.unforbidden_single .missing)
  | tagUnknown _ _ _ => exact .key _ (Faults.unforbidden_single (.mismatch _ _))
  | mismatch _ => exact .mismatch _ _
  | member inMembers ran => exact .unionMember (each _ inMembers _ ran _ rfl)

/-- A transformation is forbidden only where it comes to its function and may not wait for it. -/
private theorem clean_transform {settings : Settings} {expected : Expected} {near far : Schema}
    {function : Transformer} {strict : Bool} {input : Value} (neverForbids : function.NeverForbids)
    (atNear : Clean (run near input)) (atFar : ∀ result, Clean (run far result))
    (unbarred : settings.execution = .sync → function.suspends = true →
      ∀ value, run near input ≠ some (.ok value)) :
    Clean (transform run settings expected near far function strict input) := by
  intro outcome ran
  obtain ⟨first, nearRan, after⟩ := Option.bind_eq_some_iff.mp ran
  cases first with
  | error faults =>
      cases after
      exact atNear _ nearRan
  | ok value =>
      have ready : ¬((function.suspends && decide (settings.execution = .sync)) = true) := by
        intro barred
        obtain ⟨suspends, sync⟩ := Bool.and_eq_true_iff.mp barred
        exact unbarred (of_decide_eq_true sync) suspends value nearRan
      simp only [transformer, if_neg ready] at after
      have applied := neverForbids settings.options expected value
      cases given : function.apply settings.options expected value with
      | error faults =>
          rw [given] at after applied
          cases after
          exact applied
      | ok result =>
          rw [given] at after
          cases strict with
          | true => exact atFar result _ after
          | false =>
              cases after
              exact .ok result

private theorem clean_hook {parameters : List Schema} {first : HookStep}
    (neverForbids : first.NeverForbids)
    (each : ∀ parameter ∈ parameters, ∀ value, Clean (run parameter value))
    (asked : ∀ other, first.Asks other → ∀ value, Clean (run other value))
    (never : ∀ value, Clean (run Schema.never value)) : Clean (hook run parameters first) := by
  induction first with
  | done outcome =>
      intro other ran
      cases ran
      exact neverForbids
  | parse parameter input resume ih =>
      intro outcome ran
      obtain ⟨first, reached, after⟩ := Option.bind_eq_some_iff.mp ran
      have later := fun other asks => asked other ⟨first, asks⟩
      refine ih first (neverForbids first ?_) later outcome after
      cases known : parameters[parameter]? with
      | none =>
          rw [known] at reached
          exact never input _ reached
      | some schema =>
          rw [known] at reached
          exact each schema (List.mem_of_getElem? known) input _ reached
  | parseBy schema input resume ih =>
      intro outcome ran
      obtain ⟨first, reached, after⟩ := Option.bind_eq_some_iff.mp ran
      have later := fun other asks => asked other (Or.inr ⟨first, asks⟩)
      have told := asked schema (Or.inl rfl) input _ reached
      exact ih first (neverForbids first told) later outcome after

private theorem clean_check (accepted : Bool) (schema : Schema) (input : Value) :
    Clean (pure (check accepted schema input)) := by
  rintro outcome ran
  cases ran
  unfold check
  cases accepted with
  | true => exact .ok input
  | false => exact .fail (.mismatch _ _)

private theorem clean_mismatch (expected : Expected) (input : Value) :
    Clean (pure (Outcome.fail (.mismatch expected input))) := by
  rintro outcome ran
  cases ran
  exact .fail (.mismatch _ _)

end Level

section Steps

variable {targets : Targets} {run : Settings → Schema → Value → Option Outcome} {settings : Settings}
  {schema : Schema}

private def levelOf (targets : Targets) (run : Settings → Schema → Value → Option Outcome)
    (settings : Settings) (schema : Schema) (input : Value) : Option Outcome :=
  step (fun cell => some (cell.resolve targets)) run settings schema input

private theorem clean_struct {fields : List (Field Schema)} {indexes : List (IndexSignature Schema)}
    (isStruct : schema.kind = .struct fields indexes)
    (children : ∀ child ∈ schema.kind.children, ∀ value, Clean (run settings child value))
    (input : Value) : Clean (levelOf targets run settings schema input) := by
  unfold levelOf step
  rw [isStruct] at children ⊢
  by_cases bare : (fields.isEmpty && indexes.isEmpty) = true
  · simp only [if_pos bare]
    exact clean_check _ _ _
  · simp only [if_neg bare]
    cases input with
    | object members =>
        apply Clean.of_faults
        intro faults failed fault among
        exact unforbidden_struct children (fault_of_struct failed among)
    | _ => exact clean_mismatch _ _

private theorem clean_refinement {source : Schema} {filter : Filter}
    (isRefinement : schema.kind = .refinement source filter)
    (neverForbids : (Kind.refinement source filter).NeverForbids)
    (atSource : ∀ value, Clean (run settings source value))
    (atSide : ∀ value, Clean (run settings.decoding schema.outputSide value))
    (atPeeled : ∀ value, Clean (run settings source.withoutRefinements value)) (input : Value) :
    Clean (levelOf targets run settings schema input) := by
  unfold levelOf step
  rw [isRefinement]
  obtain ⟨execution, options, direction⟩ := settings
  intro outcome ran
  cases direction with
  | decode =>
      obtain ⟨first, sourceRan, after⟩ := Option.bind_eq_some_iff.mp ran
      cases first with
      | error faults =>
          cases after
          exact atSource input _ sourceRan
      | ok value =>
          simp only at after
          cases rejected : filter options schema.expected value with
          | none =>
              rw [rejected] at after
              cases after
              exact .ok value
          | some fault =>
              rw [rejected] at after
              cases after
              exact .fail (neverForbids _ _ _ _ rejected)
  | encode =>
      obtain ⟨first, sideRan, after⟩ := Option.bind_eq_some_iff.mp ran
      cases first with
      | error faults =>
          cases after
          exact atSide input _ sideRan
      | ok value => exact atPeeled value _ after

private theorem clean_transformation {source target : Schema} {decode encode : Transformer}
    {strict : Bool} (isTransform : schema.kind = .transform source target decode encode strict)
    (neverForbids : (Kind.transform source target decode encode strict).NeverForbids)
    (atSource : ∀ value, Clean (run settings source value))
    (atTarget : ∀ value, Clean (run settings target value))
    (unbarred : settings.execution = .sync → schema.kind.suspends settings.direction = true →
      ∀ child input value, run settings child input ≠ some (.ok value)) (input : Value) :
    Clean (levelOf targets run settings schema input) := by
  unfold levelOf step
  rw [isTransform] at unbarred ⊢
  obtain ⟨execution, options, direction⟩ := settings
  cases direction with
  | decode =>
      exact clean_transform neverForbids.1 (atSource input) atTarget fun sync suspends =>
        unbarred sync suspends source input
  | encode =>
      exact clean_transform neverForbids.2 (atTarget input) atSource fun sync suspends =>
        unbarred sync suspends target input

private theorem clean_declaration {parameters : List Schema} {decode encode : Hook}
    (isDeclaration : schema.kind = .declaration parameters decode encode)
    (neverForbids : (Kind.declaration parameters decode encode).NeverForbids)
    (atParameters : ∀ parameter ∈ parameters, ∀ value,
      Clean (run settings.withoutWaiting parameter value))
    (atAsked : ∀ other, schema.kind.Asks other → ∀ value,
      Clean (run settings.withoutWaiting other value))
    (atNever : ∀ value, Clean (run settings.withoutWaiting Schema.never value)) (input : Value) :
    Clean (levelOf targets run settings schema input) := by
  unfold levelOf step
  rw [isDeclaration] at atAsked ⊢
  cases settings.direction with
  | decode =>
      exact clean_hook (neverForbids.1 _ _ _ _) atParameters
        (fun other asks => atAsked other (Or.inl ⟨_, _, _, _, asks⟩)) atNever
  | encode =>
      exact clean_hook (neverForbids.2 _ _ _ _) atParameters
        (fun other asks => atAsked other (Or.inr ⟨_, _, _, _, asks⟩)) atNever

/-- Nothing that a level gives is forbidden, if this is so for the runs that the level makes and the
level does not come to a function that it may not wait for. -/
private theorem clean_step (neverForbids : schema.kind.NeverForbids)
    (each : ∀ others part, Runs targets settings schema others part → ∀ value,
      Clean (run others part value))
    (unbarred : settings.execution = .sync → schema.kind.suspends settings.direction = true →
      ∀ child input value, run settings child input ≠ some (.ok value)) (input : Value) :
    Clean (step (fun cell => some (cell.resolve targets)) run settings schema input) := by
  have children : ∀ child ∈ schema.kind.children, ∀ value, Clean (run settings child value) :=
    fun child below => each settings child (.child below)
  change Clean (levelOf targets run settings schema input)
  cases kindAt : schema.kind with
  | tuple elements rest =>
      unfold levelOf step
      rw [kindAt] at children ⊢
      cases input with
      | array items =>
          apply Clean.of_faults
          intro faults failed fault among
          exact unforbidden_tuple (fun child inSlots => children child (mem_slots inSlots))
            (fault_of_tuple failed among)
      | _ => exact clean_mismatch _ _
  | struct fields indexes => exact clean_struct kindAt children input
  | union members =>
      unfold levelOf step
      rw [kindAt]
      apply Clean.of_faults
      intro faults failed fault among
      refine unforbidden_union (fun member inMembers => ?_) (fault_of_union failed among)
      exact each _ member (.member kindAt inMembers) input
  | lazy cell =>
      unfold levelOf step
      rw [kindAt]
      exact each settings _ (.target kindAt) input
  | refinement source filter =>
      exact clean_refinement kindAt (kindAt ▸ neverForbids)
        (children source (Schema.refined_mem_children kindAt)) (each _ _ (.outputSide kindAt))
        (each _ _ (.withoutRefinements kindAt)) input
  | transform source target decode encode strict =>
      exact clean_transformation kindAt (kindAt ▸ neverForbids)
        (children source (Schema.source_mem_children kindAt))
        (children target (Schema.target_mem_children kindAt)) unbarred input
  | declaration parameters decode encode =>
      exact clean_declaration kindAt (kindAt ▸ neverForbids)
        (fun parameter inParameters => each _ parameter (.parameter kindAt inParameters))
        (fun other asks => each _ other (.asked asks)) (each _ _ .never) input
  | _ =>
      unfold levelOf step
      rw [kindAt]
      exact clean_check _ _ _

end Steps

/-! ### Runs that are barred -/

def failures : Option Outcome → Option Outcome
  | some (.error faults) => some (.error faults)
  | _ => none

/-- A run that is cut off where it comes to a function that suspends and may not wait for it. -/
def parseUnbarred (targets : Targets) : Nat → Settings → Schema → Value → Option Outcome
  | 0, _, _, _ => none
  | depth + 1, settings, schema, input =>
    let enter (cell : LazyCell) : Option Schema := some (cell.resolve targets)
    let below := parseUnbarred targets depth
    if settings.execution = .sync ∧ schema.kind.suspends settings.direction = true then
      -- The function is come to where the near side succeeds.
      step enter (fun settings schema input => failures (below settings schema input)) settings
        schema input
    else step enter below settings schema input

/-- The run gives the outcome and comes to no function that it may not wait for. -/
def YieldsUnbarred (targets : Targets) (settings : Settings) (schema : Schema) (input : Value)
    (outcome : Outcome) : Prop :=
  ∃ depth, parseUnbarred targets depth settings schema input = some outcome

variable {targets : Targets} {settings : Settings} {schema : Schema} {input : Value}
  {outcome : Outcome}

private theorem eq_of_failures {result : Option Outcome} (found : failures result = some outcome) :
    result = some outcome := by
  cases result with
  | none => cases found
  | some reached =>
      cases reached with
      | ok value => cases found
      | error faults => exact found

private theorem failures_ne_ok (result : Option Outcome) (value : Value) :
    failures result ≠ some (.ok value) := by
  intro found
  cases result with
  | none => cases found
  | some reached => cases reached <;> cases found

theorem parse_of_unbarred {depth : Nat}
    (found : parseUnbarred targets depth settings schema input = some outcome) :
    parse targets depth settings schema input = some outcome := by
  induction depth generalizing settings schema input outcome with
  | zero => cases found
  | succ depth ih =>
      rw [parse_succ]
      rw [parseUnbarred] at found
      split at found
      · exact step_mono _ (fun _ _ _ _ kept => ih (eq_of_failures kept)) found
      · exact step_mono _ (fun _ _ _ _ => ih) found

/-- Nothing that a run gives is forbidden, if it comes to no function that it may not wait for. -/
private theorem clean_parseUnbarred (neverForbids : schema.Throughout targets (·.kind.NeverForbids))
    (depth : Nat) (settings : Settings) (input : Value) :
    Clean (parseUnbarred targets depth settings schema input) := by
  induction depth generalizing schema settings input with
  | zero => exact nofun
  | succ depth ih =>
      have each : ∀ others part, Runs targets settings schema others part → ∀ value,
          Clean (parseUnbarred targets depth others part value) := fun others part runs value =>
        ih (runs.throughout (Kind.eachFunction_projects .output _ _ _) trivial neverForbids) others value
      rw [parseUnbarred]
      split
      · refine clean_step neverForbids.here (fun others part runs value outcome kept => ?_)
          (fun _ _ _ _ _ => failures_ne_ok _ _) input
        exact each others part runs value outcome (eq_of_failures kept)
      · rename_i unbarred
        exact clean_step neverForbids.here each
          (fun sync suspends => absurd ⟨sync, suspends⟩ unbarred) input

end Run

/-! ### Schemas whose hooks ask for nothing that suspends -/

namespace Kind

/-- From what the hooks ask for beside the parameters no function that suspends can be come to. -/
def AsksFreely (targets : Targets) (kind : Kind Schema) : Prop :=
  ∀ other, kind.Asks other →
    other.Throughout targets fun node => ∀ direction, node.kind.suspends direction = false

/-- From nothing that the hooks may ask for a function that suspends can be come to; from a parameter,
in the direction. -/
def AsksReady (targets : Targets) (direction : Direction) (kind : Kind Schema) : Prop :=
  kind.AsksFreely targets ∧ match kind with
    | .declaration parameters _ _ =>
      ∀ parameter ∈ parameters, parameter.Throughout targets (·.kind.suspends direction = false)
    | _ => True

private theorem suspends_of_not_isTransform {kind : Kind Schema} (direction : Direction)
    (notTransform : ¬kind.IsTransform) : kind.suspends direction = false := by
  cases kind with
  | transform _ _ _ _ _ => exact absurd trivial notTransform
  | _ => rfl

/-- A side is left without transformations, and asks for what the schema asks for. -/
private theorem asksFreely_projects (targets : Targets) (side : Side) :
    Kind.Projects side (AsksFreely targets) fun kind =>
      (∀ direction, kind.suspends direction = false) ∧ kind.AsksFreely targets where
  leaf kind leaf here := by
    refine ⟨fun direction => suspends_of_not_isTransform direction fun isTransform => ?_, here⟩
    cases kind <;> first | exact leaf.elim | exact isTransform.elim
  tuple _ _ _ := ⟨fun _ => rfl, nofun⟩
  struct _ _ _ := ⟨fun _ => rfl, nofun⟩
  union _ _ _ := ⟨⟨fun _ => rfl, nofun⟩, ⟨fun _ => rfl, nofun⟩⟩
  lazy _ _ _ := ⟨fun _ => rfl, nofun⟩
  refinement _ _ _ := ⟨fun _ => rfl, nofun⟩
  declaration _ _ _ here := ⟨fun _ => rfl, here⟩

end Kind

namespace Run

variable {targets : Targets} {settings : Settings} {schema : Schema} {input : Value}
  {outcome : Outcome}

private theorem outputSide_asksFreely
    (free : schema.Throughout targets (·.kind.AsksFreely targets)) :
    schema.outputSide.Throughout targets fun node =>
      (∀ direction, node.kind.suspends direction = false) ∧ node.kind.AsksFreely targets :=
  free.sideOf_of_asked (Kind.asksFreely_projects targets .output)
    fun _ _ _ other here asks throughout node reached =>
      ⟨here other asks node reached, throughout node reached⟩

/-- No run of the schema comes to a function that it may not wait for: what hooks ask for is ready, and
the run may wait or all functions are ready. -/
structure NeverBarred (targets : Targets) (settings : Settings) (schema : Schema) : Prop where
  wellFormed : schema.Throughout targets (·.kind.WellFormed)
  free : schema.Throughout targets (·.kind.AsksFreely targets)
  ready : (settings.execution = .async ∧
      schema.Throughout targets (·.kind.AsksReady targets settings.direction)) ∨
    schema.Throughout targets (·.kind.suspends settings.direction = false)

theorem NeverBarred.runs {others : Settings} {part : Schema}
    (never : NeverBarred targets settings schema) (runs : Runs targets settings schema others part) :
    NeverBarred targets others part := by
  obtain ⟨wellFormed, free, ready⟩ := never
  have partFormed := runs.throughout (Kind.wellFormed_projects .output) trivial wellFormed
  cases runs with
  | child below =>
      exact ⟨partFormed, free.child below,
        ready.imp (fun waits => ⟨waits.1, waits.2.child below⟩) fun all => all.child below⟩
  | key isStruct inIndexes =>
      have here := wellFormed.here
      rw [isStruct] at here
      have parameter := here.2 _ inIndexes
      refine ⟨partFormed, free.child (Schema.index_mem_children isStruct inIndexes).1, Or.inr ?_⟩
      refine Schema.throughout_of_isParameter (fun node parameter => ?_) parameter
      refine Kind.suspends_of_not_isTransform _ fun isTransform => ?_
      obtain ⟨id, annotations, kind⟩ := node
      cases kind <;> first | exact isTransform.elim | cases parameter
  | member isUnion inMembers =>
      have below := Schema.member_mem_children isUnion inMembers
      exact ⟨partFormed, free.child below,
        ready.imp (fun waits => ⟨waits.1, waits.2.child below⟩) fun all => all.child below⟩
  | target isLazy =>
      exact ⟨partFormed, free.enter isLazy,
        ready.imp (fun waits => ⟨waits.1, waits.2.enter isLazy⟩) fun all => all.enter isLazy⟩
  | outputSide _ =>
      have viewed := outputSide_asksFreely free
      exact ⟨partFormed, fun node reached => (viewed node reached).2,
        Or.inr fun node reached => (viewed node reached).1 _⟩
  | withoutRefinements isRefinement =>
      have below := Schema.refined_mem_children isRefinement
      exact ⟨partFormed, (free.child below).withoutRefinements,
        ready.imp (fun waits => ⟨waits.1, (waits.2.child below).withoutRefinements⟩)
          fun all => (all.child below).withoutRefinements⟩
  | @parameter parameters decode encode _ isDeclaration inParameters =>
      have below : part ∈ schema.kind.children := by
        rw [isDeclaration]
        exact inParameters
      refine ⟨partFormed, free.child below, Or.inr ?_⟩
      rcases ready with ⟨_, asks⟩ | all
      · have here := asks.here.2
        rw [isDeclaration] at here
        exact here _ inParameters
      · exact all.child below
  | asked asks =>
      exact ⟨partFormed, free.asked asks,
        Or.inr fun node reached => free.here part asks node reached _⟩
  | never => exact ⟨partFormed, .of_keyword rfl nofun, Or.inr (.of_keyword rfl rfl)⟩

/-- A run that comes to no function that it may not wait for is cut off nowhere. -/
private theorem parseUnbarred_eq_parse (never : NeverBarred targets settings schema) (depth : Nat)
    (input : Value) :
    parseUnbarred targets depth settings schema input = parse targets depth settings schema input := by
  induction depth generalizing settings schema input with
  | zero => rfl
  | succ depth ih =>
      have unbarred : ¬(settings.execution = .sync ∧
          schema.kind.suspends settings.direction = true) := by
        rintro ⟨sync, suspends⟩
        rcases never.ready with ⟨waits, _⟩ | ready
        · rw [sync] at waits
          cases waits
        · rw [ready.here] at suspends
          cases suspends
      rw [parse_succ, parseUnbarred, if_neg unbarred]
      exact step_congr (fun others part runs => funext (ih (never.runs runs))) input

/-- A run that may wait is forbidden only below a declaration. If something in its outcome is
forbidden, a request of a hook has come to a function that suspends. If from nothing that hooks may
ask for such a function can be come to, nothing is forbidden. -/
theorem forbidden_only_by_requests (neverForbids : schema.Throughout targets (·.kind.NeverForbids))
    (waits : settings.execution = .async) (ran : Yields targets settings schema input outcome) :
    (YieldsUnbarred targets settings schema input outcome → outcome.Unforbidden) ∧
    ((schema.Throughout targets fun node =>
        node.kind.WellFormed ∧ node.kind.AsksReady targets settings.direction) →
      YieldsUnbarred targets settings schema input outcome ∧ outcome.Unforbidden) := by
  have clean : YieldsUnbarred targets settings schema input outcome → outcome.Unforbidden :=
    fun ⟨depth, found⟩ => clean_parseUnbarred neverForbids depth settings input outcome found
  refine ⟨clean, fun ready => ?_⟩
  have never : NeverBarred targets settings schema :=
    { wellFormed := fun node reached => (ready node reached).1
      free := fun node reached => (ready node reached).2.1
      ready := Or.inl ⟨waits, fun node reached => (ready node reached).2⟩ }
  obtain ⟨depth, found⟩ := ran
  have unbarred : YieldsUnbarred targets settings schema input outcome :=
    ⟨depth, (parseUnbarred_eq_parse never depth input).trans found⟩
  exact ⟨unbarred, clean unbarred⟩

/-! ### Boxes -/

/-- The member of a box is run against what the hook asks for; other members are dropped. -/
def boxHook (ask : Value → (Outcome → HookStep) → HookStep) : Hook := fun _ _ expected input =>
  match input with
  | .object members =>
    match Table.find? (.string "value") members with
    | none => .done (Outcome.fail (.key (.string "value") (.single .missing)))
    | some content => ask content fun outcome =>
      match outcome with
      | .ok parsed => .done (.ok (.object [(.string "value", parsed)]))
      | .error faults => .done (Outcome.fail (.key (.string "value") faults))
  | _ => .done (Outcome.fail (.mismatch expected input))

def boxOf (content : Schema) : Schema :=
  .plain (.made 2) (.declaration [content] (boxHook (.parse 0)) (boxHook (.parse 0)))

def sealedBoxOf (content : Schema) : Schema :=
  .plain (.made 4) (.declaration [] (boxHook (.parseBy content)) (boxHook (.parseBy content)))

section Boxes

variable {ask : Value → (Outcome → HookStep) → HookStep} {content other : Schema}

private theorem boxHook_neverForbids (asks : ∀ value resume,
      (∀ outcome : Outcome, outcome.Unforbidden → HookStep.NeverForbids (resume outcome)) →
      HookStep.NeverForbids (ask value resume)) : (boxHook ask).NeverForbids := by
  intro options direction expected input
  cases input with
  | object members =>
      simp only [boxHook]
      cases Table.find? (.string "value") members with
      | none => exact .fail (.key _ (Faults.unforbidden_single .missing))
      | some content =>
          refine asks content _ fun outcome clean => ?_
          cases outcome with
          | ok parsed => exact .ok _
          | error faults => exact .fail (.key _ (clean faults rfl))
  | _ => exact .fail (.mismatch _ _)

private theorem exists_of_boxHook_asks (asks : (boxHook ask).Asks other) :
    ∃ value resume, (ask value resume).Asks other ∧ ∀ outcome, ¬(resume outcome).Asks other := by
  obtain ⟨options, direction, expected, input, asks⟩ := asks
  cases input with
  | object members =>
      simp only [boxHook] at asks
      cases found : Table.find? (.string "value") members with
      | none =>
          rw [found] at asks
          exact asks.elim
      | some content =>
          rw [found] at asks
          refine ⟨content, _, asks, fun outcome later => ?_⟩
          cases outcome with
          | ok parsed => exact later
          | error faults => exact later
  | _ => exact asks.elim

private theorem boxOf_asks_nothing (content other : Schema) :
    ¬(boxOf content).kind.Asks other := by
  rintro (asks | asks) <;>
  · obtain ⟨_, _, ⟨outcome, later⟩, nothing⟩ := exists_of_boxHook_asks asks
    exact nothing outcome later

private theorem eq_of_sealedBoxOf_asks (asks : (sealedBoxOf content).kind.Asks other) :
    other = content := by
  rcases asks with asks | asks <;>
  · obtain ⟨_, _, rfl | ⟨outcome, later⟩, nothing⟩ := exists_of_boxHook_asks asks
    · rfl
    · exact absurd later (nothing outcome)

private theorem boxOf_neverForbids : (boxOf content).kind.NeverForbids :=
  ⟨boxHook_neverForbids fun _ _ => id, boxHook_neverForbids fun _ _ => id⟩

private theorem sealedBoxOf_neverForbids : (sealedBoxOf content).kind.NeverForbids :=
  ⟨boxHook_neverForbids fun _ _ => id, boxHook_neverForbids fun _ _ => id⟩

end Boxes

private theorem truthOf_neverForbids (source : Schema) : (truthOf source).kind.NeverForbids :=
  ⟨fun _ _ _ => .ok _, fun _ _ _ => .ok _⟩

def parcel : Schema :=
  .plain (.made 3) (.struct [⟨.string "marked", truthOf .string, false⟩,
    ⟨.string "label", sealedBoxOf .string, false⟩, ⟨.string "box", boxOf .number, false⟩] [])

private theorem parcel_throughout {holds : Schema → Prop} (each : ∀ node ∈
      [parcel, truthOf .string, sealedBoxOf .string, boxOf .number, .string, .boolean, .number],
      holds node) : parcel.Throughout (fun _ => Schema.never) holds := by
  refine .of_targets
    [parcel, truthOf .string, sealedBoxOf .string, boxOf .number, .string, .boolean, .number] ?_
    (fun node inNodes => ⟨?_, each node inNodes⟩) List.mem_cons_self
  · change [truthOf .string, sealedBoxOf .string, boxOf .number, .string, .boolean, .number] ⊆ _
    simp
  · revert node
    simp only [List.forall_mem_cons]
    refine ⟨nofun, nofun, fun other asks => ?_,
      fun other asks => absurd asks (boxOf_asks_nothing .number other), nofun, nofun, nofun, nofun⟩
    rw [eq_of_sealedBoxOf_asks asks]
    simp

/-- A parcel is waited for, and a text in its box is only told to be no number. -/
theorem parcel_unforbidden :
    ∃ faults, Yields (fun _ => Schema.never) ⟨.async, {}, .decode⟩ parcel
      (.object [(.string "marked", .string "a"),
        (.string "label", .object [(.string "value", .string "c")]),
        (.string "box", .object [(.string "value", .string "b")])]) (.error faults) ∧
      Outcome.Unforbidden (.error faults) := by
  have failed : Yields (fun _ => Schema.never) ⟨.async, {}, .decode⟩ parcel
      (.object [(.string "marked", .string "a"),
        (.string "label", .object [(.string "value", .string "c")]),
        (.string "box", .object [(.string "value", .string "b")])])
      (Outcome.fail (.key (.string "box") (.single (.key (.string "value") (.single
        (.mismatch Schema.number.expected (.string "b"))))))) := ⟨4, rfl⟩
  refine ⟨_, failed, ((forbidden_only_by_requests (parcel_throughout ?_) rfl failed).2
    (parcel_throughout ?_)).2⟩
  · simp only [List.forall_mem_cons]
    exact ⟨trivial, truthOf_neverForbids _, sealedBoxOf_neverForbids, boxOf_neverForbids, trivial,
      trivial, trivial, nofun⟩
  · simp only [List.forall_mem_cons]
    have ready : ∀ parameter ∈ [Schema.number], parameter.Throughout (fun _ => Schema.never)
        (·.kind.suspends .decode = false) :=
      List.forall_mem_singleton.mpr (.of_keyword rfl rfl)
    have freely : (sealedBoxOf .string).kind.AsksFreely fun _ => Schema.never := by
      intro other asks
      rw [eq_of_sealedBoxOf_asks asks]
      exact .of_keyword rfl fun _ => rfl
    have nothing : (boxOf .number).kind.AsksFreely fun _ => Schema.never :=
      fun other asks => absurd asks (boxOf_asks_nothing _ _)
    exact ⟨⟨⟨by decide, nofun⟩, nofun, trivial⟩, ⟨trivial, nofun, trivial⟩,
      ⟨trivial, freely, nofun⟩, ⟨trivial, nothing, ready⟩, ⟨trivial, nofun, trivial⟩,
      ⟨trivial, nofun, trivial⟩, ⟨trivial, nofun, trivial⟩, nofun⟩

/-- A function that is waited for as such is forbidden in a box, even where the run may wait, and
whichever way the hook of the box comes to know the schema. -/
theorem box_forbids :
    (∀ box ∈ [boxOf (truthOf .string), sealedBoxOf (truthOf .string)],
      box.Throughout (fun _ => Schema.never) (·.kind.NeverForbids)) ∧
    Yields (fun _ => Schema.never) ⟨.async, {}, .decode⟩ (truthOf .string) (.string "a")
      (.ok (.boolean true)) ∧
    ∀ box ∈ [boxOf (truthOf .string), sealedBoxOf (truthOf .string)],
      ∃ faults, Yields (fun _ => Schema.never) ⟨.async, {}, .decode⟩ box
        (.object [(.string "value", .string "a")]) (.error faults) ∧
        faults.Leaf [.key (.string "value")] .forbidden := by
  have forbidden : (Faults.single (.key (.string "value") (.single .forbidden))).Leaf
      [.key (.string "value")] .forbidden :=
    ⟨_, List.mem_cons_self, .key List.mem_cons_self (.here rfl)⟩
  refine ⟨fun box inBoxes => ?_, ⟨3, rfl⟩, ?_⟩
  · refine .of_targets [boxOf (truthOf .string), sealedBoxOf (truthOf .string), truthOf .string,
      .string, .boolean] ?_ ?_ (List.mem_append_left [truthOf .string, .string, .boolean] inBoxes)
    · change [truthOf .string, .string, .boolean] ⊆ _
      simp
    · simp only [List.forall_mem_cons]
      refine ⟨⟨fun other asks => absurd asks (boxOf_asks_nothing (truthOf .string) other),
          boxOf_neverForbids⟩,
        ⟨fun other asks => ?_, sealedBoxOf_neverForbids⟩, ⟨nofun, truthOf_neverForbids _⟩,
        ⟨nofun, trivial⟩, ⟨nofun, trivial⟩, nofun⟩
      rw [eq_of_sealedBoxOf_asks asks]
      simp
  · simp only [List.forall_mem_cons]
    exact ⟨⟨_, ⟨4, rfl⟩, forbidden⟩, ⟨_, ⟨4, rfl⟩, forbidden⟩, nofun⟩

end Run

end SchemaCodec
