import SchemaCodec.Proofs.Run.Admission
import SchemaCodec.Proofs.Run.Endless

/-!
The side that a run starts from takes what the run takes. The side leaves out functions and checks,
rebuilds the unions of what is left and tries their members by tags of its own; a schema that
decodes or encodes a value still has a side that does not fail on it.
-/

namespace SchemaCodec

/-- What a run in the direction asks of a node for the side that it starts from to follow. Encoding
runs filters on that side, so these must not tell it from the schema itself; a hook is on both
sides, so it must not look at the fault mode, and there are no parameters for it to ask for. -/
def Kind.StartsSteadily (direction : Direction) : Kind Schema → Prop
  | .struct fields indexes => (Kind.struct fields indexes).WellFormed
  | .refinement _ filter => direction = .encode → filter.SteadyVerdict
  | .declaration parameters decode _ =>
    direction = .decode ∧ parameters = [] ∧ Hook.IgnoresFaultMode decode
  | _ => True

private theorem Kind.impartial_projects : Kind.Projects .output
    (StartsSteadily .encode) Impartial where
  leaf kind isLeaf _ := by cases kind <;> first | exact isLeaf.elim | exact True.intro
  tuple _ _ _ := trivial
  struct fields indexes here := (wellFormed_projects .output).struct fields indexes here
  union _ _ _ := ⟨trivial, trivial⟩
  lazy _ _ _ := trivial
  refinement _ _ here := here rfl
  declaration _ _ _ here := nomatch here.1

namespace Run

open Schema

variable {targets : Targets} {settings : Settings} {schema : Schema} {input value : Value}

theorem impartial_outputSide
    (steady : schema.Throughout targets (·.kind.StartsSteadily .encode)) :
    (schema.sideOf .output).Throughout targets (·.kind.Impartial) :=
  steady.sideOf_of_asked Kind.impartial_projects fun _ _ _ _ here => nomatch here.1

/-! ### Fault modes -/

private theorem ok_withFaults_struct {depth : Nat} (mode : FaultMode)
    {fields : List (Field Schema)} {indexes : List (IndexSignature Schema)}
    (isStruct : schema.kind = .struct fields indexes)
    (wellFormed : (Kind.struct fields indexes).WellFormed)
    (children : ∀ child ∈ schema.kind.children, ∀ item result,
      parse targets depth settings.decoding child item = some (.ok result) →
      outcome? targets (settings.decoding.withFaults mode) child item = some (.ok result))
    (level : step (fun cell => some (cell.resolve targets)) (parse targets depth) settings.decoding
      schema input = some (.ok value)) :
    step (fun cell => some (cell.resolve targets)) (outcome? targets)
      (settings.decoding.withFaults mode) schema input = some (.ok value) := by
  by_cases parts : fields = [] ∧ indexes = []
  · obtain ⟨rfl, rfl⟩ := parts
    exact (step_struct_empty isStruct).mpr ((step_struct_empty isStruct).mp level)
  obtain ⟨members, rfl, expected, declared, indexed, fieldsYield, indexesYield, rfl⟩ :=
    (step_struct isStruct parts).mp level
  refine (step_struct isStruct parts).mpr ⟨members, rfl, fun strict member inMembers => ?_,
    declared, indexed, fieldsYield.imp ?_, indexesYield.imp ?_, rfl⟩
  · refine (expected strict member inMembers).imp_right fun taken => ?_
    obtain ⟨index, inIndexes, fits, result, keyRan⟩ := exists_index_of_takesKey taken
    have keysEnd : ∀ other ∈ indexes, Ends targets (settings.decoding.withFaults mode)
        other.parameter member.1.toValue := fun other inOthers =>
      ends_parameter (wellFormed.2 other inOthers) rfl _
    obtain ⟨decision, decided⟩ := takesKey_finishes fun other inOthers =>
      finishes_iff_ends.mpr (keysEnd other inOthers)
    exact takesKey_of_index decided inIndexes fits
      (children _ (index_mem_children isStruct inIndexes).1 _ _ keyRan)
  · exact fun field inFields => children _ (field_mem_children isStruct inFields)
  · intro index inIndexes child isPart
    obtain ⟨parameterBelow, valueBelow⟩ := index_mem_children isStruct inIndexes
    rcases List.mem_cons.mp isPart with rfl | later
    · exact children _ parameterBelow
    · cases List.mem_singleton.mp later
      exact children _ valueBelow

/-- Where nothing looks at the fault mode, decoding succeeds in all modes alike. -/
theorem ok_withFaults (impartial : schema.Throughout targets (·.kind.Impartial))
    (mode : FaultMode) (ran : Yields targets settings.decoding schema input (.ok value)) :
    Yields targets (settings.decoding.withFaults mode) schema input (.ok value) := by
  obtain ⟨depth, found⟩ := ran
  induction depth generalizing schema input value with
  | zero => cases found
  | succ depth ih =>
      have children : ∀ child ∈ schema.kind.children, ∀ item result,
          parse targets depth settings.decoding child item = some (.ok result) →
          outcome? targets (settings.decoding.withFaults mode) child item = some (.ok result) :=
        fun child below item result found => outcome?_eq_some.mpr (ih (impartial.child below) found)
      have here := impartial.here
      have level := found
      rw [parse_succ] at level
      rw [yields_iff_step]
      cases kindAt : schema.kind with
      | tuple elements rest =>
          obtain ⟨items, rfl, required, bounded, results, yields, rfl⟩ :=
            (step_tuple kindAt).mp level
          rw [kindAt] at children
          refine (step_tuple kindAt).mpr ⟨items, rfl, required, bounded, results, ?_, rfl⟩
          exact yields.imp fun child inSlots => children child (mem_slots inSlots)
      | struct fields indexes =>
          rw [kindAt] at here
          exact ok_withFaults_struct mode kindAt here children level
      | union members =>
          have ran : Yields targets settings.decoding schema input (.ok value) :=
            ⟨depth + 1, found⟩
          have searched := (yields_union kindAt).mp ran
          have again : Yields targets (settings.decoding.withFaults mode) schema input
              (.ok value) := (yields_union kindAt).mpr searched
          exact yields_iff_step.mp again
      | lazy cell =>
          rw [step_lazy kindAt] at level ⊢
          exact outcome?_eq_some.mpr (ih (impartial.enter kindAt) level)
      | refinement source filter =>
          rw [kindAt] at here
          obtain ⟨sourceRan, passes⟩ := (step_refinement_decode kindAt rfl).mp level
          exact (step_refinement_decode kindAt rfl).mpr
            ⟨children source (refined_mem_children kindAt) _ _ sourceRan,
              here settings.options mode _ _ value passes⟩
      | transform source target decode encode strict =>
          rw [kindAt] at here
          exact here.elim
      | declaration parameters decode encode =>
          rw [kindAt] at here
          exact here.elim
      | _ =>
          have leaf := isLeaf_of_kind kindAt trivial
          exact (step_leaf leaf).mpr ((step_leaf leaf).mp level)

/-! ### Keys -/

private theorem not_plain_of_parameter (parameter : schema.isParameter = true) :
    ¬schema.IsPlainUnion := by
  refine parameter_induction parameter (fun schema leaf => ?_)
    (fun schema source filter isRefinement _ => ?_)
  · rintro ⟨_, members, isUnion⟩
    rw [isUnion] at leaf
    exact leaf
  · exact not_plain_of_kind isRefinement nofun

theorem tags_of_parameter (parameter : schema.isParameter = true) (direction : Direction) :
    schema.tags direction = [] := by
  refine parameter_induction parameter (fun schema leaf => tags_of_leaf leaf direction)
    (fun schema source filter isRefinement ih => ?_)
  obtain ⟨id, annotations, kind⟩ := schema
  cases isRefinement
  exact ih

/-- A key that a parameter decodes is taken by the input side of the parameter. -/
theorem admits_inputSide_of_parameter (parameter : schema.isParameter = true)
    (ran : Yields targets settings.decoding schema input (.ok value)) :
    Admits targets settings (schema.sideOf .input) input := by
  revert ran
  refine parameter_induction parameter (fun schema leaf ran => ?_)
    (fun schema source filter isRefinement ih ran => ?_)
  · exact admits_leaf leaf ((step_leaf leaf).mp (yields_iff_step.mp ran)).1
  · have sourceRan := ((step_refinement_decode isRefinement rfl).mp (yields_iff_step.mp ran)).1
    rw [inputSide_refinement isRefinement]
    exact ih (outcome?_eq_some.mp sourceRan)

/-- A key that a parameter decodes is taken by the side of the parameter where the run starts. -/
private theorem admits_startSide_of_parameter (parameter : schema.isParameter = true)
    (steady : schema.Throughout targets (·.kind.StartsSteadily settings.direction))
    (ran : Yields targets settings.decoding schema input (.ok value)) :
    Admits targets settings (schema.sideOf settings.direction.startSide) input := by
  cases directed : settings.direction with
  | decode => exact admits_inputSide_of_parameter parameter ran
  | encode =>
      rw [directed] at steady
      have impartial := impartial_outputSide steady
      change Admits targets settings (schema.sideOf .output) input
      rw [sideOf_output_of_isParameter parameter] at impartial ⊢
      refine .of_not_plain (not_plain_of_parameter parameter) (fun mode => ?_) ?_
      · exact (ok_withFaults impartial mode ran).not_rejects
      · rw [tags_of_parameter parameter]
        exact nofun

/-! ### Declarations -/

/-- What hooks ask for does not look at the fault mode either. -/
def AsksRegularly (targets : Targets) (node : Schema) : Prop :=
  ∀ other, node.kind.Asks other → Regular targets other

/-- Without parameters, a hook that does not look at the fault mode ends alike in all modes, if what
it asks for does. -/
private theorem hook_alike {run others : Schema → Value → Option Outcome} {step other : HookStep}
    (alike : step.Alike other)
    (asked : ∀ schema, schema = Schema.never ∨ step.Asks schema → ∀ item outcome outcomeToo,
      run schema item = some outcome → others schema item = some outcomeToo →
        outcome.Alike outcomeToo)
    {outcome outcomeToo : Outcome} (ran : hook run [] step = some outcome)
    (ranToo : hook others [] other = some outcomeToo) : outcome.Alike outcomeToo := by
  induction alike with
  | done same =>
      cases ran
      cases ranToo
      exact same
  | @parse parameter item resume resumeToo _ ih =>
      obtain ⟨first, reached, after⟩ := Option.bind_eq_some_iff.mp ran
      obtain ⟨firstToo, reachedToo, afterToo⟩ := Option.bind_eq_some_iff.mp ranToo
      refine ih _ _ (asked _ (Or.inl rfl) item _ _ reached reachedToo) ?_ after afterToo
      exact fun schema asks => asked schema (asks.imp_right fun later => ⟨first, later⟩)
  | @parseBy schema item resume resumeToo _ ih =>
      obtain ⟨first, reached, after⟩ := Option.bind_eq_some_iff.mp ran
      obtain ⟨firstToo, reachedToo, afterToo⟩ := Option.bind_eq_some_iff.mp ranToo
      refine ih _ _ (asked _ (Or.inr (Or.inl rfl)) item _ _ reached reachedToo) ?_ after afterToo
      exact fun other asks => asked other (asks.imp_right fun later => Or.inr ⟨first, later⟩)

private theorem sideOf_of_no_parameters {side : Side} {decode encode : Hook}
    (isDeclaration : schema.kind = .declaration [] decode encode) :
    schema.sideOf side = schema := by
  obtain ⟨id, annotations, kind⟩ := schema
  cases isDeclaration
  rfl

private theorem step_declaration_decode {enter : LazyCell → Option Schema}
    {run : Settings → Schema → Value → Option Outcome} {parameters : List Schema}
    {decode encode : Hook} (isDeclaration : schema.kind = .declaration parameters decode encode) :
    step enter run settings.decoding schema input =
      hook (run settings.decoding.withoutWaiting) parameters
        (decode settings.options .decode schema.expected input) := by
  unfold step
  rw [isDeclaration]
  rfl

private theorem admits_side_declaration {side : Side} {decode encode : Hook}
    (isDeclaration : schema.kind = .declaration [] decode encode)
    (ignores : decode.IgnoresFaultMode) (asked : AsksRegularly targets schema)
    (ran : Yields targets settings.decoding schema input (.ok value)) :
    Admits targets settings (schema.sideOf side) input := by
  rw [sideOf_of_no_parameters isDeclaration]
  refine .of_not_plain (not_plain_of_kind isDeclaration nofun) ?_ ?_
  · rintro mode ⟨faults, failed⟩
    have neverRegular : Regular targets Schema.never := .of_keyword rfl ⟨trivial, trivial⟩
    rw [AsksRegularly, isDeclaration] at asked
    have again := yields_iff_step.mp ran
    rw [step_declaration_decode isDeclaration] at again
    have failedToo : step _ (outcome? targets) (settings.withFaults mode).decoding schema input =
      some (.error faults) := yields_iff_step.mp failed
    rw [step_declaration_decode isDeclaration] at failedToo
    have same : settings.decoding.withoutWaiting.failingFast =
      (settings.withFaults mode).decoding.withoutWaiting.failingFast := rfl
    have alike := hook_alike
      (ignores settings.options settings.options.faults mode .decode schema.expected input)
      (fun other asks item outcome outcomeToo reached reachedToo => by
        have regular : Regular targets other :=
          asks.elim (fun isNever => isNever ▸ neverRegular)
            fun later => asked other (Or.inl ⟨_, _, _, _, later⟩)
        exact Yields.alike regular same (outcome?_eq_some.mp reached)
          (outcome?_eq_some.mp reachedToo)) again failedToo
    cases alike
  · rw [tags_of_other (by rw [isDeclaration]; nofun) (by rw [isDeclaration]; nofun)
      (by rw [isDeclaration]; exact id)]
    exact nofun

/-! ### One level -/

private def StartAdmits (targets : Targets) (settings : Settings) (depth : Nat) (schema : Schema) :
    Prop :=
  ∀ input value, parse targets depth settings schema input = some (.ok value) →
    Admits targets settings (schema.sideOf settings.direction.startSide) input

private theorem startAdmits_tuple {depth : Nat} {elements : List (Element Schema)}
    {rest : List Schema} (isTuple : schema.kind = .tuple elements rest)
    (children : ∀ child ∈ schema.kind.children, StartAdmits targets settings depth child) :
    StartAdmits targets settings (depth + 1) schema := by
  intro input value found
  rw [parse_succ] at found
  obtain ⟨items, rfl, required, bounded, results, yields, rfl⟩ := (step_tuple isTuple).mp found
  refine admits_side_tuple isTuple required bounded fun child item inZip => ?_
  have below : child ∈ schema.kind.children := by
    rw [isTuple]
    exact mem_slots (List.of_mem_zip inZip).1
  obtain ⟨result, ran⟩ := yields.swap.exists_of_mem_zip inZip
  exact children child below item result ran

private theorem startAdmits_struct {depth : Nat} {fields : List (Field Schema)}
    {indexes : List (IndexSignature Schema)} (isStruct : schema.kind = .struct fields indexes)
    (steady : schema.Throughout targets (·.kind.StartsSteadily settings.direction))
    (tell : IdentitiesTell [schema])
    (children : ∀ child ∈ schema.kind.children, StartAdmits targets settings depth child) :
    StartAdmits targets settings (depth + 1) schema := by
  intro input value found
  rw [parse_succ] at found
  by_cases parts : fields = [] ∧ indexes = []
  · obtain ⟨rfl, rfl⟩ := parts
    exact admits_side_struct_empty isStruct ((step_struct_empty isStruct).mp found).1
  have wellFormed : (Kind.struct fields indexes).WellFormed := by
    have here := steady.here
    rw [isStruct] at here
    exact here
  obtain ⟨members, rfl, expected, declared, indexed, fieldsYield, indexesYield, rfl⟩ :=
    (step_struct isStruct parts).mp found
  refine admits_side_struct tell isStruct (by rw [isStruct]; exact wellFormed)
    { expected := fun strict member inMembers => ?_
      declared := fun field inFields => ?_
      indexed := fun index inIndexes member about => ?_ }
  · refine (expected strict member inMembers).imp isDeclared_eq_true_iff.mp fun taken => ?_
    obtain ⟨index, inIndexes, fits, result, keyRan⟩ := exists_index_of_takesKey taken
    have below := (index_mem_children isStruct inIndexes).1
    exact ⟨index, inIndexes, fits, admits_startSide_of_parameter (wellFormed.2 index inIndexes)
      (steady.child below) ⟨depth, keyRan⟩⟩
  · have follows := children _ (field_mem_children isStruct inFields)
    rcases fieldsYield.exists_run inFields with ⟨item, result, present, ran⟩ |
      ⟨absent, optional | ⟨loose, result, ran⟩⟩
    · exact Or.inl ⟨item, present, follows item result ran⟩
    · exact Or.inr ⟨absent, Or.inl optional⟩
    · exact Or.inr ⟨absent, Or.inr ⟨loose, follows .undefined result ran⟩⟩
  · obtain ⟨parameterBelow, valueBelow⟩ := index_mem_children isStruct inIndexes
    obtain ⟨entry, _, made⟩ := indexesYield.exists_entry inIndexes about
    obtain ⟨key, taken⟩ := made.taken
    exact ⟨children _ parameterBelow _ key taken, children _ valueBelow _ _ made.ran⟩

/-- The refinement runs its output side first, so that side has taken the value already. -/
private theorem admits_outputSide_of_refinement {source : Schema} {filter : Filter}
    (isRefinement : schema.kind = .refinement source filter)
    (steady : schema.Throughout targets (·.kind.StartsSteadily .encode))
    (tell : IdentitiesTell [schema])
    (ran : Yields targets settings.decoding (schema.sideOf .output) input (.ok value)) :
    Admits targets settings (schema.sideOf .output) input := by
  have viewed := kind_outputSide_refinement isRefinement
  refine .of_not_plain (not_plain_of_kind viewed nofun) (fun mode => ?_) fun tag inTags => ?_
  · exact (ok_withFaults (impartial_outputSide steady) mode ran).not_rejects
  · exact fits_of_run tell ((Derived.root List.mem_cons_self).side .output) ran inTags

private theorem startAdmits_union {depth : Nat} {members : List Schema}
    (isUnion : schema.kind = .union members)
    (steady : schema.Throughout targets (·.kind.StartsSteadily settings.direction))
    (tell : IdentitiesTell [schema])
    (children : ∀ child ∈ schema.kind.children,
      StartAdmits targets settings.failingFast depth child) :
    StartAdmits targets settings (depth + 1) schema := by
  intro input value found
  rw [parse_succ] at found
  unfold step at found
  rw [isUnion] at found
  obtain ⟨member, inMembers, memberRan⟩ := exists_of_union_ok found
  refine admits_side_union tell isUnion inMembers (fun isOutput other inOthers => ?_)
    (children member (member_mem_children isUnion inMembers) input value memberRan)
  have encoding : settings.direction = .encode := by
    cases directed : settings.direction with
    | encode => rfl
    | decode =>
        rw [directed] at isOutput
        cases isOutput
  rw [encoding] at steady ⊢
  have otherSteady := (steady.child (member_mem_children isUnion inOthers)).all
  exact All.sideOf Kind.impartial_projects (otherSteady.imp fun node here => here.1)

private theorem startAdmits_refinement {depth : Nat} {source : Schema} {filter : Filter}
    (isRefinement : schema.kind = .refinement source filter)
    (steady : schema.Throughout targets (·.kind.StartsSteadily settings.direction))
    (tell : IdentitiesTell [schema]) (atSource : StartAdmits targets settings depth source) :
    StartAdmits targets settings (depth + 1) schema := by
  intro input value found
  rw [parse_succ] at found
  cases directed : settings.direction with
  | decode =>
      have sourceRan := ((step_refinement_decode isRefinement directed).mp found).1
      have admits := atSource input value sourceRan
      rw [directed] at admits
      change Admits targets settings (schema.sideOf .input) input
      rw [inputSide_refinement isRefinement]
      exact admits
  | encode =>
      obtain ⟨given, validated, _⟩ := (step_refinement_encode isRefinement directed).mp found
      rw [directed] at steady
      exact admits_outputSide_of_refinement isRefinement steady tell ⟨depth, validated⟩

private theorem startAdmits_transform {depth : Nat} {source target : Schema}
    {decode encode : Transformer} {strict : Bool}
    (isTransform : schema.kind = .transform source target decode encode strict)
    (atSource : StartAdmits targets settings depth source)
    (atTarget : StartAdmits targets settings depth target) :
    StartAdmits targets settings (depth + 1) schema := by
  intro input value found
  rw [parse_succ] at found
  cases directed : settings.direction with
  | decode =>
      obtain ⟨given, _, sourceRan, _⟩ := (step_transform_decode isTransform directed).mp found
      have admits := atSource input given sourceRan
      rw [directed] at admits
      change Admits targets settings (schema.sideOf .input) input
      rw [inputSide_transform isTransform]
      exact admits
  | encode =>
      obtain ⟨given, _, targetRan, _⟩ := (step_transform_encode isTransform directed).mp found
      have admits := atTarget input given targetRan
      rw [directed] at admits
      change Admits targets settings (schema.sideOf .output) input
      rw [outputSide_transform isTransform]
      exact admits

private theorem startAdmits_declaration {depth : Nat} {parameters : List Schema}
    {decode encode : Hook} (isDeclaration : schema.kind = .declaration parameters decode encode)
    (steady : schema.kind.StartsSteadily settings.direction) (asked : AsksRegularly targets schema) :
    StartAdmits targets settings (depth + 1) schema := by
  intro input value found
  rw [isDeclaration] at steady
  obtain ⟨directed, rfl, ignores⟩ := steady
  have same : settings = settings.decoding := by
    obtain ⟨execution, options, direction⟩ := settings
    cases directed
    rfl
  rw [same] at found
  exact admits_side_declaration isDeclaration ignores asked ⟨depth + 1, found⟩

/-! ### Whole runs -/

private theorem startAdmits
    (steady : schema.Throughout targets (·.kind.StartsSteadily settings.direction))
    (asked : schema.Throughout targets (AsksRegularly targets))
    (tell : schema.Throughout targets fun node => IdentitiesTell [node]) (depth : Nat) :
    StartAdmits targets settings depth schema := by
  -- The members of a union stop at their first fault, so the settings change on the way down; what
  -- is admitted does not depend on them.
  induction depth generalizing settings schema with
  | zero =>
      intro input value found
      cases found
  | succ depth ih =>
      have children : ∀ child ∈ schema.kind.children, StartAdmits targets settings depth child :=
        fun child below => ih (steady.child below) (asked.child below) (tell.child below)
      cases kindAt : schema.kind with
      | tuple elements rest => exact startAdmits_tuple kindAt children
      | struct fields indexes => exact startAdmits_struct kindAt steady tell.here children
      | union members =>
          exact startAdmits_union kindAt steady tell.here fun child below =>
            @ih settings.failingFast child (steady.child below) (asked.child below)
              (tell.child below)
      | lazy cell =>
          intro input value found
          rw [parse_succ, step_lazy kindAt] at found
          exact admits_side_lazy kindAt
            (ih (steady.enter kindAt) (asked.enter kindAt) (tell.enter kindAt) input value found)
      | refinement source filter =>
          exact startAdmits_refinement kindAt steady tell.here
            (children source (refined_mem_children kindAt))
      | transform source target decode encode strict =>
          exact startAdmits_transform kindAt (children source (source_mem_children kindAt))
            (children target (target_mem_children kindAt))
      | declaration parameters decode encode =>
          exact startAdmits_declaration kindAt steady.here asked.here
      | _ =>
          intro input value found
          have leaf := isLeaf_of_kind kindAt trivial
          rw [parse_succ] at found
          exact admits_leaf leaf ((step_leaf leaf).mp found).1

/-- The side that a run starts from never fails on what the run takes, and takes it as well where
no way that stays with one value goes on for ever. -/
private theorem startSide_takes
    (steady : schema.Throughout targets (·.kind.StartsSteadily settings.direction))
    (asked : schema.Throughout targets (AsksRegularly targets))
    (tell : schema.Throughout targets fun node => IdentitiesTell [node])
    (ran : Yields targets settings schema input (.ok value)) :
    ¬Rejects targets settings.decoding (schema.sideOf settings.direction.startSide) input ∧
    ((schema.Throughout targets fun node =>
        node.Guarded targets settings.direction.startSide ∧ node.kind.RequestsEnd targets) →
      ∃ given, Yields targets settings.decoding (schema.sideOf settings.direction.startSide) input
        (.ok given)) := by
  obtain ⟨depth, found⟩ := ran
  have accepts :=
    (startAdmits steady asked tell depth input value found).accepts settings.options.faults
  exact ⟨accepts, fun guarded => ok_of_not_rejects accepts ((endsFlat_side guarded input).ends _)⟩

def textIsFilled (value : Value) : Bool :=
  value.string?.any fun text => text ≠ ""

def remarkText : Schema := .satisfying (.made 1) .string textIsFilled

def nextRemark : Schema := .plain (.made 2) (.lazy (.reference ⟨.made 2, 0, "remark"⟩))

def remarkChain : Schema :=
  .plain (.made 3) (.struct
    [⟨.string "text", remarkText, false⟩, ⟨.string "next", nextRemark, true⟩] [])

def remarkNodes : List Schema := [remarkChain, remarkText, nextRemark, .string]

private theorem remarkNodes_children : remarkNodes.flatMap (·.kind.children) ⊆ remarkNodes := by
  change [remarkText, nextRemark, Schema.string] ⊆ _
  simp [remarkNodes]

private theorem remarkNodes_tell : ∀ node ∈ remarkNodes, IdentitiesTell [node] := by
  intro node member
  apply identitiesTell_of_written remarkNodes (by decide) (by decide)
  · exact List.cons_subset.mpr ⟨member, List.nil_subset _⟩
  · exact remarkNodes_children

private theorem remarkChain_throughout {holds : Schema → Prop}
    (each : ∀ node ∈ remarkNodes, holds node) :
    remarkChain.Throughout (fun _ => remarkChain) holds := by
  have entered : ∀ node ∈ remarkNodes, ∀ other,
      node.kind.LeadsTo (fun _ => remarkChain) other → other ∈ remarkNodes := by
    simp only [remarkNodes, List.forall_mem_cons]
    refine ⟨nofun, nofun, fun other leads => ?_, nofun, nofun⟩
    rw [leads]
    exact List.mem_cons_self
  exact .of_targets remarkNodes remarkNodes_children
    (fun node member => ⟨entered node member, each node member⟩) (by simp [remarkNodes])

private theorem remarkNodes_steady : ∀ node ∈ remarkNodes,
    node.kind.StartsSteadily .decode ∧ AsksRegularly targets node := by
  simp only [remarkNodes, List.forall_mem_cons]
  exact ⟨⟨⟨by decide, nofun⟩, nofun⟩, ⟨nofun, nofun⟩, ⟨trivial, nofun⟩, ⟨trivial, nofun⟩, nofun⟩

private theorem remarkNodes_guarded :
    ∀ node ∈ remarkNodes, node.Guarded (fun _ => remarkChain) .input ∧
      node.kind.RequestsEnd fun _ => remarkChain := by
  have chain : remarkChain.Guarded (fun _ => remarkChain) .input := .intro nofun
  have text : Schema.string.Guarded (fun _ => remarkChain) .input := .intro nofun
  simp only [remarkNodes, List.forall_mem_cons]
  refine ⟨⟨chain, trivial⟩, ⟨.intro fun part inPlace => ?_, trivial⟩,
    ⟨.intro fun part inPlace => ?_, trivial⟩, ⟨text, trivial⟩, nofun⟩
  · rw [List.mem_singleton.mp inPlace]
    exact text
  · rw [List.mem_singleton.mp inPlace]
    exact chain

def linkedMark : Schema :=
  .plain (.made 6) (.struct [⟨.string "link", circular, false⟩, ⟨.string "mark", mark, false⟩] [])

def linkedMarkOrText : Schema := .plain (.made 7) (.union [linkedMark, .string])

/-- A union that is a member of its own, because it is annotated. -/
def describedLink : Schema := linkedMarkOrText.withDescription (.made 8) "a link or a text"

def markRead : Schema := .transform (.made 9) marked .unknown .identity .identity

def describedLinkOrMark : Schema := .plain (.made 10) (.union [describedLink, markRead])

def describedLinkNodes : List Schema :=
  [describedLinkOrMark, describedLink, markRead, linkedMark, marked, mark, circular, .string,
    .unknown]

private theorem describedLinkOrMark_throughout {holds : Schema → Prop}
    (each : ∀ node ∈ describedLinkNodes, holds node) :
    describedLinkOrMark.Throughout (fun _ => circular) holds := by
  have leads : ∀ node ∈ describedLinkNodes, ∀ other,
      node.kind.LeadsTo (fun _ => circular) other → other = circular := by
    simp only [describedLinkNodes, List.forall_mem_cons]
    exact ⟨nofun, nofun, nofun, nofun, nofun, nofun, fun _ entered => entered, nofun, nofun, nofun⟩
  refine circular_throughout describedLinkNodes ?_ (by simp [describedLinkNodes])
    (fun node among => ⟨leads node among, each node among⟩) (by simp [describedLinkNodes])
  change [describedLink, markRead, linkedMark, .string, marked, .unknown, circular, mark, mark] ⊆ _
  simp [describedLinkNodes]

/-- What a schema encodes, its output side decodes. Decoding by the output side never fails on it,
and where recursion is guarded it comes to an end. -/
theorem outputSide_takes_encoded (settings : Settings) (schema : Schema) (input value : Value)
    (steady : schema.Throughout targets (·.kind.StartsSteadily .encode))
    (tell : schema.Throughout targets fun node => IdentitiesTell [node])
    (encoded : Yields targets settings.encoding schema input (.ok value)) :
    (∀ failure, ¬Yields targets settings.decoding schema.outputSide input (.error failure)) ∧
    (schema.Throughout targets (Guarded targets .output) →
      ∃ given, Yields targets settings.decoding schema.outputSide input (.ok given)) := by
  have noDeclaration : ∀ node, schema.Reaches targets node → ¬node.kind.IsDeclaration := by
    intro node reached isDeclaration
    have here : node.kind.StartsSteadily .encode := steady node reached
    cases kindAt : node.kind with
    | declaration _ _ _ =>
        rw [kindAt] at here
        cases here.1
    | _ =>
        rw [kindAt] at isDeclaration
        exact isDeclaration
  obtain ⟨accepts, takes⟩ := @startSide_takes targets settings.encoding _ _ _ steady
    (fun node reached _ asks => absurd asks (Kind.asks_nothing (noDeclaration node reached))) tell
    encoded
  exact ⟨fun failure failed => accepts ⟨failure, failed⟩, fun guarded => takes fun node reached =>
    ⟨guarded node reached, Kind.requestsEnd_of_not_declaration (noDeclaration node reached)⟩⟩

def guestKind : Schema := .plain (.made 4) (.literal (.string "guest"))

def guestVisitor : Schema :=
  .plain (.made 5) (.struct
    [⟨.string "kind", guestKind, false⟩, ⟨.string "name", remarkText, false⟩] [])

def memberKind : Schema := .plain (.made 6) (.literal (.string "member"))

def memberName : Schema := .compose (.made 7) .string remarkText

def memberVisitor : Schema :=
  .plain (.made 8) (.struct
    [⟨.string "kind", memberKind, false⟩, ⟨.string "name", memberName, false⟩] [])

def visitor : Schema := .plain (.made 9) (.union [guestVisitor, memberVisitor])

def visitorNodes : List Schema :=
  [visitor, guestVisitor, memberVisitor, guestKind, memberKind, memberName, remarkText, .string]

private theorem visitorNodes_children : visitorNodes.flatMap (·.kind.children) ⊆ visitorNodes := by
  change [guestVisitor, memberVisitor, guestKind, remarkText, memberKind, memberName, .string,
    remarkText, Schema.string] ⊆ _
  simp [visitorNodes]

theorem visitorNodes_tell : ∀ node ∈ visitorNodes, IdentitiesTell [node] := by
  intro node inNodes
  apply identitiesTell_of_written visitorNodes (by decide) (by decide)
  · exact List.cons_subset.mpr ⟨inNodes, List.nil_subset _⟩
  · exact visitorNodes_children

private theorem visitorNodes_closed :
    ∀ node ∈ visitorNodes, ∀ other, ¬node.kind.LeadsTo targets other := by
  simp only [visitorNodes, List.forall_mem_cons]
  exact ⟨nofun, nofun, nofun, nofun, nofun, nofun, nofun, nofun, nofun⟩

theorem visitor_throughout {holds : Schema → Prop} (each : ∀ node ∈ visitorNodes, holds node) :
    visitor.Throughout targets holds :=
  .of_closed visitorNodes visitorNodes_children
    (fun node inNodes => ⟨visitorNodes_closed node inNodes, each node inNodes⟩)
    (by simp [visitorNodes])

theorem visitor_guarded {side : Side} : visitor.Throughout targets (Guarded targets side) :=
  throughout_guarded (visitor_throughout fun node inNodes =>
    not_lazy_of_closed (@visitorNodes_closed targets node inNodes))

private theorem propertyFilter_steadyVerdict (property : Value → Bool) :
    (propertyFilter property).SteadyVerdict :=
  fun _ _ expected other value => propertyFilter_readsValue property _ _ expected other value

private theorem visitorNodes_steady : ∀ node ∈ visitorNodes, node.kind.StartsSteadily .encode := by
  simp only [visitorNodes, List.forall_mem_cons]
  exact ⟨trivial, ⟨by decide, nofun⟩, ⟨by decide, nofun⟩, trivial, trivial, trivial,
    fun _ => propertyFilter_steadyVerdict textIsFilled, trivial, nofun⟩

/-- A member is encoded, and the output side takes it as well. -/
theorem visitor_outputSide_takes :
    (∀ failure, ¬Yields (fun _ => visitor) ⟨.sync, { faults := .all, exact := true }, .decode⟩
      visitor.outputSide
      (.object [(.string "kind", .string "member"), (.string "name", .string "x")])
      (.error failure)) ∧
    ∃ given, Yields (fun _ => visitor) ⟨.sync, { faults := .all, exact := true }, .decode⟩
      visitor.outputSide
      (.object [(.string "kind", .string "member"), (.string "name", .string "x")])
      (.ok given) := by
  have takes := @outputSide_takes_encoded (fun _ => visitor)
    ⟨.sync, { faults := .all, exact := true }, .encode⟩ visitor
    (.object [(.string "kind", .string "member"), (.string "name", .string "x")]) _
    (visitor_throughout visitorNodes_steady) (visitor_throughout visitorNodes_tell) ⟨8, rfl⟩
  exact ⟨takes.1, takes.2 visitor_guarded⟩

def checkedMark : Schema := .satisfying (.made 6) mark fun _ => true

def linkedCheck : Schema :=
  .plain (.made 7) (.struct
    [⟨.string "link", circular, false⟩, ⟨.string "mark", checkedMark, false⟩] [])

def kept : Schema := .plain (.made 8) (.struct [⟨.string "kept", .any, false⟩] [])

def keptOrLinked : Schema := .plain (.made 9) (.union [kept, linkedCheck])

def keptOrLinkedNodes : List Schema :=
  [keptOrLinked, kept, linkedCheck, checkedMark, mark, circular, .any]

private theorem keptOrLinkedNodes_children :
    keptOrLinkedNodes.flatMap (·.kind.children) ⊆ keptOrLinkedNodes := by
  change [kept, linkedCheck, .any, circular, checkedMark, mark] ⊆ _
  simp [keptOrLinkedNodes]

theorem keptOrLinked_throughout {holds : Schema → Prop}
    (each : ∀ node ∈ keptOrLinkedNodes, holds node) :
    keptOrLinked.Throughout (fun _ => circular) holds := by
  have leads : ∀ node ∈ keptOrLinkedNodes, ∀ other,
      node.kind.LeadsTo (fun _ => circular) other → other = circular := by
    simp only [keptOrLinkedNodes, List.forall_mem_cons]
    exact ⟨nofun, nofun, nofun, nofun, nofun, fun _ entered => entered, nofun, nofun⟩
  exact circular_throughout keptOrLinkedNodes keptOrLinkedNodes_children
    (by simp [keptOrLinkedNodes]) (fun node among => ⟨leads node among, each node among⟩)
    (by simp [keptOrLinkedNodes])

theorem keptOrLinked_tell :
    keptOrLinked.Throughout (fun _ => circular) fun node => IdentitiesTell [node] := by
  refine keptOrLinked_throughout fun node among => ?_
  apply identitiesTell_of_written keptOrLinkedNodes (by decide) (by decide)
  · exact List.cons_subset.mpr ⟨among, List.nil_subset _⟩
  · exact keptOrLinkedNodes_children

/-- A checked literal is no tag for encoding, but it is one for decoding by the output side, which
therefore tries the other member first. -/
theorem outputSide_may_not_end :
    (keptOrLinked.Throughout (fun _ => circular) fun node =>
      node.kind.StartsSteadily .encode) ∧
    (keptOrLinked.Throughout (fun _ => circular) fun node => IdentitiesTell [node]) ∧
    Yields (fun _ => circular) ⟨.sync, {}, .encode⟩ keptOrLinked
      (.object [(.string "kept", .boolean true), (.string "mark", .string "t")])
      (.ok (.object [(.string "kept", .boolean true)])) ∧
    ¬Ends (fun _ => circular) ⟨.sync, {}, .decode⟩ keptOrLinked.outputSide
      (.object [(.string "kept", .boolean true), (.string "mark", .string "t")]) := by
  refine ⟨keptOrLinked_throughout ?_, keptOrLinked_tell, ⟨4, rfl⟩, ?_⟩
  · simp only [keptOrLinkedNodes, List.forall_mem_cons]
    exact ⟨trivial, ⟨by decide, nofun⟩, ⟨by decide, nofun⟩,
      fun _ => propertyFilter_steadyVerdict _, trivial, trivial, trivial, nofun⟩
  · refine not_ends_of_member rfl rfl ?_
    exact not_ends_of_absent_field rfl (by decide) rfl rfl rfl side_of_circular_endless

end Run

end SchemaCodec
