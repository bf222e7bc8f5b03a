import SchemaCodec.Proofs.Run.Ending
import SchemaCodec.Proofs.Run.Endless
import SchemaCodec.Proofs.Run.Redecoding

/-!
Encoding what was decoded. Where index signatures do not contradict one another, and filters let pass
what their own results are decoded to again, encoding does not fail on a decoded value, whatever
unions choose.
-/

namespace SchemaCodec.Run

open Schema

variable {targets : Targets} {settings : Settings} {schema : Schema} {value : Value}

/-! ### One level -/

/-- Encoding within the depth does not fail on what the schema or its output side has made, in either
fault mode. -/
private def Withstands (targets : Targets) (settings : Settings) (depth : Nat) (schema : Schema) :
    Prop :=
  ∀ mode value, Made targets settings schema value → ∀ failure,
    parse targets depth (settings.withFaults mode).encoding schema value ≠ some (.error failure)

private theorem withstands_tuple {depth : Nat} {elements : List (Element Schema)}
    {rest : List Schema} (isTuple : schema.kind = .tuple elements rest)
    (children : ∀ child ∈ schema.kind.children, Withstands targets settings depth child) :
    Withstands targets settings (depth + 1) schema := by
  intro mode value made failure found
  obtain ⟨items, rfl, required, bounded, each⟩ := made.exists_items isTuple
  rw [parse_succ, step_array isTuple] at found
  rcases exists_error_of_tuple found with
    few | ⟨closed, many⟩ | ⟨child, item, inZip, faults, failed⟩
  · omega
  · have few := bounded closed
    omega
  · rw [isTuple] at children
    exact children child (mem_slots (List.of_mem_zip inZip).1) mode item (each child item inZip)
      faults failed

private theorem withstands_struct {depth : Nat} {fields : List (Field Schema)}
    {indexes : List (IndexSignature Schema)} (isStruct : schema.kind = .struct fields indexes)
    (rerunnable : schema.Throughout targets (Rerunnable targets settings))
    (children : ∀ child ∈ schema.kind.children, Withstands targets settings depth child) :
    Withstands targets settings (depth + 1) schema := by
  intro mode value made failure found
  rw [parse_succ] at found
  by_cases parts : fields = [] ∧ indexes = []
  · obtain ⟨rfl, rfl⟩ := parts
    rw [(step_struct_empty isStruct).mpr ⟨made.notNullish isStruct, rfl⟩] at found
    cases found
  have wellFormed : schema.kind.WellFormed := by
    have here := rerunnable.here.checks
    rw [isStruct] at here ⊢
    exact here
  obtain ⟨members, rfl, consists⟩ :=
    made.exists_members isStruct wellFormed rerunnable.here.repeatable parts
  rw [step_object isStruct parts] at found
  rcases exists_error_of_struct found with ⟨strict, member, inMembers, undeclared, untaken⟩ |
    ⟨field, inFields, broken⟩ | ⟨index, inIndexes, member, about, faults, failed⟩
  · rcases consists.expected strict member inMembers with named | ⟨index, inIndexes, fits, keyMade⟩
    · rw [isDeclared_eq_true_iff.mpr named] at undeclared
      cases undeclared
    · obtain ⟨faults, keyFailed⟩ := error_of_takesKey untaken inIndexes fits
      have admits := admits_outputSide_of_made
        (rerunnable.child (index_mem_children isStruct inIndexes).1) keyMade
      rw [isStruct] at wellFormed
      rw [sideOf_output_of_isParameter (wellFormed.2 index inIndexes)] at admits
      exact admits.accepts mode ⟨faults, depth, keyFailed⟩
  · rcases consists.declared field inFields with ⟨item, present, itemMade⟩ | ⟨absent, optional⟩
    · rcases broken with ⟨missing, _⟩ | ⟨other, faults, found, failed⟩
      · cases present.symm.trans missing
      · cases present.symm.trans found
        exact children _ (field_mem_children isStruct inFields) mode item itemMade faults failed
    · rcases broken with ⟨_, required, _⟩ | ⟨_, _, present, _⟩
      · cases optional.symm.trans required
      · cases absent.symm.trans present
  · obtain ⟨keyMade, itemMade⟩ := consists.indexed index inIndexes member about
    obtain ⟨parameterBelow, valueBelow⟩ := index_mem_children isStruct inIndexes
    rcases failed with keyFailed | valueFailed
    · exact children _ parameterBelow mode _ keyMade faults keyFailed
    · exact children _ valueBelow mode _ itemMade faults valueFailed

theorem Made.withoutRefinements (made : Made targets settings schema value) :
    Made targets settings schema.withoutRefinements value := by
  induction schema using childInduction with
  | node schema ih =>
      obtain ⟨id, annotations, kind⟩ := schema
      cases kind with
      | refinement source filter => exact ih source (List.mem_singleton.mpr rfl) (made.source rfl)
      | _ => exact made

private theorem withstands_refinement {depth : Nat} {source : Schema} {filter : Filter}
    (isRefinement : schema.kind = .refinement source filter)
    (rerunnable : schema.Throughout targets (Rerunnable targets settings))
    (below : Withstands targets settings depth source.withoutRefinements) :
    Withstands targets settings (depth + 1) schema := by
  intro mode value made failure found
  rw [parse_succ] at found
  unfold step at found
  rw [isRefinement] at found
  obtain ⟨outcome, validated, after⟩ := Option.bind_eq_some_iff.mp found
  cases outcome with
  | error faults =>
      have admits := admits_outputSide_of_made rerunnable made
      exact admits.accepts mode ⟨faults, depth, validated⟩
  | ok again =>
      have checks : schema.Throughout targets (·.kind.OnlyChecks) := fun node reached =>
        (rerunnable node reached).checks
      have within : MadeWithin targets settings depth schema again := ⟨mode, true, value, validated⟩
      exact below mode again ((within.made checks).source isRefinement).withoutRefinements failure
        after

private theorem withstands_level {depth : Nat} (notUnion : ∀ members, schema.kind ≠ .union members)
    (rerunnable : schema.Throughout targets (Rerunnable targets settings))
    (ih : ∀ other, other.Throughout targets (Rerunnable targets settings) →
      Withstands targets settings depth other) :
    Withstands targets settings (depth + 1) schema := by
  have children : ∀ child ∈ schema.kind.children, Withstands targets settings depth child :=
    fun child below => ih child (rerunnable.child below)
  cases kindAt : schema.kind with
  | tuple elements rest => exact withstands_tuple kindAt children
  | struct fields indexes => exact withstands_struct kindAt rerunnable children
  | union members => exact absurd kindAt (notUnion members)
  | lazy cell =>
      intro mode value made failure found
      rw [parse_succ, step_lazy kindAt] at found
      exact ih _ (rerunnable.enter kindAt) mode value (made.enter kindAt) failure found
  | refinement source filter =>
      have sourceRerunnable := rerunnable.child (refined_mem_children kindAt)
      exact withstands_refinement kindAt rerunnable (ih _ sourceRerunnable.withoutRefinements)
  | transform source target decode encode strict =>
      have refuted := rerunnable.here.checks
      rw [kindAt] at refuted
      exact refuted.elim
  | declaration parameters decode encode =>
      have refuted := rerunnable.here.checks
      rw [kindAt] at refuted
      exact refuted.elim
  | _ =>
      intro mode value made failure found
      have leaf := isLeaf_of_kind kindAt trivial
      rw [parse_succ, (step_leaf leaf).mpr ⟨made.admits leaf, rfl⟩] at found
      cases found

/-! ### Whole runs -/

/-- A schema that fails within the depth has tried every node in it whose tags the input has. -/
private theorem error_of_nested_within {depth : Nat} {node : Schema} {mode : FaultMode}
    (nested : schema.Nested node) (fits : ∀ tag ∈ node.tags settings.direction, tag.Fits value)
    {failure : Faults}
    (failed : parse targets depth (settings.withFaults mode) schema value = some (.error failure)) :
    ∃ mode inner, parse targets depth (settings.withFaults mode) node value = some (.error inner) := by
  induction nested generalizing depth mode failure with
  | self => exact ⟨mode, failure, failed⟩
  | @member schema member node members isUnion inMembers nested ih =>
      have memberFits : ∀ tag ∈ member.tags settings.direction, tag.Fits value := by
        cases nested with
        | self => exact fits
        | member memberUnion _ _ =>
            rw [tags_of_union memberUnion]
            exact nofun
      cases depth with
      | zero => cases failed
      | succ depth =>
          rw [parse_succ] at failed
          unfold step at failed
          rw [isUnion] at failed
          obtain ⟨inner, memberFailed⟩ := error_of_union_error failed inMembers memberFits
          obtain ⟨other, nodeInner, nodeFailed⟩ := @ih depth .first fits inner memberFailed
          exact ⟨other, nodeInner, parse_stays targets depth _ _ _ _ nodeFailed⟩

private theorem withstands
    (rerunnable : schema.Throughout targets (Rerunnable targets settings)) (depth : Nat) :
    Withstands targets settings depth schema := by
  induction depth generalizing schema with
  | zero =>
      intro mode value _ failure found
      cases found
  | succ depth ih =>
      intro mode value made failure found
      obtain ⟨within, madeWithin⟩ := made.within
      obtain ⟨choice, chosen, choiceMadeWithin⟩ :=
        madeWithin.exists_choice fun node reached => (rerunnable node reached).checks
      have nested := nested_of_choice chosen
      have choiceRerunnable := rerunnable.nested nested
      have choiceMade := choiceMadeWithin.made fun node reached =>
        (choiceRerunnable node reached).checks
      obtain ⟨other, inner, failed⟩ :=
        @error_of_nested_within targets settings.encoding _ _ _ _ mode nested
          (fits_of_made choiceRerunnable choiceMade) _ found
      exact withstands_level (choice_not_union chosen) choiceRerunnable (fun _ => ih) other value
        choiceMade inner failed

/-- What was decoded is not rejected by encoding, and it is encoded where recursion is guarded. -/
theorem decoded_encodes (settings : Settings) (schema : Schema) (input value : Value)
    (checks : schema.Throughout targets (·.kind.OnlyChecks))
    (tell : schema.Throughout targets fun node => IdentitiesTell [node])
    (repeatable : schema.Throughout targets (Repeatable targets settings))
    (decoded : Yields targets settings.decoding schema input (.ok value)) :
    (∀ failure, ¬Yields targets settings.encoding schema value (.error failure)) ∧
    (schema.Throughout targets (fun node => ∀ side, node.Guarded targets side) →
      ∃ encoded, Yields targets settings.encoding schema value (.ok encoded)) := by
  have rerunnable : schema.Throughout targets (Rerunnable targets settings) := fun node reached =>
    ⟨checks node reached, tell node reached, repeatable node reached⟩
  have accepts : ¬Rejects targets settings.encoding schema value := by
    rintro ⟨failure, depth, found⟩
    exact withstands rerunnable depth settings.options.faults value ⟨false, input, decoded⟩ failure
      found
  refine ⟨fun failure failed => accepts ⟨failure, failed⟩, fun guarded => ?_⟩
  refine ok_of_not_rejects accepts (ends_of_guarded (fun node reached => ?_) _ _)
  exact ⟨guarded node reached, (checks node reached).contained⟩

/-! ### Where the conditions fail -/

def withA : Schema := .plain (.made 1) (.struct [⟨.string "a", .string, false⟩] [])

def withB : Schema := .plain (.made 2) (.struct [⟨.string "b", .string, false⟩] [])

/-- The second index signature overwrites what the first one makes, which then rejects it. -/
def overwritten : Schema :=
  .plain (.made 3) (.struct [] [⟨.string, withA⟩, ⟨.string, withB⟩])

def perhapsMarked : Schema := .plain (.made 4) (.struct [⟨.string "mark", .boolean, true⟩] [])

def hasA : Value → Bool
  | .object members => Table.has (.string "a") members
  | _ => false

def markedOrA : Schema := .plain (.made 5) (.union [perhapsMarked, withA])

/-- The first member takes what the second one makes, and drops the one field of it. -/
def secondDecodes : Schema := .satisfying (.made 6) markedOrA hasA

def perhapsLinked : Schema :=
  .plain (.made 8) (.struct
    [⟨.string "mark", .boolean, true⟩, ⟨.string "next", circular, true⟩] [])

def follower : Schema := .plain (.made 9) (.struct [⟨.string "next", .string, false⟩] [])

/-- The first member goes round in circles on what the second one makes. -/
def followerAtLast : Schema := .plain (.made 10) (.union [perhapsLinked, follower])

private theorem onlyChecks_of_field (id : NodeId) (field : Field Schema) :
    (Schema.plain id (.struct [field] [])).kind.OnlyChecks :=
  ⟨List.nodup_cons.mpr ⟨nofun, .nil⟩, nofun⟩

private theorem overwritten_onlyChecks :
    overwritten.Throughout targets fun node => node.kind.OnlyChecks := by
  refine .of_closed [overwritten, withA, withB, .string] ?_ ?_ (by simp)
  · change [Schema.string, withA, .string, withB, .string, .string] ⊆ _
    simp
  · have wellFormed : overwritten.kind.WellFormed := by
      refine ⟨.nil, ?_⟩
      intro index member
      rcases List.mem_cons.mp member with rfl | later
      · rfl
      · cases List.mem_singleton.mp later
        rfl
    simp only [List.forall_mem_cons]
    exact ⟨⟨nofun, wellFormed⟩, ⟨nofun, onlyChecks_of_field _ _⟩, ⟨nofun, onlyChecks_of_field _ _⟩,
      ⟨nofun, trivial⟩, nofun⟩

private theorem secondDecodes_onlyChecks :
    secondDecodes.Throughout targets fun node => node.kind.OnlyChecks := by
  refine .of_closed [secondDecodes, markedOrA, perhapsMarked, withA, .string, .boolean] ?_ ?_
    (by simp)
  · change [markedOrA, perhapsMarked, withA, .boolean, .string] ⊆ _
    simp
  · simp only [List.forall_mem_cons]
    exact ⟨⟨nofun, propertyFilter_readsValue hasA⟩, ⟨nofun, trivial⟩,
      ⟨nofun, onlyChecks_of_field _ _⟩, ⟨nofun, onlyChecks_of_field _ _⟩, ⟨nofun, trivial⟩,
      ⟨nofun, trivial⟩, nofun⟩

private theorem followerAtLast_onlyChecks :
    followerAtLast.Throughout (fun _ => circular) fun node => node.kind.OnlyChecks := by
  refine circular_throughout
    [followerAtLast, perhapsLinked, follower, circular, .boolean, .string] ?_ (by simp) ?_ (by simp)
  · change [perhapsLinked, follower, .boolean, circular, .string] ⊆ _
    simp
  · simp only [List.forall_mem_cons]
    exact ⟨⟨nofun, trivial⟩, ⟨nofun, by decide, nofun⟩, ⟨nofun, onlyChecks_of_field _ _⟩,
      ⟨fun _ entered => entered, trivial⟩, ⟨nofun, trivial⟩, ⟨nofun, trivial⟩, nofun⟩

/-- Three schemas that only check, and a value that each of them decodes. The result of the first
is not encoded, because an index signature has overwritten what another one asks for; the result of
the second is not, because a refinement does not pass the result again; and the encoding of the
third one has no end. -/
theorem decoded_need_not_encode :
    (overwritten.Throughout (fun _ => circular) (fun node => node.kind.OnlyChecks) ∧
      Yields (fun _ => circular) ⟨.sync, {}, .decode⟩ overwritten
        (.object [(.string "key",
          .object [(.string "a", .string "x"), (.string "b", .string "y")])])
        (.ok (.object [(.string "key", .object [(.string "b", .string "y")])])) ∧
      ∃ failure, Yields (fun _ => circular) ⟨.sync, {}, .encode⟩ overwritten
        (.object [(.string "key", .object [(.string "b", .string "y")])]) (.error failure)) ∧
    (secondDecodes.Throughout (fun _ => circular) (fun node => node.kind.OnlyChecks) ∧
      Yields (fun _ => circular) ⟨.sync, {}, .decode⟩ secondDecodes
        (.object [(.string "a", .string "x"), (.string "mark", .string "y")])
        (.ok (.object [(.string "a", .string "x")])) ∧
      ∃ failure, Yields (fun _ => circular) ⟨.sync, {}, .encode⟩ secondDecodes
        (.object [(.string "a", .string "x")]) (.error failure)) ∧
    followerAtLast.Throughout (fun _ => circular) (fun node => node.kind.OnlyChecks) ∧
      Yields (fun _ => circular) ⟨.sync, {}, .decode⟩ followerAtLast
        (.object [(.string "mark", .string "x"), (.string "next", .string "y")])
        (.ok (.object [(.string "next", .string "y")])) ∧
      ¬Ends (fun _ => circular) ⟨.sync, {}, .encode⟩ followerAtLast
        (.object [(.string "next", .string "y")]) := by
  refine ⟨⟨overwritten_onlyChecks, ⟨3, rfl⟩, _, 3, rfl⟩,
    ⟨secondDecodes_onlyChecks, ⟨4, rfl⟩, _, 4, rfl⟩, followerAtLast_onlyChecks, ⟨4, rfl⟩, ?_⟩
  refine not_ends_of_member rfl rfl ?_
  refine not_ends_of_field [⟨.string "mark", .boolean, true⟩] rfl nofun ?_ (.inl rfl) circular_endless
  intro earlier isFirst
  cases List.mem_singleton.mp isFirst
  exact ⟨rfl, rfl⟩

/-! ### An example -/

def remark : Schema :=
  .satisfying (.made 11) .string fun value => value.string?.any fun text => text ≠ ""

def answer : Schema := .plain (.made 12) (.union [.string, .boolean])

def reply : Schema :=
  .plain (.made 13) (.struct
    [⟨.string "remark", remark, false⟩, ⟨.string "answer", answer, false⟩]
    [⟨.string, .boolean⟩, ⟨.string, .unknown⟩])

def replyNodes : List Schema := [reply, remark, answer, .string, .boolean, .unknown]

private theorem replyNodes_children : replyNodes.flatMap (·.kind.children) ⊆ replyNodes := by
  change [remark, answer, .string, .boolean, .string, .unknown, .string, .string, .boolean] ⊆ _
  simp [replyNodes]

private theorem replyNodes_closed :
    ∀ node ∈ replyNodes, ∀ other, ¬node.kind.LeadsTo targets other := by
  simp only [replyNodes, List.forall_mem_cons]
  exact ⟨nofun, nofun, nofun, nofun, nofun, nofun, nofun⟩

private theorem reply_throughout {holds : Schema → Prop} (each : ∀ node ∈ replyNodes, holds node) :
    reply.Throughout targets holds :=
  .of_closed replyNodes replyNodes_children
    (fun node inNodes => ⟨replyNodes_closed node inNodes, each node inNodes⟩) (by simp [replyNodes])

private theorem replyNodes_onlyCheck : ∀ node ∈ replyNodes, node.kind.OnlyChecks := by
  have wellFormed : reply.kind.WellFormed := by
    refine ⟨by decide, fun index member => ?_⟩
    rcases List.mem_cons.mp member with rfl | later
    · rfl
    · cases List.mem_singleton.mp later
      rfl
  simp only [replyNodes, List.forall_mem_cons]
  exact ⟨wellFormed, propertyFilter_readsValue _, trivial, trivial, trivial, trivial, nofun⟩

private theorem replyNodes_tell : ∀ node ∈ replyNodes, IdentitiesTell [node] := by
  intro node inNodes
  apply identitiesTell_of_written replyNodes (by decide) (by decide)
  · exact List.cons_subset.mpr ⟨inNodes, List.nil_subset _⟩
  · exact replyNodes_children

/-- A leaf leaves what it takes as it is, and so a refinement of it passes its results again. -/
private theorem repeatable_of_leaf {source : Schema} {filter : Filter}
    (isRefinement : schema.kind = .refinement source filter) (leaf : source.kind.IsLeaf)
    (reads : filter.ReadsValue) : Repeatable targets settings schema := by
  unfold Repeatable
  rw [isRefinement]
  rintro value again ⟨onSide, input, ran⟩ ranAgain
  have viewed := kind_viewed_refinement isRefinement onSide
  have passes := ((step_refinement_decode viewed rfl).mp (yields_iff_step.mp ran)).2
  have same : source.outputSide = source := sideOf_leaf leaf
  rw [same] at ranAgain
  obtain ⟨_, rfl⟩ := (step_leaf leaf).mp (yields_iff_step.mp ranAgain)
  exact reads _ _ _ _ _ passes

private theorem replyNodes_repeatable : ∀ node ∈ replyNodes, Repeatable targets settings node := by
  have marks : Repeatable targets settings reply := by
    refine List.pairwise_cons.mpr ⟨?_, List.pairwise_singleton _ _⟩
    intro later isLater _ onSide input value other earlierRan laterRan
    cases List.mem_singleton.mp isLater
    have leaf : Schema.boolean.kind.IsLeaf := trivial
    have laterLeaf : Schema.unknown.kind.IsLeaf := trivial
    have viewed : Schema.unknown.viewed onSide = Schema.unknown := by cases onSide <;> rfl
    have earlierViewed : Schema.boolean.viewed onSide = Schema.boolean := by cases onSide <;> rfl
    change Yields _ _ (Schema.boolean.viewed onSide) _ _ at earlierRan
    change Yields _ _ (Schema.unknown.viewed onSide) _ _ at laterRan
    rw [viewed] at laterRan
    rw [earlierViewed] at earlierRan
    obtain ⟨_, rfl⟩ := (step_leaf laterLeaf).mp (yields_iff_step.mp laterRan)
    obtain ⟨_, rfl⟩ := (step_leaf leaf).mp (yields_iff_step.mp earlierRan)
    exact ⟨false, _, earlierRan⟩
  simp only [replyNodes, List.forall_mem_cons]
  exact ⟨marks, repeatable_of_leaf rfl trivial (propertyFilter_readsValue _), trivial, trivial,
    trivial, trivial, nofun⟩

/-- A reply with an answer and a mark is encoded even where no key may be unexpected. -/
theorem reply_encodes :
    (∀ failure, ¬Yields (fun _ => circular) ⟨.sync, { excess := .error }, .encode⟩ reply
      (.object [(.string "remark", .string "why"), (.string "answer", .boolean true),
        (.string "mark", .boolean false)]) (.error failure)) ∧
    ∃ encoded, Yields (fun _ => circular) ⟨.sync, { excess := .error }, .encode⟩ reply
      (.object [(.string "remark", .string "why"), (.string "answer", .boolean true),
        (.string "mark", .boolean false)]) (.ok encoded) := by
  have encodes := @decoded_encodes (fun _ => circular) ⟨.sync, { excess := .error }, .decode⟩ reply
    (.object [(.string "mark", .boolean false), (.string "answer", .boolean true),
      (.string "remark", .string "why")]) _
    (reply_throughout replyNodes_onlyCheck) (reply_throughout replyNodes_tell)
    (reply_throughout replyNodes_repeatable) ⟨4, rfl⟩
  refine ⟨encodes.1, encodes.2 fun node reached side => ?_⟩
  refine throughout_guarded (reply_throughout fun other inNodes => ?_) node reached
  exact not_lazy_of_closed (@replyNodes_closed (fun _ => circular) other inNodes)

end SchemaCodec.Run
