import SchemaCodec.Proofs.Run.Ending
import SchemaCodec.Proofs.Run.StartSide
import SchemaCodec.Proofs.Schema.Construction

/-!
Records whose keys are described by parameters. Each parameter becomes an index signature, and these
are read in two ways: the check for unexpected members asks for one that decodes the key, but each runs
every key of its kind. So a record asks of a key that some parameter decodes it, and that all those of
its kind do.
-/

namespace SchemaCodec

/-! ### Building -/

private theorem recordPart_of_parameter {key value : Schema} (tells : key.isParameter = true) :
    Schema.recordPart value key = .ok (.inr (key, value)) := by
  obtain ⟨id, annotations, kind⟩ := key
  cases kind with
  | keyword word => simp [Schema.recordPart, Schema.kind, tells]
  | template template => rfl
  | refinement source filter => simp [Schema.recordPart, Schema.kind, tells]
  | _ => cases tells

def recordIndexes (key value : Schema) : List (IndexSignature Schema) :=
  (Template.alternatives key).map fun parameter => ⟨parameter, value⟩

private theorem record_of_parameters {id : NodeId} {key value : Schema}
    (tell : ∀ parameter ∈ Template.alternatives key, parameter.isParameter = true) :
    Schema.record id key value = .ok (.plain id (.struct [] (recordIndexes key value))) := by
  have parts : (Template.alternatives key).mapM (Schema.recordPart value) =
      .ok ((Template.alternatives key).map fun parameter => .inr (parameter, value)) :=
    mapM_eq_ok fun parameter inKey => recordPart_of_parameter (tell parameter inKey)
  have signatures : ((Template.alternatives key).map fun parameter => (parameter, value)).mapM
      (fun part => Schema.indexSignature part.1 part.2) = .ok (recordIndexes key value) := by
    have each : ∀ part ∈ (Template.alternatives key).map fun parameter => (parameter, value),
        Schema.indexSignature part.1 part.2 = .ok ⟨part.1, part.2⟩ := by
      intro part inParts
      obtain ⟨parameter, inKey, rfl⟩ := List.mem_map.mp inParts
      rw [Schema.indexSignature, if_pos (tell parameter inKey)]
    rw [mapM_eq_ok each, List.map_map]
    rfl
  unfold Schema.record Schema.struct
  rw [parts]
  simp only [bind, Except.bind, List.filterMap_map, Function.comp_def, List.filterMap_none,
    List.filterMap_eq_map', signatures]
  rfl

namespace Run

open Schema

variable {targets : Targets} {settings : Settings}

def Succeeds (targets : Targets) (settings : Settings) (schema : Schema) (value : Value) : Prop :=
  ∃ result, Yields targets settings schema value (.ok result)

private theorem succeeds_iff {schema : Schema} {value : Value} :
    Succeeds targets settings schema value ↔
      ∃ result, outcome? targets settings schema value = some (.ok result) :=
  exists_congr fun _ => outcome?_eq_some.symm

/-! ### Keys -/

/-- A parameter decodes keys of its kind only. -/
private theorem keyFits_of_decoded {parameter : Schema} (tells : parameter.isParameter = true)
    {key : PropertyKey} (decodes : Succeeds targets settings.decoding parameter key.toValue) :
    keyFits key parameter = true := by
  revert decodes tells
  induction parameter using childInduction with
  | node parameter ih =>
      rintro tells ⟨value, ran⟩
      rw [yields_iff_step] at ran
      obtain ⟨id, annotations, kind⟩ := parameter
      cases kind with
      | keyword word =>
          have leaf : (Schema.node id annotations (.keyword word)).kind.IsLeaf := trivial
          have taken := ((step_leaf leaf).mp ran).1
          cases word with
          | string =>
              cases key with
              | string text => rfl
              | symbol symbol => cases taken
          | symbol =>
              cases key with
              | string text => cases taken
              | symbol symbol => rfl
          | _ => cases tells
      | template template =>
          have leaf : (Schema.node id annotations (.template template)).kind.IsLeaf := trivial
          have taken := ((step_leaf leaf).mp ran).1
          cases key with
          | string text => rfl
          | symbol symbol => cases taken
      | refinement source filter =>
          obtain ⟨sourceRan, _⟩ := (step_refinement_decode rfl rfl).mp ran
          exact ih source (List.mem_singleton.mpr rfl) tells
            ⟨value, outcome?_eq_some.mp sourceRan⟩
      | _ => cases tells

/-- A parameter whose filters do not look at the fault mode decodes the same in all modes. -/
theorem Succeeds.withFaults {parameter : Schema} (tells : parameter.isParameter = true)
    (ignores : parameter.All (·.kind.IgnoresFaultMode)) {value : Value} (mode : FaultMode)
    (decodes : Succeeds targets settings.decoding parameter value) :
    Succeeds targets (settings.decoding.withFaults mode) parameter value := by
  obtain ⟨result, ran⟩ := decodes
  refine ⟨result, ?_⟩
  revert ran ignores
  refine parameter_induction tells (fun schema leaf ignores ran => ?_)
    (fun schema source filter isRefinement ih ignores ran => ?_)
  · rw [yields_iff_step] at ran ⊢
    exact (step_leaf leaf).mpr ((step_leaf leaf).mp ran)
  · rw [yields_iff_step] at ran ⊢
    obtain ⟨sourceRan, passes⟩ := (step_refinement_decode isRefinement rfl).mp ran
    have here : (Kind.refinement source filter).IgnoresFaultMode := isRefinement ▸ ignores.here
    refine (step_refinement_decode isRefinement rfl).mpr ⟨outcome?_eq_some.mpr ?_, ?_⟩
    · exact ih (ignores.child (refined_mem_children isRefinement)) (outcome?_eq_some.mp sourceRan)
    · exact (here _ mode _ _).trans passes

/-- A union that is not searched by tags succeeds if one of its members does. -/
theorem succeeds_untagged_union_iff {schema : Schema} {members : List Schema}
    (isUnion : schema.kind = .union members) {value : Value}
    (each : ∀ member ∈ members, Ends targets settings.failingFast member value)
    (untagged : ∀ member ∈ members, member.tags settings.direction = []) :
    Succeeds targets settings schema value ↔
      ∃ member ∈ members, Succeeds targets settings.failingFast member value := by
  constructor
  · rintro ⟨result, ran⟩
    obtain ⟨member, inUnion, found⟩ := exists_of_union_ok ((yields_union isUnion).mp ran)
    exact ⟨member, inUnion, result, outcome?_eq_some.mp found⟩
  · rintro ⟨member, inUnion, result, ran⟩
    obtain ⟨outcome, yields⟩ : Ends targets settings schema value := ends_union isUnion each
    cases outcome with
    | ok result => exact ⟨result, yields⟩
    | error failure =>
        obtain ⟨inner, failed⟩ := error_of_union_error ((yields_union isUnion).mp yields) inUnion
          (by rw [untagged member inUnion]; exact nofun)
        cases ran.unique (outcome?_eq_some.mp failed)

/-- A union of parameters is not searched by tags, so it decodes what one of them does. -/
private theorem succeeds_union_iff {schema : Schema} {parameters : List Schema}
    (isUnion : schema.kind = .union parameters)
    (tell : ∀ parameter ∈ parameters, parameter.isParameter = true) {value : Value} :
    Succeeds targets settings schema value ↔
      ∃ parameter ∈ parameters, Succeeds targets settings.failingFast parameter value :=
  succeeds_untagged_union_iff isUnion (fun other inOthers => ends_key (tell other inOthers) value)
    fun other inOthers => tags_of_parameter (tell other inOthers) _

/-! ### Structs without fields -/

/-- Where nothing unexpected may be there, some index signature must decode each key; and each must
accept all members that it is about. -/
private theorem succeeds_indexes_iff {schema : Schema} {indexes : List (IndexSignature Schema)}
    (isStruct : schema.kind = .struct [] indexes) (some : indexes ≠ [])
    (tell : ∀ index ∈ indexes, index.parameter.isParameter = true) {members : Members} :
    Succeeds targets settings schema (.object members) ↔
      (settings.options.excess = .error → ∀ member ∈ members, ∃ index ∈ indexes,
        Succeeds targets settings.decoding index.parameter member.1.toValue) ∧
      ∀ member ∈ members, ∀ index ∈ indexes, keyFits member.1 index.parameter = true →
        Succeeds targets settings index.parameter member.1.toValue ∧
          Succeeds targets settings index.schema member.2 := by
  have parts : ¬(([] : List (Field Schema)) = [] ∧ indexes = []) := fun none => some none.2
  have undeclared : ∀ key : PropertyKey, key ∉ ([] : List (Field Schema)).map Field.name := nofun
  have expects : ∀ key : PropertyKey, Expects (outcome? targets settings.decoding) [] indexes key ↔
      ∃ index ∈ indexes, Succeeds targets settings.decoding index.parameter key.toValue := by
    intro key
    constructor
    · rintro (declared | taken)
      · cases declared
      · obtain ⟨index, inIndexes, _, ran⟩ := exists_index_of_takesKey taken
        exact ⟨index, inIndexes, succeeds_iff.mpr ran⟩
    · rintro ⟨index, inIndexes, decodes⟩
      obtain ⟨result, ran⟩ := succeeds_iff.mp decodes
      have keysEnd : ∀ other ∈ indexes, Ends targets settings.decoding other.parameter key.toValue :=
        fun other inOthers => ends_key (tell other inOthers) _
      obtain ⟨taken, decided⟩ := takesKey_finishes fun other inOthers =>
        finishes_iff_ends.mpr (keysEnd other inOthers)
      exact Or.inr (takesKey_of_index decided inIndexes
        (keyFits_of_decoded (tell index inIndexes) decodes) ran)
  have yielded : Succeeds targets settings schema (.object members) ↔
      (settings.options.excess = .error → ∀ member ∈ members,
        Expects (outcome? targets settings.decoding) [] indexes member.1) ∧
      ∃ entries, IndexesYield (outcome? targets settings) [] members indexes entries := by
    unfold Succeeds
    simp only [yields_iff_step, step_object isStruct parts, struct_eq_ok_iff]
    constructor
    · rintro ⟨result, expected, declared, indexed, _, indexesYield, _⟩
      exact ⟨expected, indexed, indexesYield⟩
    · rintro ⟨expected, indexed, indexesYield⟩
      exact ⟨_, expected, [], indexed, .nil, indexesYield, rfl⟩
  rw [yielded, exists_indexesYield_iff]
  simp only [expects, succeeds_iff, mem_indexMembers]
  refine and_congr_right fun _ => ⟨fun each member inMembers index inIndexes fits => ?_,
    fun each index inIndexes member about => ?_⟩
  · exact each index inIndexes member ⟨inMembers, fits, undeclared _⟩
  · exact each member about.1 index inIndexes about.2.1

/-! ### Records -/

/-- A key schema decodes what one of its alternatives does. A union stops its members at the first
fault, so their filters must not look at the fault mode. -/
private theorem succeeds_key_iff {key : Schema}
    (tell : ∀ parameter ∈ Template.alternatives key, parameter.isParameter = true)
    (decoding : settings.direction = .decode)
    (unseen : settings.options.faults = .first ∨ key.isParameter = true ∨
      ∀ parameter ∈ Template.alternatives key, parameter.All (·.kind.IgnoresFaultMode))
    {value : Value} :
    Succeeds targets settings key value ↔
      ∃ parameter ∈ Template.alternatives key, Succeeds targets settings parameter value := by
  by_cases isUnion : ∃ members, key.kind = .union members
  · obtain ⟨members, isUnion⟩ := isUnion
    have alternatives : Template.alternatives key = members := by
      rw [Template.alternatives, isUnion]
    rw [alternatives] at tell unseen ⊢
    rw [succeeds_union_iff isUnion tell]
    refine exists_congr fun parameter => and_congr_right fun inUnion => ?_
    obtain ⟨execution, ⟨faults, excess, exact⟩, direction⟩ := settings
    cases decoding
    rcases unseen with first | isParameter | ignores
    · cases first
      rfl
    · obtain ⟨id, annotations, kind⟩ := key
      cases isUnion
      cases isParameter
    · have tells := tell parameter inUnion
      have ignoresHere := ignores parameter inUnion
      constructor
      · exact @Succeeds.withFaults targets ⟨execution, ⟨.first, excess, exact⟩, .decode⟩ parameter
          tells ignoresHere value faults
      · exact @Succeeds.withFaults targets ⟨execution, ⟨faults, excess, exact⟩, .decode⟩ parameter
          tells ignoresHere value .first
  · have alternatives : Template.alternatives key = [key] := by
      rw [Template.alternatives]
      split
      · exact absurd ⟨_, ‹_›⟩ isUnion
      · rfl
    rw [alternatives]
    simp only [List.mem_singleton, exists_eq_left]

/-- A record whose keys are described by parameters, where nothing unexpected may be there: each key
must be decoded by some parameter, and by all parameters of its kind. So where no two parameters are
of one kind the record takes the objects whose keys the key schema decodes and whose values the value
schema does, as long as no filter in a union of parameters looks at the fault mode. -/
theorem record_succeeds_iff {id : NodeId} {key value schema : Schema}
    (built : Schema.record id key value = .ok schema) (some : Template.alternatives key ≠ [])
    (tell : ∀ parameter ∈ Template.alternatives key, parameter.isParameter = true)
    (decoding : settings.direction = .decode) (strict : settings.options.excess = .error)
    (members : Members) :
    (Succeeds targets settings schema (.object members) ↔ ∀ member ∈ members,
      (∃ parameter ∈ Template.alternatives key,
        Succeeds targets settings parameter member.1.toValue) ∧
      (∀ parameter ∈ Template.alternatives key, keyFits member.1 parameter = true →
        Succeeds targets settings parameter member.1.toValue) ∧
      Succeeds targets settings value member.2) ∧
    (((Template.alternatives key).map Schema.tellsSymbols).Nodup →
      (settings.options.faults = .first ∨ key.isParameter = true ∨
        ∀ parameter ∈ Template.alternatives key, parameter.All (·.kind.IgnoresFaultMode)) →
      (Succeeds targets settings schema (.object members) ↔ ∀ member ∈ members,
        Succeeds targets settings key member.1.toValue ∧
          Succeeds targets settings value member.2)) := by
  have same : settings.decoding = settings := by
    obtain ⟨execution, options, direction⟩ := settings
    cases decoding
    rfl
  have law : Succeeds targets settings schema (.object members) ↔ ∀ member ∈ members,
      (∃ parameter ∈ Template.alternatives key,
        Succeeds targets settings parameter member.1.toValue) ∧
      (∀ parameter ∈ Template.alternatives key, keyFits member.1 parameter = true →
        Succeeds targets settings parameter member.1.toValue) ∧
      Succeeds targets settings value member.2 := by
    rw [record_of_parameters tell] at built
    cases built
    have indexed : ∀ parameter ∈ Template.alternatives key,
        ⟨parameter, value⟩ ∈ recordIndexes key value := fun parameter inKey =>
      List.mem_map_of_mem inKey
    have tellIndexes : ∀ index ∈ recordIndexes key value, index.parameter.isParameter = true :=
      List.forall_mem_map.mpr tell
    have someIndexes : recordIndexes key value ≠ [] := fun none => some (List.map_eq_nil_iff.mp none)
    have isStruct : (plain id (.struct [] (recordIndexes key value))).kind =
      .struct [] (recordIndexes key value) := rfl
    rw [succeeds_indexes_iff isStruct someIndexes tellIndexes, same]
    constructor
    · rintro ⟨covered, each⟩ member inMembers
      obtain ⟨index, inIndexes, decodes⟩ := covered strict member inMembers
      obtain ⟨parameter, inKey, rfl⟩ := List.mem_map.mp inIndexes
      have fits := keyFits_of_decoded (tell parameter inKey) (same ▸ decodes)
      refine ⟨⟨parameter, inKey, decodes⟩, fun other inOthers otherFits => ?_, ?_⟩
      · exact (each member inMembers _ (indexed other inOthers) otherFits).1
      · exact (each member inMembers _ inIndexes fits).2
    · intro each
      refine ⟨fun _ member inMembers => ?_, fun member inMembers index inIndexes fits => ?_⟩
      · obtain ⟨⟨parameter, inKey, decodes⟩, _⟩ := each member inMembers
        exact ⟨_, indexed parameter inKey, decodes⟩
      · obtain ⟨parameter, inKey, rfl⟩ := List.mem_map.mp inIndexes
        obtain ⟨_, all, accepted⟩ := each member inMembers
        exact ⟨all parameter inKey fits, accepted⟩
  refine ⟨law, fun kinds unseen => law.trans (forall₂_congr fun member _ => ?_)⟩
  rw [succeeds_key_iff tell decoding unseen]
  refine ⟨fun ⟨some, _, accepted⟩ => ⟨some, accepted⟩, fun ⟨decoded, accepted⟩ =>
    ⟨decoded, fun other inKey fits => ?_, accepted⟩⟩
  obtain ⟨parameter, parameterIn, decodes⟩ := decoded
  have decodesToo := keyFits_of_decoded (tell parameter parameterIn) (same.symm ▸ decodes)
  have alike := (keyFits_eq_true_iff.mp fits).symm.trans (keyFits_eq_true_iff.mp decodesToo)
  rw [List.inj_on_of_nodup_map kinds inKey parameterIn alike]
  exact decodes

def aNames : Schema := .plain (.made 1) (.template ⟨"a", [⟨.string, ""⟩]⟩)

def bNames : Schema := .plain (.made 2) (.template ⟨"b", [⟨.string, ""⟩]⟩)

def aNamesOrSymbols : Schema := .plain (.made 3) (.union [aNames, .symbol])

def tally : Members := [(.string "a1", .number 1), (.symbol ⟨1, some "total", true⟩, .number 2)]

/-- A text and a symbol, each decoded by the one parameter of its kind. -/
theorem tally_accepted : ∃ schema, Schema.record (.made 4) aNamesOrSymbols .number = .ok schema ∧
    Succeeds (fun _ => .never) ⟨.sync, { excess := .error }, .decode⟩ schema (.object tally) := by
  have built : Schema.record (.made 4) aNamesOrSymbols .number =
      .ok (.plain (.made 4) (.struct [] [⟨aNames, .number⟩, ⟨.symbol, .number⟩])) := rfl
  refine ⟨_, built, ?_⟩
  obtain ⟨_, law⟩ := @record_succeeds_iff (fun _ => .never) ⟨.sync, { excess := .error }, .decode⟩
    (.made 4) aNamesOrSymbols .number _ built nofun (by simp [Template.alternatives]; decide) rfl rfl
    tally
  refine (law (by decide) (Or.inl rfl)).mpr fun member inTally => ?_
  rcases List.mem_cons.mp inTally with rfl | later
  · exact ⟨⟨_, 2, rfl⟩, _, 1, rfl⟩
  · rw [List.mem_singleton.mp later]
    exact ⟨⟨_, 2, rfl⟩, _, 1, rfl⟩

def aOrBNames : Schema := .plain (.made 3) (.union [aNames, bNames])

/-- The key schema decodes the key and the value schema the value, but the record rejects the object:
the second parameter runs the key as well. -/
theorem decoded_key_rejected :
    ∃ schema, Schema.record (.made 4) aOrBNames .number = .ok schema ∧
      Succeeds (fun _ => .never) ⟨.sync, { excess := .error }, .decode⟩ aOrBNames (.string "a1") ∧
      Succeeds (fun _ => .never) ⟨.sync, { excess := .error }, .decode⟩ .number (.number 1) ∧
      ¬Succeeds (fun _ => .never) ⟨.sync, { excess := .error }, .decode⟩ schema
        (.object [(.string "a1", .number 1)]) := by
  refine ⟨_, rfl, ⟨_, 2, rfl⟩, ⟨_, 1, rfl⟩, ?_⟩
  rintro ⟨result, ran⟩
  have failed : Yields (fun _ => .never) ⟨.sync, { excess := .error }, .decode⟩
      (.plain (.made 4) (.struct [] [⟨aNames, .number⟩, ⟨bNames, .number⟩]))
      (.object [(.string "a1", .number 1)])
      (.error (.single (.key (.string "a1") (.single (.mismatch bNames.expected (.string "a1")))))) :=
    ⟨2, rfl⟩
  cases ran.unique failed

end Run

end SchemaCodec
