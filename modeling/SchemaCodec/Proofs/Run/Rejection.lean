import SchemaCodec.Proofs.Run.Failure
import SchemaCodec.Proofs.Run.Termination
import SchemaCodec.Proofs.Schema.OwnSide

/-!
Decoding that is never rejected. A run may go round in circles and have no outcome at all, so a side
of a schema is asked for less than a success: that no run of it fails, and that it can be told by
its tags in a union. This much passes from the schemas below a node to the node itself, however unions
are rebuilt on the way; a run that comes to an end has then succeeded.
-/

namespace SchemaCodec

/-- Whether the filter passes depends neither on the schema that it is told of nor on the fault
mode. -/
def Filter.SteadyVerdict (filter : Filter) : Prop :=
  ∀ options mode expected other value,
    filter options expected value = none → filter (options.withFaults mode) other value = none

/-- Whether a run of the kind fails depends neither on the annotations of the node nor on the fault
mode. -/
def Kind.Impartial : Kind Schema → Prop
  | .struct fields indexes => (Kind.struct fields indexes).WellFormed
  | .refinement _ filter => filter.SteadyVerdict
  | .transform _ _ _ _ _ => False
  | .declaration _ _ _ => False
  | _ => True

namespace Schema

private theorem isLeaf_of_isNever {schema : Schema} (never : schema.isNever = true) :
    schema.kind.IsLeaf := by
  unfold isNever at never
  split at never
  · rename_i isNever
    rw [isNever]
    exact True.intro
  · cases never

private theorem tags_of_kind {schema other : Schema} (same : schema.kind = other.kind)
    (direction : Direction) : schema.tags direction = other.tags direction := by
  obtain ⟨_, _, kind⟩ := schema
  obtain ⟨_, _, otherKind⟩ := other
  cases same
  cases kind <;> rfl

theorem tags_of_struct {schema : Schema} {fields : List (Field Schema)}
    {indexes : List (IndexSignature Schema)} (isStruct : schema.kind = .struct fields indexes)
    (direction : Direction) :
    schema.tags direction = fields.filterMap (Field.tag? direction) := by
  obtain ⟨_, _, kind⟩ := schema
  cases isStruct
  rfl

end Schema

namespace Run

open Schema

variable {targets : Targets} {settings : Settings} {schema : Schema} {value : Value}

/-- The run comes to an end with a failure. -/
def Rejects (targets : Targets) (settings : Settings) (schema : Schema) (value : Value) : Prop :=
  ∃ failure, Yields targets settings schema value (.error failure)

theorem Yields.not_rejects {result : Value}
    (ran : Yields targets settings schema value (.ok result)) :
    ¬Rejects targets settings schema value := by
  rintro ⟨failure, failed⟩
  cases ran.unique failed

theorem ok_of_not_rejects (accepts : ¬Rejects targets settings schema value)
    (ends : Ends targets settings schema value) :
    ∃ result, Yields targets settings schema value (.ok result) := by
  obtain ⟨outcome, yields⟩ := ends
  cases outcome with
  | ok result => exact ⟨result, yields⟩
  | error failure => exact absurd ⟨failure, yields⟩ accepts

/-- Decoding does not fail, in either fault mode. -/
def Accepts (targets : Targets) (settings : Settings) (schema : Schema) (value : Value) : Prop :=
  ∀ mode, ¬Rejects targets (settings.decoding.withFaults mode) schema value

/-- A schema that a union may be made of does not fail, and a union that has it tries it. -/
def Admits (targets : Targets) (settings : Settings) (schema : Schema) (value : Value) : Prop :=
  ∃ node ∈ schema.flattened, Accepts targets settings node value ∧
    ∀ tag ∈ node.tags .decode, tag.Fits value

theorem Accepts.isNever (accepts : Accepts targets settings schema value) :
    schema.isNever = false := by
  cases never : schema.isNever with
  | false => rfl
  | true =>
      obtain ⟨result, ran⟩ :=
        ok_of_not_rejects (accepts .first) (ends_leaf (isLeaf_of_isNever never) value)
      rw [← never]
      exact isNever_of_ok ran

/-! ### Unions -/

/-- A union does not fail where one of its members is tried and does not. -/
private theorem accepts_union {members : List Schema} (isUnion : schema.kind = .union members)
    {member : Schema} (inMembers : member ∈ members)
    (accepts : Accepts targets settings member value)
    (fits : ∀ tag ∈ member.tags .decode, tag.Fits value) :
    Accepts targets settings schema value := by
  rintro mode ⟨failure, failed⟩
  obtain ⟨inner, memberFailed⟩ :=
    error_of_union_error ((yields_union isUnion).mp failed) inMembers fits
  exact accepts .first ⟨inner, outcome?_eq_some.mp memberFailed⟩

theorem Admits.of_not_plain (notPlain : ¬schema.IsPlainUnion)
    (accepts : Accepts targets settings schema value)
    (fits : ∀ tag ∈ schema.tags .decode, tag.Fits value) :
    Admits targets settings schema value := by
  refine ⟨schema, ?_, accepts, fits⟩
  rw [flattened_of_not_plain notPlain]
  exact List.mem_singleton.mpr rfl

theorem Admits.fits (admits : Admits targets settings schema value) :
    ∀ tag ∈ schema.tags .decode, tag.Fits value := by
  obtain ⟨node, inFlattened, _, fits⟩ := admits
  by_cases plain : schema.IsPlainUnion
  · obtain ⟨_, members, isUnion⟩ := plain
    rw [tags_of_union isUnion]
    exact nofun
  · rw [flattened_of_not_plain plain] at inFlattened
    rw [← List.mem_singleton.mp inFlattened]
    exact fits

theorem Admits.accepts (admits : Admits targets settings schema value) :
    Accepts targets settings schema value := by
  induction schema using childInduction with
  | node schema ih =>
      obtain ⟨node, inFlattened, accepts, fits⟩ := admits
      by_cases plain : schema.IsPlainUnion
      · obtain ⟨bare, members, isUnion⟩ := plain
        rw [flattened_of_union isUnion bare] at inFlattened
        obtain ⟨member, inMembers, inMember⟩ := mem_flattenedAll.mp inFlattened
        have admits : Admits targets settings member value := ⟨node, inMember, accepts, fits⟩
        exact accepts_union isUnion inMembers
          (ih member (member_mem_children isUnion inMembers) admits) admits.fits
      · rw [flattened_of_not_plain plain] at inFlattened
        rw [← List.mem_singleton.mp inFlattened]
        exact accepts

theorem Admits.of_member {members : List Schema} (isUnion : schema.kind = .union members)
    {member : Schema} (inMembers : member ∈ members)
    (admits : Admits targets settings member value) : Admits targets settings schema value := by
  by_cases plain : schema.IsPlainUnion
  · obtain ⟨node, inFlattened, found⟩ := admits
    refine ⟨node, ?_, found⟩
    rw [flattened_of_union isUnion plain.1]
    exact mem_flattenedAll.mpr ⟨member, inMembers, inFlattened⟩
  · refine .of_not_plain plain (accepts_union isUnion inMembers admits.accepts admits.fits) ?_
    intro tag inTags
    obtain ⟨id, annotations, kind⟩ := schema
    cases isUnion
    cases inTags

/-! ### Annotations -/

private theorem error_of_check {accepted : Bool} {other : Schema} {failure : Faults}
    (failed : (pure (check accepted other value) : Option Outcome) = some (.error failure)) :
    ∃ failure, (pure (check accepted schema value) : Option Outcome) = some (.error failure) := by
  cases accepted with
  | true => cases failed
  | false => exact ⟨_, rfl⟩

/-- What fails does so whatever the node is called. -/
theorem Rejects.of_kind {other : Schema} (same : other.kind = schema.kind)
    (impartial : schema.kind.Impartial) (decoding : settings.direction = .decode)
    (rejects : Rejects targets settings other value) : Rejects targets settings schema value := by
  obtain ⟨failure, failed⟩ := rejects
  rw [yields_iff_step] at failed
  unfold step at failed
  rw [same] at failed
  unfold Rejects
  simp only [yields_iff_step]
  unfold step
  cases kindAt : schema.kind with
  | tuple elements rest =>
      rw [kindAt] at failed
      cases value with
      | array items => exact ⟨failure, failed⟩
      | _ => exact ⟨_, rfl⟩
  | struct fields indexes =>
      rw [kindAt] at failed
      simp only at failed ⊢
      split at failed
      · rename_i none
        rw [if_pos none]
        exact error_of_check failed
      · rename_i parts
        rw [if_neg parts]
        cases value with
        | object members => exact ⟨failure, failed⟩
        | _ => exact ⟨_, rfl⟩
  | union members =>
      rw [kindAt] at failed
      exact ⟨failure, failed⟩
  | lazy cell =>
      rw [kindAt] at failed
      exact ⟨failure, failed⟩
  | refinement source filter =>
      have steady : filter.SteadyVerdict := by
        rw [kindAt] at impartial
        exact impartial
      rw [kindAt] at failed
      simp only [decoding] at failed ⊢
      obtain ⟨outcome, ran, after⟩ := Option.bind_eq_some_iff.mp failed
      simp only [ran]
      cases outcome with
      | error faults => exact ⟨faults, rfl⟩
      | ok given =>
          simp only [bind, Option.bind]
          cases verdict : filter settings.options schema.expected given with
          | some fault => exact ⟨_, rfl⟩
          | none =>
              have passes : filter settings.options other.expected given = none :=
                steady settings.options settings.options.faults _ _ given verdict
              simp only [passes] at after
              cases after
  | transform source target decode encode strict =>
      rw [kindAt] at impartial
      exact impartial.elim
  | declaration parameters decode encode =>
      rw [kindAt] at impartial
      exact impartial.elim
  | _ =>
      rw [kindAt] at failed
      exact error_of_check failed

theorem Admits.annotateAll (impartial : schema.kind.Impartial)
    (admits : Admits targets settings schema value) (id : NodeId) (top : Annotations) :
    Admits targets settings (schema.annotateAll id top) value := by
  have same := kind_annotateAll schema id top
  by_cases plain : schema.IsPlainUnion
  · obtain ⟨node, inFlattened, found⟩ := admits
    obtain ⟨bare, members, isUnion⟩ := plain
    rw [flattened_of_union isUnion bare] at inFlattened
    obtain ⟨member, inMembers, inMember⟩ := mem_flattenedAll.mp inFlattened
    exact .of_member (same.trans isUnion) inMembers ⟨node, inMember, found⟩
  · have notPlain : ¬(schema.annotateAll id top).IsPlainUnion :=
      fun ⟨bare, members, isUnion⟩ => plain ⟨isEmpty_of_merge bare, members, isUnion⟩
    refine .of_not_plain notPlain (fun mode rejects => ?_) ?_
    · exact admits.accepts mode (rejects.of_kind same impartial rfl)
    · rw [tags_of_kind same]
      exact admits.fits

/-- The side of a union admits what the side of one of its members does. -/
theorem admits_side_union {side : Side} {members : List Schema} {member : Schema}
    (tell : IdentitiesTell [schema]) (isUnion : schema.kind = .union members)
    (inMembers : member ∈ members)
    (impartial : side = .output → ∀ other ∈ members, (other.sideOf side).All (·.kind.Impartial))
    (admits : Admits targets settings (member.sideOf side) value) :
    Admits targets settings (schema.sideOf side) value := by
  have whole : ∀ id, Admits targets settings
      (Schema.union id (members.map (Schema.sideOf side))) value := by
    intro id
    obtain ⟨node, inFlattened, accepts, fits⟩ := admits
    have possible : node.isNever = false := accepts.isNever
    have derived : ∀ other ∈ members.map (Schema.sideOf side), Derived [schema] other := by
      intro other inSides
      obtain ⟨original, inList, rfl⟩ := List.mem_map.mp inSides
      exact ((Derived.root List.mem_cons_self).child (member_mem_children isUnion inList)).side side
    have inAll := mem_flattenedAll.mpr ⟨_, List.mem_map_of_mem inMembers, inFlattened⟩
    exact ⟨node, mem_flattened_union (tell.mem_unionMembers derived inAll possible), accepts, fits⟩
  rcases @sideOf_union side _ _ isUnion with ⟨same, unchanged⟩ | rebuilt
  · rw [same]
    have memberSame : member.sideOf side = member :=
      List.map_eq_map_iff.mp (unchanged.trans (List.map_id _).symm) member inMembers
    rw [memberSame] at admits
    exact .of_member isUnion inMembers admits
  · rw [rebuilt]
    cases side with
    | input => exact whole _
    | output =>
        refine (whole _).annotateAll ?_ _ _
        have each : ∀ other ∈ members.map (Schema.sideOf .output),
            other.All (·.kind.Impartial) := by
          intro other inSides
          obtain ⟨original, inList, rfl⟩ := List.mem_map.mp inSides
          exact impartial rfl original inList
        have never : (Kind.keyword .never).Impartial := True.intro
        exact kind_union never (fun _ => True.intro)
          (fun node inUnion => (All.unionMembers each node inUnion).here) _

end Run

end SchemaCodec
