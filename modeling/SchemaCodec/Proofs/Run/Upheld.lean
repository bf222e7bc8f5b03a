import SchemaCodec.Proofs.Run.Failure
import SchemaCodec.Proofs.Run.UnionSearch

/-!
A success against a failure. Two runs of one schema are compared, on values that are related and
under options of which the second may be looser. At a node that only looks at the shape of a value,
the second run does not fail where the first has succeeded, if this is so for the runs below.
-/

namespace SchemaCodec

/-! ### Values of one shape -/

structure MembersRelate (relates : Value → Value → Prop) (members others : Members) : Prop where
  found : Table.Alike relates members others
  partner : ∀ other ∈ others, ∃ member ∈ members, member.1 = other.1 ∧ relates member.2 other.2

/-- Related values are of one shape: no node that only looks at the shape tells them apart. -/
structure KeepsShape (relates : Value → Value → Prop) : Prop where
  undefined : relates .undefined .undefined
  key : ∀ name : PropertyKey, relates name.toValue name.toValue
  array : ∀ items other, relates (.array items) other →
    ∃ others, other = .array others ∧ List.Forall₂ relates items others
  object : ∀ members other, relates (.object members) other →
    ∃ others, other = .object others ∧ MembersRelate relates members others
  nullish : ∀ value other, relates value other → value.isNullish = other.isNullish
  admits : ∀ kind : Kind Schema, ∀ value other, relates value other →
    kind.admits value = kind.admits other
  candidates : ∀ index value other, relates value other →
    (Run.candidates index value).2 = (Run.candidates index other).2

theorem MembersRelate.same (members : Members) : MembersRelate Eq members members where
  found key := by
    cases Table.find? key members with
    | none => exact .none
    | some value => exact .some rfl
  partner other inMembers := ⟨other, inMembers, rfl, rfl⟩

/-- Values that are the same are of one shape. -/
theorem KeepsShape.same : KeepsShape Eq where
  undefined := rfl
  key _ := rfl
  array items other same := by
    cases same
    exact ⟨items, rfl, List.forall₂_same.mpr fun _ _ => rfl⟩
  object members other same := by
    cases same
    exact ⟨members, rfl, .same members⟩
  nullish _ _ same := congrArg Value.isNullish same
  admits kind _ _ same := congrArg kind.admits same
  candidates index _ _ same := congrArg (fun value => (Run.candidates index value).2) same

namespace Run

/-- The options of the first run reject at least what those of the second one do. -/
structure Options.Tighter (strict loose : Options) : Prop where
  excess : loose.excess = .error → strict.excess = .error
  exact : loose.exact = true → strict.exact = true

/-- Where the one run succeeds, the other one does not fail on a related value. -/
def Upheld (relates : Value → Value → Prop) (run other : Schema → Value → Option Outcome)
    (schema : Schema) : Prop :=
  ∀ value partner, relates value partner → ∀ result faults,
    run schema value = some (.ok result) → other schema partner ≠ some (.error faults)

/-! ### One level -/

section Level

variable {relates : Value → Value → Prop} {run other : Schema → Value → Option Outcome}

private theorem upheld_tuple {elements : List (Element Schema)} {rest : List Schema}
    (each : ∀ child ∈ (Kind.tuple elements rest).children, Upheld relates run other child)
    {items others : List Value} (related : List.Forall₂ relates items others)
    {mode otherMode : FaultMode} {result : Value}
    (ran : tuple run mode elements rest items = some (.ok result))
    (failure : Faults) : tuple other otherMode elements rest others ≠ some (.error failure) := by
  intro failed
  obtain ⟨required, bounded, results, yields, _⟩ := (tuple_eq_ok_iff _ _ _ _ _).mp ran
  have sameLength := related.length_eq
  have told := fault_of_tuple failed (first_mem_toList failure)
  generalize failure.first = fault at told
  cases told with
  | missing absent needed => omega
  | unexpected closed beyond atPosition =>
      obtain ⟨inBounds, _⟩ := List.getElem?_eq_some_iff.mp atPosition
      have atMost := bounded closed
      omega
  | @item position schema partner faults inSlots atPosition partnerFailed =>
      obtain ⟨item, itemAt, relatedItem⟩ := exists_of_forall₂_at related atPosition
      rw [← sameLength] at inSlots
      obtain ⟨value, itemRan⟩ := yields.at_position inSlots itemAt
      have below := mem_slots (List.mem_of_getElem? inSlots)
      exact each schema below item partner relatedItem value faults itemRan partnerFailed

private theorem upheld_struct {decodeKey otherKey : Schema → Value → Option Outcome}
    {fields : List (Field Schema)} {indexes : List (IndexSignature Schema)}
    (shape : KeepsShape relates)
    (each : ∀ child ∈ (Kind.struct fields indexes).children, Upheld relates run other child)
    (keys : ∀ index ∈ indexes, Upheld relates decodeKey otherKey index.parameter)
    {strict loose : Options} (tighter : Options.Tighter strict loose) {members others : Members}
    (related : MembersRelate relates members others) {result : Value}
    (ran : struct run decodeKey strict fields indexes members = some (.ok result))
    (failure : Faults) :
    struct other otherKey loose fields indexes others ≠ some (.error failure) := by
  intro failed
  obtain ⟨expected, declared, indexed, fieldsYield, indexesYield, _⟩ :=
    (struct_eq_ok_iff _ _ _ _ _).mp ran
  have told := fault_of_struct failed (first_mem_toList failure)
  generalize failure.first = fault at told
  cases told with
  | @unexpected partner isStrict inOthers undeclared untaken =>
      obtain ⟨member, inMembers, sameKey, _⟩ := related.partner partner inOthers
      rcases expected (tighter.excess isStrict) member inMembers with known | taken
      · rw [sameKey, undeclared] at known
        cases known
      · rw [sameKey] at taken
        obtain ⟨index, inIndexes, fits, value, keyRan⟩ := exists_index_of_takesKey taken
        obtain ⟨faults, keyFailed⟩ := error_of_takesKey untaken inIndexes fits
        exact keys index inIndexes _ _ (shape.key _) value faults keyRan keyFailed
  | @missing field inFields absent required rejected =>
      have same := related.found field.name
      rw [absent] at same
      rcases fieldsYield.exists_run inFields with
        ⟨value, _, found, _⟩ | ⟨_, isOptional | supplied⟩
      · rw [found] at same
        cases same
      · rw [required] at isOptional
        cases isOptional
      · obtain ⟨notExact, value, undefinedRan⟩ := supplied
        rcases rejected with isExact | ⟨faults, undefinedFailed⟩
        · rw [tighter.exact isExact] at notExact
          cases notExact
        · exact each _ (Schema.field_mem_struct inFields) _ _ shape.undefined value faults
            undefinedRan undefinedFailed
  | @field field partner faults inFields present partnerFailed =>
      have same := related.found field.name
      rw [present] at same
      rcases fieldsYield.exists_run inFields with
        ⟨value, kept, found, fieldRan⟩ | ⟨absent, _⟩
      · rw [found] at same
        cases same with
        | some relatedValue =>
            exact each _ (Schema.field_mem_struct inFields) value partner relatedValue kept faults
              fieldRan partnerFailed
      · rw [absent] at same
        cases same
  | @parameter index partner faults inIndexes about keyFailed =>
      obtain ⟨inOthers, fits, undeclared⟩ := mem_indexMembers.mp about
      obtain ⟨member, inMembers, sameKey, _⟩ := related.partner partner inOthers
      rw [← sameKey] at fits undeclared keyFailed
      obtain ⟨entry, _, made⟩ :=
        indexesYield.exists_entry inIndexes (mem_indexMembers.mpr ⟨inMembers, fits, undeclared⟩)
      obtain ⟨value, keyRan⟩ := made.taken
      exact each _ (Schema.index_mem_struct inIndexes).1 _ _ (shape.key _) value faults keyRan
        keyFailed
  | @index index partner faults inIndexes about partnerFailed =>
      obtain ⟨inOthers, fits, undeclared⟩ := mem_indexMembers.mp about
      obtain ⟨member, inMembers, sameKey, relatedValue⟩ := related.partner partner inOthers
      rw [← sameKey] at fits undeclared
      obtain ⟨entry, _, made⟩ :=
        indexesYield.exists_entry inIndexes (mem_indexMembers.mpr ⟨inMembers, fits, undeclared⟩)
      exact each _ (Schema.index_mem_struct inIndexes).2 _ _ relatedValue _ faults made.ran
        partnerFailed

private theorem upheld_union (shape : KeepsShape relates) {members : List Schema}
    (each : ∀ member ∈ members, Upheld relates run other member) {value partner : Value}
    (related : relates value partner) {direction : Direction} {result : Value}
    (ran : union run direction members value = some (.ok result)) (failure : Faults) :
    union other direction members partner ≠ some (.error failure) := by
  intro failed
  obtain ⟨front, schema, back, split, schemaRan, _⟩ := firstOf_eq_ok_iff.mp ran
  have order : (candidates (TagIndex.ofMembers direction members) value).2.filterMap
      (fun position => members[position]?) = front ++ schema :: back := split
  have tried : schema ∈ (candidates (TagIndex.ofMembers direction members) value).2.filterMap
      fun position => members[position]? := by
    rw [order]
    exact List.mem_append_right _ List.mem_cons_self
  have inMembers : schema ∈ members := by
    obtain ⟨position, _, atPosition⟩ := List.mem_filterMap.mp tried
    exact List.mem_of_getElem? atPosition
  rw [shape.candidates _ _ _ related] at tried
  obtain ⟨inner, schemaFailed⟩ := error_of_firstOf_error failed tried
  exact each schema inMembers value partner related result inner schemaRan schemaFailed

end Level

/-- A node that only looks at the shape of values. -/
theorem upheld_step {targets : Targets} {relates : Value → Value → Prop}
    {run other : Settings → Schema → Value → Option Outcome} {strict loose : Settings}
    {schema : Schema} (shape : KeepsShape relates) (isShape : schema.kind.IsShape)
    (direction : strict.direction = loose.direction)
    (tighter : Options.Tighter strict.options loose.options)
    (children : ∀ child ∈ schema.kind.children, Upheld relates (run strict) (other loose) child)
    (keys : ∀ fields indexes, schema.kind = .struct fields indexes → ∀ index ∈ indexes,
      Upheld relates (run strict.decoding) (other loose.decoding) index.parameter)
    (members : ∀ members, schema.kind = .union members → ∀ member ∈ members,
      Upheld relates (run strict.failingFast) (other loose.failingFast) member)
    (target : ∀ cell, schema.kind = .lazy cell →
      Upheld relates (run strict) (other loose) (cell.resolve targets)) :
    Upheld relates (step (fun cell => some (cell.resolve targets)) run strict)
      (step (fun cell => some (cell.resolve targets)) other loose) schema := by
  intro value partner related result faults ran failed
  cases kindAt : schema.kind with
  | tuple elements rest =>
      obtain ⟨items, rfl, _⟩ := (step_tuple kindAt).mp ran
      obtain ⟨others, rfl, relatedItems⟩ := shape.array _ _ related
      rw [step_array kindAt] at ran failed
      rw [kindAt] at children
      exact upheld_tuple children relatedItems ran faults failed
  | struct fields indexes =>
      by_cases parts : fields = [] ∧ indexes = []
      · obtain ⟨rfl, rfl⟩ := parts
        have notNullish := ((step_struct_empty kindAt).mp ran).1
        rw [shape.nullish _ _ related] at notNullish
        have ranToo : step (fun cell => some (cell.resolve targets)) other loose schema partner =
            some (.ok partner) := (step_struct_empty kindAt).mpr ⟨notNullish, rfl⟩
        rw [failed] at ranToo
        cases ranToo
      · obtain ⟨objectMembers, rfl, _⟩ := (step_struct kindAt parts).mp ran
        obtain ⟨others, rfl, relatedMembers⟩ := shape.object _ _ related
        rw [step_object kindAt parts] at ran failed
        rw [kindAt] at children
        exact upheld_struct shape children (keys fields indexes kindAt) tighter relatedMembers ran
          faults failed
  | union schemas =>
      unfold step at ran failed
      rw [kindAt] at ran failed
      simp only [direction] at ran
      exact upheld_union shape (members schemas kindAt) related ran faults failed
  | lazy cell =>
      rw [step_lazy kindAt] at ran failed
      exact target cell kindAt value partner related result faults ran failed
  | refinement source filter =>
      rw [kindAt] at isShape
      exact isShape.elim
  | transform source target decode encode strict =>
      rw [kindAt] at isShape
      exact isShape.elim
  | declaration parameters decode encode =>
      rw [kindAt] at isShape
      exact isShape.elim
  | _ =>
      have leaf := Schema.isLeaf_of_kind kindAt trivial
      have admits := ((step_leaf leaf).mp ran).1
      rw [shape.admits _ _ _ related] at admits
      have ranToo : step (fun cell => some (cell.resolve targets)) other loose schema partner =
          some (.ok partner) := (step_leaf leaf).mpr ⟨admits, rfl⟩
      rw [failed] at ranToo
      cases ranToo

end Run

end SchemaCodec
