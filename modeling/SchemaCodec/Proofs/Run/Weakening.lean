import SchemaCodec.Proofs.Run.Choices
import SchemaCodec.Proofs.Run.Endless
import SchemaCodec.Proofs.Run.Positions

/-!
Schemas made weaker by making their fields and elements optional. A field that is there meets the same
schema as before, and where a value was asked for by an index signature or at the end of a tuple it now
meets a union that the old schema is a member of. Optional fields have no tags, so in a union none of the
weakened members is left out.
-/

namespace SchemaCodec

namespace Schema

/-! ### What weakening leaves as it is -/

private theorem mem_weakIndexes {id : NodeId} {first : Nat} {indexes : List (IndexSignature Schema)}
    {weak : IndexSignature Schema} (member : weak ∈ weakIndexes id first indexes) :
    ∃ index ∈ indexes, ∃ number,
      weak = ⟨index.parameter, union (.part id number) [index.schema, undefined]⟩ := by
  induction indexes generalizing first with
  | nil => cases member
  | cons index rest ih =>
      rcases List.mem_cons.mp member with rfl | later
      · exact ⟨index, List.mem_cons_self, first, rfl⟩
      · obtain ⟨other, inRest, found⟩ := ih later
        exact ⟨other, List.mem_cons_of_mem _ inRest, found⟩

private theorem eq_of_mem_weakRest {id : NodeId} {rest : List Schema} {schema : Schema}
    (member : schema ∈ weakRest id rest) :
    schema = union (.part id 0) (rest ++ [undefined]) := by
  unfold weakRest at member
  split at member
  · cases member
  · exact List.mem_singleton.mp member

/-- Below a weakened schema are the same schemas as before, and unions of these with undefined. -/
private theorem Weakens.child_cases {id : NodeId} {before after : Kind Schema}
    (weakens : Weakens id before after) {child : Schema} (below : child ∈ after.children) :
    child ∈ before.children ∨ ∃ part schemas, child = union part schemas ∧
      ∀ schema ∈ schemas, schema ∈ before.children ∨ schema = undefined := by
  cases weakens with
  | struct fields indexes =>
      rcases List.mem_append.mp below with inFields | inIndexes
      · rw [List.map_map] at inFields
        exact Or.inl (List.mem_append_left _ inFields)
      · obtain ⟨weak, inWeak, among⟩ := List.mem_flatMap.mp inIndexes
        obtain ⟨index, inList, number, rfl⟩ := mem_weakIndexes inWeak
        obtain ⟨parameter, schema⟩ := @index_mem_struct fields _ _ inList
        rcases List.mem_cons.mp among with rfl | last
        · exact Or.inl parameter
        · refine Or.inr ⟨_, _, List.mem_singleton.mp last, fun part inParts => ?_⟩
          rcases List.mem_cons.mp inParts with rfl | isUndefined
          · exact Or.inl schema
          · exact Or.inr (List.mem_singleton.mp isUndefined)
  | tuple elements rest =>
      rcases List.mem_append.mp below with inElements | inRest
      · rw [List.map_map] at inElements
        exact Or.inl (List.mem_append_left _ inElements)
      · refine Or.inr ⟨_, _, eq_of_mem_weakRest inRest, fun part inParts => ?_⟩
        rcases List.mem_append.mp inParts with inOld | isUndefined
        · exact Or.inl (List.mem_append_right _ inOld)
        · exact Or.inr (List.mem_singleton.mp isUndefined)

theorem Weakens.composite {id : NodeId} {before after : Kind Schema}
    (weakens : Weakens id before after) :
    (∃ fields indexes, after = .struct fields indexes) ∨ ∃ elements rest, after = .tuple elements rest := by
  cases weakens with
  | struct _ _ => exact Or.inl ⟨_, _, rfl⟩
  | tuple _ _ => exact Or.inr ⟨_, _, rfl⟩

/-- Fields that may be left out are no tags. -/
theorem Weakens.tags {id : NodeId} {before : Kind Schema} {weak : Schema}
    (weakens : Weakens id before weak.kind) (direction : Direction) : weak.tags direction = [] := by
  obtain ⟨node, annotations, after⟩ := weak
  change Weakens id before after at weakens
  cases weakens with
  | struct fields indexes =>
      rw [Schema.tags, List.filterMap_map]
      exact List.filterMap_eq_nil_iff.mpr fun field _ => rfl
  | tuple _ _ => rfl

theorem Weakens.wellFormed {id : NodeId} {before after : Kind Schema}
    (weakens : Weakens id before after) (wellFormed : before.WellFormed) : after.WellFormed := by
  cases weakens with
  | struct fields indexes =>
      obtain ⟨nodup, parameters⟩ := wellFormed
      refine ⟨by rwa [List.map_map], fun weak inWeak => ?_⟩
      obtain ⟨index, inList, number, rfl⟩ := mem_weakIndexes inWeak
      exact parameters index inList
  | tuple _ _ => trivial

end Schema

namespace Run

open Schema

variable {targets : Targets} {settings : Settings}

private theorem regular_undefined : Regular targets .undefined :=
  .of_keyword rfl ⟨trivial, trivial⟩

private theorem regular_of_weakens {id : NodeId} {schema weak : Schema}
    (regular : Regular targets schema)
    (weakens : Weakens id schema.kind weak.kind) : Regular targets weak := by
  have ignores : weak.kind.IgnoresFaultMode ∧ ∀ other, ¬weak.kind.LeadsTo targets other := by
    rcases weakens.composite with ⟨_, _, isStruct⟩ | ⟨_, _, isTuple⟩
    · rw [isStruct]
      exact ⟨trivial, fun _ leads => leads⟩
    · rw [isTuple]
      exact ⟨trivial, fun _ leads => leads⟩
  refine Throughout.intro ⟨weakens.wellFormed regular.here.1, ignores.1⟩ ignores.2 fun child below => ?_
  rcases weakens.child_cases below with inBefore | ⟨part, schemas, rfl, each⟩
  · exact regular.child inBefore
  · refine regular_unionOf (fun schema inSchemas => ?_) part
    rcases each schema inSchemas with inBefore | rfl
    · exact regular.child inBefore
    · exact regular_undefined

private theorem alwaysEnds_of_weakens {id : NodeId} {schema weak : Schema}
    (ends : schema.Throughout targets (AlwaysEnds targets))
    (weakens : Weakens id schema.kind weak.kind) : AlwaysEnds targets weak := by
  refine alwaysEnds_of_children weakens.composite fun child below => ?_
  rcases weakens.child_cases below with inBefore | ⟨part, schemas, rfl, each⟩
  · exact (ends.child inBefore).here
  · refine alwaysEnds_unionOf (fun schema inSchemas => ?_) part
    rcases each schema inSchemas with inBefore | rfl
    · exact ends.child inBefore
    · exact .of_keyword rfl fun _ => ends_leaf trivial

/-! ### Structs -/

private theorem isDeclared_weak (fields : List (Field Schema)) (key : PropertyKey) :
    isDeclared (fields.map fun field => { field with optional := true }) key =
      isDeclared fields key := by
  simp only [isDeclared, List.any_map, Function.comp_def]

private theorem takesKey_weakIndexes (decodeKey : Schema → Value → Option Outcome)
    (key : PropertyKey)
    (id : NodeId) (first : Nat) (indexes : List (IndexSignature Schema)) :
    takesKey decodeKey key (weakIndexes id first indexes) = takesKey decodeKey key indexes := by
  induction indexes generalizing first with
  | nil => rfl
  | cons index rest ih => simp only [weakIndexes, takesKey, ih]

/-- A struct whose fields may be left out does not fail where the struct succeeds. -/
private theorem weak_struct_not_rejects {id : NodeId} {schema weak : Schema}
    {fields : List (Field Schema)}
    {indexes : List (IndexSignature Schema)} (isStruct : schema.kind = .struct fields indexes)
    (isWeak : weak.kind = .struct (fields.map fun field => { field with optional := true })
      (weakIndexes id 0 indexes))
    (widened : ∀ index ∈ indexes, ∀ value, Succeeds targets settings index.schema value → ∀ part,
      ¬Rejects targets settings (Schema.union part [index.schema, undefined]) value)
    {input : Value} (succeeds : Succeeds targets settings schema input) :
    ¬Rejects targets settings weak input := by
  rintro ⟨failure, failed⟩
  obtain ⟨value, ran⟩ := succeeds
  by_cases parts : fields = [] ∧ indexes = []
  · obtain ⟨rfl, rfl⟩ := parts
    have taken := (step_struct_empty isStruct).mp (yields_iff_step.mp ran)
    have weakRan : Yields targets settings weak input (.ok value) :=
      yields_iff_step.mpr ((step_struct_empty isWeak).mpr taken)
    cases weakRan.unique failed
  · obtain ⟨members, rfl, expected, declared, indexed, fieldsYield, indexesYield, _⟩ :=
      (step_struct isStruct parts).mp (yields_iff_step.mp ran)
    have weakParts : ¬((fields.map fun field => { field with optional := true }) = [] ∧
        weakIndexes id 0 indexes = []) := by
      rintro ⟨noFields, noIndexes⟩
      refine parts ⟨List.map_eq_nil_iff.mp noFields, ?_⟩
      cases indexes with
      | nil => rfl
      | cons index rest => cases noIndexes
    rw [yields_iff_step, step_object isWeak weakParts] at failed
    rcases exists_error_of_struct failed with
      ⟨strict, member, inMembers, undeclared, untaken⟩ | ⟨field, inFields, missing | present⟩ |
      ⟨index, inIndexes, member, about, faults, stopped⟩
    · -- Names and parameters are the same as before, so no other member is unexpected.
      rw [isDeclared_weak] at undeclared
      rw [takesKey_weakIndexes] at untaken
      rcases expected strict member inMembers with declaredToo | taken
      · cases declaredToo.symm.trans undeclared
      · cases taken.symm.trans untaken
    · -- A field that may be left out is never missing.
      obtain ⟨original, _, rfl⟩ := List.mem_map.mp inFields
      cases missing.2.1
    · obtain ⟨original, inList, rfl⟩ := List.mem_map.mp inFields
      obtain ⟨given, faults, found, fieldFailed⟩ := present
      rcases fieldsYield.exists_run inList with ⟨other, result, foundToo, fieldRan⟩ | ⟨absent, _⟩
      · cases found.symm.trans foundToo
        cases fieldRan.symm.trans fieldFailed
      · cases found.symm.trans absent
    · -- A member of an index signature met the schema that is in the union now.
      obtain ⟨original, inList, number, rfl⟩ := mem_weakIndexes inIndexes
      obtain ⟨inMembers, fits, undeclared⟩ := mem_indexMembers.mp about
      rw [List.map_map] at undeclared
      obtain ⟨entry, _, made⟩ :=
        indexesYield.exists_entry inList (mem_indexMembers.mpr ⟨inMembers, fits, undeclared⟩)
      rcases stopped with keyFailed | valueFailed
      · obtain ⟨key, taken⟩ := made.taken
        cases taken.symm.trans keyFailed
      · exact widened original inList member.2 ⟨_, outcome?_eq_some.mp made.ran⟩ _
          ⟨faults, outcome?_eq_some.mp valueFailed⟩

/-! ### Tuples -/

private theorem requiredCount_weak (elements : List (Element Schema)) (id : NodeId)
    (rest : List Schema) :
    requiredCount (elements.map fun element => { element with optional := true })
      (weakRest id rest) = 0 := by
  have few : (weakRest id rest).length ≤ 1 := by
    unfold weakRest
    split <;> simp
  rw [requiredCount, List.filter_map, List.length_map,
    List.filter_eq_nil_iff.mpr (by simp), List.length_nil]
  omega

/-- Behind the leading elements stand schemas of the rest. -/
private theorem mem_rest_of_slots {elements : List (Element Schema)} {rest : List Schema}
    {count position : Nat} {schema : Schema} (beyond : elements.length ≤ position)
    (inSlots : (slots elements rest count)[position]? = some schema) : schema ∈ rest := by
  have outside : (elements.map Element.schema).length ≤ position := by simpa using beyond
  cases rest with
  | nil =>
      rw [slots, List.getElem?_eq_none outside] at inSlots
      cases inSlots
  | cons repeated trailing =>
      rw [slots, List.append_assoc, List.getElem?_append_right outside] at inSlots
      rcases List.mem_append.mp (List.mem_of_getElem? inSlots) with inMiddle | inTrailing
      · rw [List.eq_of_mem_replicate inMiddle]
        exact List.mem_cons_self
      · exact List.mem_cons_of_mem _ inTrailing

/-- A tuple whose elements may be left out does not fail where the tuple succeeds. -/
private theorem weak_tuple_not_rejects {id : NodeId} {schema weak : Schema}
    {elements : List (Element Schema)}
    {rest : List Schema} (isTuple : schema.kind = .tuple elements rest)
    (isWeak : weak.kind = .tuple (elements.map fun element => { element with optional := true })
      (weakRest id rest))
    (widened : ∀ part ∈ rest, ∀ value, Succeeds targets settings part value → ∀ node,
      ¬Rejects targets settings (Schema.union node (rest ++ [undefined])) value)
    {input : Value} (succeeds : Succeeds targets settings schema input) :
    ¬Rejects targets settings weak input := by
  rintro ⟨failure, failed⟩
  obtain ⟨value, ran⟩ := succeeds
  obtain ⟨items, rfl, _, bounded, results, yields, _⟩ :=
    (step_tuple isTuple).mp (yields_iff_step.mp ran)
  rw [yields_iff_step, step_array isWeak] at failed
  rcases exists_error_of_tuple failed with short | ⟨closed, long⟩ | ⟨slot, item, inZip, faults, stopped⟩
  · rw [requiredCount_weak] at short
    omega
  · have noRest : rest = [] := by
      by_contra some
      simp [weakRest, some] at closed
    have enough := bounded noRest
    rw [List.length_map] at long
    omega
  · obtain ⟨position, atPosition⟩ := List.mem_iff_getElem?.mp inZip
    obtain ⟨inSlots, inItems⟩ := List.getElem?_zip_eq_some.mp atPosition
    simp only at inSlots inItems
    have inBounds := (List.getElem?_eq_some_iff.mp inItems).1
    by_cases leading : position < elements.length
    · -- A leading element meets the same schema as before.
      have atElement : elements[position]? = some elements[position] := List.getElem?_eq_getElem leading
      have weakElement : (elements.map fun element => { element with optional := true })[position]? =
          some { elements[position] with optional := true } := by simp [atElement]
      cases inSlots.symm.trans (slots_leading weakElement items.length)
      obtain ⟨result, slotRan⟩ := yields.at_position (slots_leading atElement items.length) inItems
      cases slotRan.symm.trans stopped
    · -- Any other position met a schema of the rest and meets the union of these now.
      have beyond : elements.length ≤ position := Nat.le_of_not_lt leading
      have inWeakRest := mem_rest_of_slots (by simpa using beyond) inSlots
      rw [eq_of_mem_weakRest inWeakRest] at stopped
      have slotThere : position < (slots elements rest items.length).length :=
        Nat.lt_of_lt_of_le inBounds (length_slots elements items.length bounded)
      have atSlot := List.getElem?_eq_getElem slotThere
      obtain ⟨result, slotRan⟩ := yields.at_position atSlot inItems
      exact widened _ (mem_rest_of_slots beyond atSlot) item ⟨result, outcome?_eq_some.mp slotRan⟩ _
        ⟨faults, outcome?_eq_some.mp stopped⟩

/-! ### Weakened schemas -/

/-- A weakened struct or tuple does not fail where the schema succeeds. -/
private theorem not_rejects_of_weakens {roots : List Schema} (tell : IdentitiesTell roots)
    {id : NodeId} {schema weak : Schema} (derived : Derived roots schema)
    (undefinedDerived : Derived roots .undefined) (regular : Regular targets schema)
    (weakens : Weakens id schema.kind weak.kind) {input : Value}
    (succeeds : Succeeds targets settings schema input) : ¬Rejects targets settings weak input := by
  have widened : ∀ schemas : List Schema, schemas ⊆ schema.kind.children → ∀ part ∈ schemas,
      ∀ value, Succeeds targets settings part value → ∀ node,
        ¬Rejects targets settings (Schema.union node (schemas ++ [.undefined])) value := by
    intro schemas below part inSchemas value partSucceeds node
    refine union_not_rejects tell ?_ ?_ (List.mem_append_left _ inSchemas) partSucceeds node
    · intro other member
      rcases List.mem_append.mp member with inOld | isUndefined
      · exact derived.child (below inOld)
      · rwa [List.mem_singleton.mp isUndefined]
    · intro other member
      rcases List.mem_append.mp member with inOld | isUndefined
      · exact regular.child (below inOld)
      · rw [List.mem_singleton.mp isUndefined]
        exact regular_undefined
  generalize before : schema.kind = kind at weakens
  generalize after : weak.kind = weakKind at weakens
  cases weakens with
  | struct fields indexes =>
      refine weak_struct_not_rejects before after (fun index inIndexes value indexSucceeds part => ?_)
        succeeds
      refine widened [index.schema] ?_ _ List.mem_cons_self value indexSucceeds part
      exact List.cons_subset.mpr ⟨(index_mem_children before inIndexes).2, List.nil_subset _⟩
  | tuple elements rest =>
      refine weak_tuple_not_rejects before after (fun part inRest => widened rest ?_ part inRest) succeeds
      rw [before]
      exact List.subset_append_right _ _

def row : Schema := .plain (.made 6) (.tuple [⟨.string, false⟩] [.number, .boolean])

def circleOrRow : Schema := .plain (.made 7) (.union [circle, row])

def circleOrRowNodes : List Schema :=
  [circleOrRow, circle, circleTag, row, .string, .number, .boolean, .undefined]

private theorem circleOrRowNodes_children :
    circleOrRowNodes.flatMap (·.kind.children) ⊆ circleOrRowNodes := by
  have children : circleOrRowNodes.flatMap (·.kind.children) =
      [circle, row, circleTag, .string, .number, .boolean] := rfl
  rw [children]
  simp [circleOrRowNodes]

private theorem circleOrRow_identitiesTell : IdentitiesTell [circleOrRow, .undefined] := by
  apply identitiesTell_of_written circleOrRowNodes (by decide) (by decide)
  · simp [circleOrRowNodes]
  · exact circleOrRowNodes_children

private theorem circleOrRow_tame : circleOrRow.Throughout targets fun node => Tame node.kind := by
  refine Tame.of_closed circleOrRowNodes circleOrRowNodes_children ?_ (by simp [circleOrRowNodes])
  simp only [circleOrRowNodes, List.forall_mem_cons]
  exact ⟨.union _, .single _, .leaf trivial, .tuple _ _, .leaf trivial, .leaf trivial, .leaf trivial,
    .leaf trivial, nofun⟩

end Run

end SchemaCodec
