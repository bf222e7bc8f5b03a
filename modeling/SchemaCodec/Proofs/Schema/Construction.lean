import SchemaCodec.Proofs.Checked
import SchemaCodec.Proofs.Schema.SideView
import SchemaCodec.Schema.Record
import SchemaCodec.Schema.Sequence

/-!
What the composites that are constructed are made of: a tuple of the schemas of its parts, a struct of
those of its fields and index signatures, a record of its value and of the alternatives of its key.
The required elements of a tuple come first.
-/

namespace SchemaCodec

namespace Schema

theorem All.of_kind {holds : Kind Schema → Prop} {schema other : Schema}
    (all : schema.All (holds ·.kind)) (same : other.kind = schema.kind) :
    other.All (holds ·.kind) :=
  .intro (same ▸ all.here) fun _ below => all.child (same ▸ below)

def TuplePart.schema : TuplePart → Schema
  | .element schema => schema
  | .optional schema => schema
  | .rest schema => schema

def TupleDraft.schemas (draft : TupleDraft) : List Schema :=
  draft.elements.map (·.schema) ++ draft.rest

private theorem TupleDraft.mem_of_elements {draft : TupleDraft} {element : Element Schema}
    {child : Schema}
    (member : child ∈ { draft with elements := draft.elements ++ [element] }.schemas) :
    child ∈ draft.schemas ∨ child = element.schema := by
  rcases List.mem_append.mp member with inElements | inRest
  · rw [List.map_append] at inElements
    rcases List.mem_append.mp inElements with before | last
    · exact Or.inl (List.mem_append_left _ before)
    · exact Or.inr (List.mem_singleton.mp last)
  · exact Or.inl (List.mem_append_right _ inRest)

private theorem TupleDraft.mem_of_rest {draft : TupleDraft} {before : List Schema}
    {schema child : Schema}
    (known : before ⊆ draft.rest)
    (member : child ∈ { draft with rest := before ++ [schema] }.schemas) :
    child ∈ draft.schemas ∨ child = schema := by
  rcases List.mem_append.mp member with inElements | inRest
  · exact Or.inl (List.mem_append_left _ inElements)
  · rcases List.mem_append.mp inRest with old | last
    · exact Or.inl (List.mem_append_right _ (known old))
    · exact Or.inr (List.mem_singleton.mp last)

theorem TupleDraft.mem_add {draft : TupleDraft} {part : TuplePart} {child : Schema}
    (member : child ∈ (draft.add part).schemas) : child ∈ draft.schemas ∨ child = part.schema := by
  cases part with
  | element schema =>
      rw [add] at member
      split at member
      · exact mem_of_rest (List.Subset.refl _) member
      · split at member
        · exact Or.inl member
        · exact mem_of_elements member
  | optional schema =>
      rw [add] at member
      split at member
      · exact mem_of_elements member
      · exact Or.inl member
  | rest schema =>
      rw [add] at member
      split at member
      · exact mem_of_rest (List.nil_subset _) member
      · exact Or.inl member

private theorem TupleDraft.mem_foldl {parts : List TuplePart} {draft : TupleDraft} {child : Schema}
    (member : child ∈ (parts.foldl TupleDraft.add draft).schemas) :
    child ∈ draft.schemas ∨ ∃ part ∈ parts, child = part.schema := by
  induction parts generalizing draft with
  | nil => exact Or.inl member
  | cons part rest ih =>
      rcases ih member with inDraft | ⟨later, inRest, same⟩
      · rcases mem_add inDraft with before | same
        · exact Or.inl before
        · exact Or.inr ⟨part, List.mem_cons_self, same⟩
      · exact Or.inr ⟨later, List.mem_cons_of_mem _ inRest, same⟩

theorem exists_tuple_of_tuple {id : NodeId} {parts : List TuplePart} {schema : Schema}
    (built : Schema.tuple id parts = .ok schema) :
    ∃ elements rest, schema.kind = .tuple elements rest ∧
      ∀ child ∈ schema.kind.children, ∃ part ∈ parts, child = part.schema := by
  unfold Schema.tuple TupleDraft.build at built
  split at built
  · cases built
  · cases built
    refine ⟨_, _, rfl, fun child below => ?_⟩
    rcases TupleDraft.mem_foldl below with impossible | fromParts
    · cases impossible
    · exact fromParts

/-! ### The order of elements -/

def RequiredFirst (elements : List (Element Schema)) : Prop :=
  elements.Pairwise fun earlier later => later.optional = false → earlier.optional = false

namespace RequiredFirst

variable {elements : List (Element Schema)}

private theorem concat (ordered : RequiredFirst elements) {element : Element Schema}
    (allowed : element.optional = false → ∀ earlier ∈ elements, earlier.optional = false) :
    RequiredFirst (elements ++ [element]) := by
  apply List.pairwise_append.mpr
  refine ⟨ordered, List.pairwise_singleton .., fun earlier inElements last isLast required => ?_⟩
  rw [List.mem_singleton.mp isLast] at required
  exact allowed required earlier inElements

/-- As long as the last element is required all of them are. -/
private theorem all_required (ordered : RequiredFirst elements)
    (last : (elements.getLast?.any fun element => element.optional) = false) :
    ∀ element ∈ elements, element.optional = false := by
  rcases List.eq_nil_or_concat elements with rfl | ⟨before, final, rfl⟩
  · nofun
  · simp only [List.concat_eq_append, List.getLast?_append, List.getLast?_singleton,
      Option.some_or, Option.any_some] at last
    intro element member
    simp only [List.concat_eq_append, List.mem_append, List.mem_singleton] at member
    rcases member with inBefore | rfl
    · have apart := (List.pairwise_append.mp (List.concat_eq_append ▸ ordered)).2.2
      exact apart element inBefore final List.mem_cons_self last
    · exact last

theorem of_alike {optional : Bool} (alike : ∀ element ∈ elements, element.optional = optional) :
    RequiredFirst elements := by
  induction elements with
  | nil => exact .nil
  | cons first rest ih =>
      have later := fun element inRest => alike element (List.mem_cons_of_mem _ inRest)
      refine .cons (fun element inRest required => ?_) (ih later)
      rw [alike first List.mem_cons_self, ← later element inRest, required]

end RequiredFirst

private theorem TupleDraft.requiredFirst_add {draft : TupleDraft}
    (ordered : RequiredFirst draft.elements)
    (part : TuplePart) : RequiredFirst (draft.add part).elements := by
  cases part with
  | element schema =>
      rw [add]
      split
      · exact ordered
      · split
        · exact ordered
        · rename_i mayFollow
          exact ordered.concat fun _ => ordered.all_required (Bool.not_eq_true _ ▸ mayFollow)
  | optional schema =>
      rw [add]
      split
      · exact ordered.concat nofun
      · exact ordered
  | rest schema =>
      rw [add]
      split <;> exact ordered

private theorem TupleDraft.requiredFirst_foldl {parts : List TuplePart} {draft : TupleDraft}
    (ordered : RequiredFirst draft.elements) :
    RequiredFirst (parts.foldl TupleDraft.add draft).elements := by
  induction parts generalizing draft with
  | nil => exact ordered
  | cons part rest ih => exact ih (requiredFirst_add ordered part)

theorem requiredFirst_of_tuple {id : NodeId} {parts : List TuplePart} {schema : Schema}
    {elements : List (Element Schema)} {rest : List Schema}
    (built : Schema.tuple id parts = .ok schema) (isTuple : schema.kind = .tuple elements rest) :
    RequiredFirst elements := by
  unfold Schema.tuple TupleDraft.build at built
  split at built
  · cases built
  · cases built
    cases isTuple
    exact TupleDraft.requiredFirst_foldl List.Pairwise.nil

/-! ### Structs and records -/

theorem eq_of_indexSignature {index : IndexSignature Schema} {parameter value : Schema}
    (made : Schema.indexSignature parameter value = .ok index) :
    index = ⟨parameter, value⟩ ∧ parameter.isParameter = true := by
  unfold Schema.indexSignature at made
  split at made
  · rename_i tells
    cases made
    exact ⟨rfl, tells⟩
  · cases made

theorem exists_struct_of_struct {id : NodeId} {fields : List (Field Schema)}
    {indexes : List (Schema × Schema)} {schema : Schema}
    (built : Schema.struct id fields indexes = .ok schema) :
    ∃ signatures, schema.kind = .struct fields signatures ∧
      ∀ child ∈ schema.kind.children, (∃ field ∈ fields, child = field.schema) ∨
        ∃ index ∈ indexes, child = index.1 ∨ child = index.2 := by
  obtain ⟨signatures, checked, made⟩ := exists_ok_of_bind built
  unfold checkedStruct at made
  split at made
  · cases made
  · cases made
    refine ⟨signatures, rfl, fun child below => ?_⟩
    rcases List.mem_append.mp below with inFields | inSignatures
    · obtain ⟨field, inList, rfl⟩ := List.mem_map.mp inFields
      exact Or.inl ⟨field, inList, rfl⟩
    · obtain ⟨signature, inList, among⟩ := List.mem_flatMap.mp inSignatures
      obtain ⟨⟨parameter, value⟩, inIndexes, made⟩ := exists_ok_of_mapM checked inList
      simp only [indexSignature] at made
      split at made
      · cases made
        simp only [List.mem_cons, List.not_mem_nil, or_false] at among
        exact Or.inr ⟨_, inIndexes, among⟩
      · cases made

/-- A part of a record is for the value, and for the key if it is an index signature. -/
private theorem schema_of_recordPart {key value : Schema} {part : Field Schema ⊕ (Schema × Schema)}
    (made : recordPart value key = .ok part) :
    (∃ field, part = .inl field ∧ field.schema = value) ∨ part = .inr (key, value) := by
  unfold recordPart at made
  split at made
  · cases made
    exact Or.inl ⟨_, rfl, rfl⟩
  · cases made
    exact Or.inl ⟨_, rfl, rfl⟩
  · cases made
    exact Or.inl ⟨_, rfl, rfl⟩
  · split at made
    · cases made
      exact Or.inr rfl
    · cases made

theorem exists_struct_of_record {id : NodeId} {key value schema : Schema}
    (built : Schema.record id key value = .ok schema) :
    ∃ fields signatures, schema.kind = .struct fields signatures ∧
      ∀ child ∈ schema.kind.children, child = value ∨ child ∈ Template.alternatives key := by
  obtain ⟨parts, made, structured⟩ := exists_ok_of_bind built
  obtain ⟨signatures, isStruct, below⟩ := exists_struct_of_struct structured
  refine ⟨_, signatures, isStruct, fun child inKind => ?_⟩
  rcases below child inKind with ⟨field, inFields, rfl⟩ | ⟨index, inIndexes, same⟩
  · obtain ⟨part, inParts, isField⟩ := List.mem_filterMap.mp inFields
    obtain ⟨alternative, _, madePart⟩ := exists_ok_of_mapM made inParts
    rcases schema_of_recordPart madePart with ⟨other, rfl, isValue⟩ | rfl
    · cases isField
      exact Or.inl isValue
    · cases isField
  · obtain ⟨part, inParts, isIndex⟩ := List.mem_filterMap.mp inIndexes
    obtain ⟨alternative, inKey, madePart⟩ := exists_ok_of_mapM made inParts
    rcases schema_of_recordPart madePart with ⟨other, rfl, _⟩ | rfl
    · cases isIndex
    · cases isIndex
      rcases same with rfl | rfl
      · exact Or.inr inKey
      · exact Or.inl rfl

theorem all_of_mem_alternatives {holds : Schema → Prop} {key schema : Schema}
    (all : key.All holds) (member : schema ∈ Template.alternatives key) : schema.All holds := by
  unfold Template.alternatives at member
  split at member
  case h_1 members isUnion => exact all.child (member_mem_children isUnion member)
  case h_2 => exact List.mem_singleton.mp member ▸ all

theorem exists_struct_of_checked {id : NodeId} {fields : List (Field Schema)}
    {indexes : List (IndexSignature Schema)} {schema : Schema}
    (built : checkedStruct id fields indexes = .ok schema) :
    schema = plain id (.struct fields indexes) ∧
      firstRepeated? [] (fields.map Field.name) = none := by
  unfold checkedStruct at built
  split at built
  · cases built
  · rename_i unrepeated
    cases built
    exact ⟨rfl, unrepeated⟩

/-! ### Member by member -/

theorem numbered_of_partialOfAll {id : NodeId} {first : Nat} {members weakened : List Schema}
    (built : partialOfAll id first members = .ok weakened) :
    Numbered (fun number schema => schema.partialOf (.part id number)) first members weakened := by
  have cons : ∀ first schema rest, partialOfAll id first (schema :: rest) = do
      let weak ← schema.partialOf (.part id first)
      return weak :: (← partialOfAll id (first + 1) rest) := fun _ _ _ => by rw [partialOfAll]
  exact numbered_of_ok built (fun _ => by rw [partialOfAll]) cons

theorem exists_of_partialOfAll {id : NodeId} {first : Nat} {members weakened : List Schema}
    (built : partialOfAll id first members = .ok weakened) {result : Schema}
    (member : result ∈ weakened) :
    ∃ schema ∈ members, ∃ number, schema.partialOf (.part id number) = .ok result :=
  (numbered_of_partialOfAll built).exists_given member

theorem exists_of_extendAllByStruct {id : NodeId} {fields : List (Field Schema)}
    {indexes : List (IndexSignature Schema)} {first : Nat} {members extended : List Schema}
    (built : extendAllByStruct id fields indexes first members = .ok extended) {result : Schema}
    (member : result ∈ extended) :
    ∃ schema ∈ members, ∃ number,
      schema.extendByStruct (.part id number) fields indexes = .ok result := by
  have cons : ∀ first schema rest, extendAllByStruct id fields indexes first (schema :: rest) = do
      let extended ← schema.extendByStruct (.part id first) fields indexes
      return extended :: (← extendAllByStruct id fields indexes (first + 1) rest) :=
    fun _ _ _ => by rw [extendAllByStruct]
  exact exists_ok_of_numbered built member (fun _ => by rw [extendAllByStruct]) cons

theorem numbered_of_extendByAll {id : NodeId} {left : Schema} {first : Nat}
    {members extended : List Schema} (built : extendByAll id left first members = .ok extended) :
    Numbered (fun number right => extendBy (.part id number) left right) first members extended := by
  have cons : ∀ first right rest, extendByAll id left first (right :: rest) = do
      let extended ← extendBy (.part id first) left right
      return extended :: (← extendByAll id left (first + 1) rest) :=
    fun _ _ _ => by rw [extendByAll]
  exact numbered_of_ok built (fun _ => by rw [extendByAll]) cons

theorem exists_of_extendByAll {id : NodeId} {left : Schema} {first : Nat}
    {members extended : List Schema} (built : extendByAll id left first members = .ok extended)
    {result : Schema} (member : result ∈ extended) :
    ∃ right ∈ members, ∃ number, extendBy (.part id number) left right = .ok result :=
  (numbered_of_extendByAll built).exists_given member

theorem numbered_of_extendEachOf {id : NodeId} {right : Schema} {first : Nat}
    {members extended : List Schema} (built : extendEachOf id right first members = .ok extended) :
    Numbered (fun number left => extendEach (.part id number) right left) first members extended := by
  have cons : ∀ first left rest, extendEachOf id right first (left :: rest) = do
      let extended ← extendEach (.part id first) right left
      return extended :: (← extendEachOf id right (first + 1) rest) :=
    fun _ _ _ => by rw [extendEachOf]
  exact numbered_of_ok built (fun _ => by rw [extendEachOf]) cons

theorem exists_of_extendEachOf {id : NodeId} {right : Schema} {first : Nat}
    {members extended : List Schema} (built : extendEachOf id right first members = .ok extended)
    {result : Schema} (member : result ∈ extended) :
    ∃ left ∈ members, ∃ number, extendEach (.part id number) right left = .ok result :=
  (numbered_of_extendEachOf built).exists_given member

theorem exists_made_of_mem_parts {α : Type} {id : NodeId} {make : NodeId → α → Schema} {first : Nat}
    {list : List α} {schema : Schema} (member : schema ∈ parts id make first list) :
    ∃ node given, schema = make node given := by
  induction list generalizing first with
  | nil => cases member
  | cons given rest ih =>
      rcases List.mem_cons.mp member with rfl | inRest
      · exact ⟨_, given, rfl⟩
      · exact ih inRest

end Schema

theorem Template.toSchema_leaf (id : NodeId) (template : Template) :
    (template.toSchema id).kind.IsLeaf := by
  unfold Template.toSchema
  split <;> exact trivial

end SchemaCodec
