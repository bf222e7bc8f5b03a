import Mathlib.Data.List.Basic
import SchemaCodec.Proofs.Schema.UnionMembers
import SchemaCodec.Proofs.Table
import SchemaCodec.Run.Union

/-!
Copies of schemas, node for node. The nodes of a copy have identities of their own, and its
transformations may have other functions. All that is made of a schema without running it can be
made of the copy as well, and is then a copy of what it was.
-/

namespace SchemaCodec

/-- How to copy nodes: one node for each node, and a projection for each projection. -/
structure Copying where
  node : NodeId → NodeId
  node_injective : Function.Injective node
  node_side : ∀ side id, node (.side side id) = .side side (node id)
  function : Transformer → Transformer

def Reference.copy (copying : Copying) (reference : Reference) : Reference :=
  { reference with node := copying.node reference.node }

def LazyCell.copy (copying : Copying) : LazyCell → LazyCell
  | .reference target => .reference (target.copy copying)
  | .side which node inner => .side which (copying.node node) (inner.copy copying)

namespace Schema

mutual

def copy (copying : Copying) : Schema → Schema
  | .node id annotations kind => .node (copying.node id) annotations <|
    match kind with
    | .keyword keyword => .keyword keyword
    | .literal literal => .literal literal
    | .uniqueSymbol symbol => .uniqueSymbol symbol
    | .enums members => .enums members
    | .template template => .template template
    | .tuple elements rest => .tuple (copyElements copying elements) (copyAll copying rest)
    | .struct fields indexes => .struct (copyFields copying fields) (copyIndexes copying indexes)
    | .union members => .union (copyAll copying members)
    | .lazy cell => .lazy (cell.copy copying)
    | .refinement source filter => .refinement (source.copy copying) filter
    | .transform source target decode encode strict =>
      .transform (source.copy copying) (target.copy copying) (copying.function decode)
        (copying.function encode) strict
    | .declaration parameters decode encode =>
      .declaration (copyAll copying parameters) decode encode

def copyAll (copying : Copying) : List Schema → List Schema
  | [] => []
  | schema :: rest => schema.copy copying :: copyAll copying rest

def copyElements (copying : Copying) : List (Element Schema) → List (Element Schema)
  | [] => []
  | ⟨schema, optional⟩ :: rest => ⟨schema.copy copying, optional⟩ :: copyElements copying rest

def copyFields (copying : Copying) : List (Field Schema) → List (Field Schema)
  | [] => []
  | ⟨name, schema, optional⟩ :: rest =>
    ⟨name, schema.copy copying, optional⟩ :: copyFields copying rest

def copyIndexes (copying : Copying) : List (IndexSignature Schema) → List (IndexSignature Schema)
  | [] => []
  | ⟨parameter, schema⟩ :: rest =>
    ⟨parameter.copy copying, schema.copy copying⟩ :: copyIndexes copying rest

end

end Schema

variable {copying : Copying}

def Element.copy (copying : Copying) (element : Element Schema) : Element Schema :=
  ⟨element.schema.copy copying, element.optional⟩

def Field.copy (copying : Copying) (field : Field Schema) : Field Schema :=
  ⟨field.name, field.schema.copy copying, field.optional⟩

def IndexSignature.copy (copying : Copying) (index : IndexSignature Schema) :
    IndexSignature Schema :=
  ⟨index.parameter.copy copying, index.schema.copy copying⟩

namespace Schema

private theorem copyAll_eq_map (schemas : List Schema) :
    copyAll copying schemas = schemas.map (Schema.copy copying) := by
  induction schemas with
  | nil => rfl
  | cons schema rest ih => rw [copyAll, ih, List.map_cons]

private theorem copyElements_eq_map (elements : List (Element Schema)) :
    copyElements copying elements = elements.map (Element.copy copying) := by
  induction elements with
  | nil => rfl
  | cons element rest ih => rw [copyElements, ih, List.map_cons, Element.copy]

private theorem copyFields_eq_map (fields : List (Field Schema)) :
    copyFields copying fields = fields.map (Field.copy copying) := by
  induction fields with
  | nil => rfl
  | cons field rest ih => rw [copyFields, ih, List.map_cons, Field.copy]

private theorem copyIndexes_eq_map (indexes : List (IndexSignature Schema)) :
    copyIndexes copying indexes = indexes.map (IndexSignature.copy copying) := by
  induction indexes with
  | nil => rfl
  | cons index rest ih => rw [copyIndexes, ih, List.map_cons, IndexSignature.copy]

end Schema

def Kind.copy (copying : Copying) : Kind Schema → Kind Schema
  | .tuple elements rest =>
    .tuple (elements.map (Element.copy copying)) (rest.map (Schema.copy copying))
  | .struct fields indexes =>
    .struct (fields.map (Field.copy copying)) (indexes.map (IndexSignature.copy copying))
  | .union members => .union (members.map (Schema.copy copying))
  | .lazy cell => .lazy (cell.copy copying)
  | .refinement source filter => .refinement (source.copy copying) filter
  | .transform source target decode encode strict =>
    .transform (source.copy copying) (target.copy copying) (copying.function decode)
      (copying.function encode) strict
  | .declaration parameters decode encode =>
    .declaration (parameters.map (Schema.copy copying)) decode encode
  | kind => kind

namespace Schema

theorem copy_node (id : NodeId) (annotations : Annotations) (kind : Kind Schema) :
    (node id annotations kind).copy copying =
      node (copying.node id) annotations (kind.copy copying) := by
  cases kind <;> simp only [copy, Kind.copy, copyAll_eq_map, copyElements_eq_map,
    copyFields_eq_map, copyIndexes_eq_map]

@[simp]
theorem id_copy (schema : Schema) : (schema.copy copying).id = copying.node schema.id := by
  cases schema
  rw [copy_node]
  rfl

@[simp]
theorem annotations_copy (schema : Schema) :
    (schema.copy copying).annotations = schema.annotations := by
  cases schema
  rw [copy_node]
  rfl

@[simp]
theorem kind_copy (schema : Schema) :
    (schema.copy copying).kind = schema.kind.copy copying := by
  cases schema
  rw [copy_node]
  rfl

/-! ### What messages say -/

private theorem labels_eq_map (schemas : List Schema) : labels schemas = schemas.map label := by
  induction schemas with
  | nil => rfl
  | cons schema rest ih => rw [labels, ih, List.map_cons]

private theorem label_copy (schema : Schema) : (schema.copy copying).label = schema.label := by
  induction schema using childInduction with
  | node schema ih =>
      obtain ⟨id, annotations, kind⟩ := schema
      rw [copy_node]
      cases kind with
      | union members =>
          have same : (members.map (copy copying)).map label = members.map label := by
            rw [List.map_map]
            exact List.map_congr_left ih
          simp only [Kind.copy, label, labels_eq_map, same]
      | transform source target decode encode strict =>
          have atSource : (source.copy copying).label = source.label := ih _ List.mem_cons_self
          have atTarget : (target.copy copying).label = target.label :=
            ih _ (List.mem_cons_of_mem _ (List.mem_singleton.mpr rfl))
          simp only [Kind.copy, label, atSource, atTarget]
      | _ => rfl

/-- A fault says of a copy what it says of the schema. -/
theorem expected_copy (schema : Schema) : (schema.copy copying).expected = schema.expected := by
  have sameTag : (schema.copy copying).tag = schema.tag := by
    rw [tag, tag, kind_copy]
    cases schema.kind <;> rfl
  rw [expected, expected, sameTag, label_copy, annotations_copy]

/-! ### Unions -/

private theorem flattenedAll_copy {schemas : List Schema}
    (each : ∀ schema ∈ schemas, (schema.copy copying).flattened =
      schema.flattened.map (copy copying)) :
    flattenedAll (schemas.map (copy copying)) = (flattenedAll schemas).map (copy copying) := by
  induction schemas with
  | nil => rfl
  | cons schema rest ih =>
      rw [List.map_cons, flattenedAll, flattenedAll, List.map_append, each _ List.mem_cons_self,
        ih fun other inRest => each other (List.mem_cons_of_mem _ inRest)]

private theorem flattened_copy (schema : Schema) :
    (schema.copy copying).flattened = schema.flattened.map (copy copying) := by
  induction schema using childInduction with
  | node schema ih =>
      obtain ⟨id, annotations, kind⟩ := schema
      cases kind with
      | union members =>
          have inner := flattenedAll_copy ih
          rw [copy_node]
          simp only [Kind.copy, flattened]
          split
          · exact inner
          · rw [List.map_singleton, copy_node]
            rfl
      | _ => rfl

private theorem distinct_copy (known : List NodeId) (schemas : List Schema) :
    distinct (known.map copying.node) (schemas.map (copy copying)) =
      (distinct known schemas).map (copy copying) := by
  induction schemas generalizing known with
  | nil => rfl
  | cons schema rest ih =>
      have sameKnown : (known.map copying.node).contains (copying.node schema.id) =
          known.contains schema.id := by
        rw [Bool.eq_iff_iff, List.contains_iff_mem, List.contains_iff_mem,
          List.mem_map_of_injective copying.node_injective]
      simp only [List.map_cons, distinct, id_copy, sameKnown]
      split
      · exact ih known
      · rw [List.map_cons, ← ih, List.map_cons]

private theorem unionMembers_copy (schemas : List Schema) :
    unionMembers (schemas.map (copy copying)) = (unionMembers schemas).map (copy copying) := by
  have sameNever : ∀ schema : Schema, (schema.copy copying).isNever = schema.isNever := by
    intro schema
    rw [isNever, isNever, kind_copy]
    cases schema.kind <;> rfl
  have filtered : (fun schema : Schema => !schema.isNever) ∘ copy copying =
      fun schema => !schema.isNever := by
    funext schema
    simp only [Function.comp, sameNever]
  rw [unionMembers, unionMembers, flattenedAll_copy fun schema _ => flattened_copy schema,
    List.filter_map, filtered]
  exact distinct_copy [] _

theorem union_copy (id : NodeId) (schemas : List Schema) :
    (union id schemas).copy copying = union (copying.node id) (schemas.map (copy copying)) := by
  rw [union, union, unionMembers_copy]
  cases unionMembers schemas with
  | nil => rfl
  | cons first rest =>
      cases rest with
      | nil => rfl
      | cons second rest => exact copy_node _ _ _

/-- A fault that tells a union does not tell which node the union is. -/
private theorem expected_union (id other : NodeId) (schemas : List Schema) :
    (union id schemas).expected = (union other schemas).expected := by
  rw [union, union]
  cases unionMembers schemas with
  | nil => rfl
  | cons first rest => cases rest <;> rfl

/-! ### Sides -/

-- The equations of these functions are made here, once, for all the proofs below.
attribute [local simp] side? sideAll? sideElements? sideFields? sideIndexes?

private theorem sideAll?_copy {side : Side} {schemas : List Schema}
    (each : ∀ schema ∈ schemas, (schema.copy copying).side? side =
      (schema.side? side).map (copy copying)) :
    sideAll? side (schemas.map (copy copying)) =
      (sideAll? side schemas).map (List.map (copy copying)) := by
  induction schemas with
  | nil => rfl
  | cons schema rest ih =>
      have later := ih fun other inRest => each other (List.mem_cons_of_mem _ inRest)
      simp only [List.map_cons, sideAll?, each _ List.mem_cons_self, later]
      cases schema.side? side <;> cases sideAll? side rest <;> rfl

private theorem sideElements?_copy {side : Side} {elements : List (Element Schema)}
    (each : ∀ element ∈ elements, (element.schema.copy copying).side? side =
      (element.schema.side? side).map (copy copying)) :
    sideElements? side (elements.map (Element.copy copying)) =
      (sideElements? side elements).map (List.map (Element.copy copying)) := by
  induction elements with
  | nil => rfl
  | cons element rest ih =>
      have later := ih fun other inRest => each other (List.mem_cons_of_mem _ inRest)
      simp only [List.map_cons, Element.copy, sideElements?, each _ List.mem_cons_self, later]
      cases element.schema.side? side <;> cases sideElements? side rest <;> rfl

private theorem sideFields?_copy {side : Side} {fields : List (Field Schema)}
    (each : ∀ field ∈ fields, (field.schema.copy copying).side? side =
      (field.schema.side? side).map (copy copying)) :
    sideFields? side (fields.map (Field.copy copying)) =
      (sideFields? side fields).map (List.map (Field.copy copying)) := by
  induction fields with
  | nil => rfl
  | cons field rest ih =>
      have later := ih fun other inRest => each other (List.mem_cons_of_mem _ inRest)
      simp only [List.map_cons, Field.copy, sideFields?, each _ List.mem_cons_self, later]
      cases field.schema.side? side <;> cases sideFields? side rest <;> rfl

private theorem sideIndexes?_copy {side : Side} {indexes : List (IndexSignature Schema)}
    (each : ∀ index ∈ indexes,
      (index.parameter.copy copying).side? side =
        (index.parameter.side? side).map (copy copying) ∧
      (index.schema.copy copying).side? side = (index.schema.side? side).map (copy copying)) :
    sideIndexes? side (indexes.map (IndexSignature.copy copying)) =
      (sideIndexes? side indexes).map (List.map (IndexSignature.copy copying)) := by
  induction indexes with
  | nil => rfl
  | cons index rest ih =>
      have later := ih fun other inRest => each other (List.mem_cons_of_mem _ inRest)
      obtain ⟨parameter, value⟩ := each _ List.mem_cons_self
      simp only [List.map_cons, IndexSignature.copy, sideIndexes?, parameter, value, later]
      cases index.parameter.side? side <;> cases index.schema.side? side <;>
        cases sideIndexes? side rest <;> rfl

private theorem annotateAll_copy (schema : Schema) (id : NodeId) (top : Annotations) :
    (schema.annotateAll id top).copy copying =
      (schema.copy copying).annotateAll (copying.node id) top := by
  rw [annotateAll, annotateAll, copy_node, annotations_copy, kind_copy]

/-- The side of a copy is the copy of the side. -/
private theorem side?_copy (side : Side) (schema : Schema) :
    (schema.copy copying).side? side = (schema.side? side).map (copy copying) := by
  induction schema using childInduction with
  | node schema ih =>
      obtain ⟨id, annotations, kind⟩ := schema
      rw [copy_node]
      cases kind with
      | tuple elements rest =>
          have inElements := sideElements?_copy fun element inList =>
            ih _ (List.mem_append_left _ (List.mem_map_of_mem inList))
          have inRest := sideAll?_copy fun schema inList => ih _ (List.mem_append_right _ inList)
          simp only [Kind.copy, side?, inElements, inRest]
          cases sideElements? side elements <;> cases sideAll? side rest <;>
            simp [copy_node, Kind.copy, copying.node_side]
      | struct fields indexes =>
          have inFields := sideFields?_copy fun field inList =>
            ih _ (field_mem_struct inList)
          have inIndexes := sideIndexes?_copy fun index inList =>
            ⟨ih _ (index_mem_struct inList).1, ih _ (index_mem_struct inList).2⟩
          simp only [Kind.copy, side?, inFields, inIndexes]
          cases sideFields? side fields <;> cases sideIndexes? side indexes <;>
            simp [copy_node, Kind.copy, copying.node_side]
      | union members =>
          have inMembers := @sideAll?_copy _ side members ih
          simp only [Kind.copy, side?, inMembers]
          cases sideAll? side members with
          | none => rfl
          | some changed =>
              cases side with
              | input => simp [union_copy, copying.node_side]
              | output => simp [union_copy, annotateAll_copy, copying.node_side]
      | lazy cell => simp [Kind.copy, side?, copy_node, LazyCell.copy, copying.node_side]
      | refinement source filter =>
          have atSource := ih source (List.mem_singleton.mpr rfl)
          simp only [Kind.copy, side?, atSource]
          cases side with
          | input => cases source.side? .input <;> rfl
          | output =>
              cases source.side? .output with
              | none => rfl
              | some changed => simp [copy_node, Kind.copy, copying.node_side]
      | transform source target decode encode strict =>
          have atSource := ih source List.mem_cons_self
          have atTarget := ih target (List.mem_cons_of_mem _ (List.mem_singleton.mpr rfl))
          simp only [Kind.copy, side?, atSource, atTarget]
          cases side with
          | input => cases source.side? .input <;> rfl
          | output => cases target.side? .output <;> rfl
      | declaration parameters decode encode =>
          have inParameters := @sideAll?_copy _ side parameters ih
          simp only [Kind.copy, side?, inParameters]
          cases sideAll? side parameters with
          | none => rfl
          | some changed => simp [copy_node, Kind.copy, copying.node_side]
      | _ => rfl

theorem sideOf_copy (side : Side) (schema : Schema) :
    (schema.copy copying).sideOf side = (schema.sideOf side).copy copying := by
  rw [sideOf, sideOf, side?_copy]
  cases schema.side? side <;> rfl

theorem withoutRefinements_copy (schema : Schema) :
    (schema.copy copying).withoutRefinements = schema.withoutRefinements.copy copying := by
  induction schema using childInduction with
  | node schema ih =>
      obtain ⟨id, annotations, kind⟩ := schema
      rw [copy_node]
      cases kind with
      | refinement source filter => exact ih source (List.mem_singleton.mpr rfl)
      | _ => exact (copy_node _ _ _).symm

end Schema

/-- What stands behind a lazy node of the copy. -/
theorem LazyCell.resolve_copy {targets copies : Targets}
    (copied : ∀ reference, copies (reference.copy copying) = (targets reference).copy copying)
    (cell : LazyCell) :
    (cell.copy copying).resolve copies = (cell.resolve targets).copy copying := by
  induction cell with
  | reference target => exact copied target
  | side which node inner ih =>
      rw [LazyCell.copy, LazyCell.resolve, LazyCell.resolve, ih, Schema.sideOf_copy]

/-! ### Tags -/

def Tag.copy (copying : Copying) (tag : Tag) : Tag :=
  { tag with schema := tag.schema.copy copying }

private theorem Field.tag?_copy (direction : Direction) (field : Field Schema) :
    Field.tag? direction (field.copy copying) = (field.tag? direction).map (Tag.copy copying) := by
  rw [Field.tag?, Field.tag?]
  simp only [Field.copy, Schema.sideOf_copy, Schema.kind_copy]
  split
  · rfl
  · cases kindAt : (field.schema.sideOf direction.startSide).kind <;> rfl

private theorem Schema.tags_copy (direction : Direction) (schema : Schema) :
    (schema.copy copying).tags direction =
      (schema.tags direction).map (Tag.copy copying) := by
  induction schema using Schema.childInduction with
  | node schema ih =>
      obtain ⟨id, annotations, kind⟩ := schema
      rw [Schema.copy_node]
      cases kind with
      | struct fields indexes =>
          simp only [Kind.copy, Schema.tags, List.filterMap_map, List.map_filterMap]
          congr 1
          funext field
          exact Field.tag?_copy direction field
      | refinement source filter => exact ih source (List.mem_singleton.mpr rfl)
      | transform source target decode encode strict =>
          cases direction with
          | decode => exact ih source List.mem_cons_self
          | encode => exact ih target (List.mem_cons_of_mem _ (List.mem_singleton.mpr rfl))
      | _ => rfl

def TagGroup.copy (copying : Copying) (group : TagGroup) : TagGroup :=
  { group with literals := group.literals.map (Schema.copy copying) }

def TagIndex.copy (copying : Copying) (index : TagIndex) : TagIndex :=
  { index with groups := index.groups.map (Prod.map id (TagGroup.copy copying)) }

namespace TagIndex

private theorem group_copy (index : TagIndex) (key : PropertyKey) :
    (index.copy copying).group key = (index.group key).copy copying := by
  rw [group, group, copy, Table.find?_map]
  cases Table.find? key index.groups <;> rfl

private theorem choose?_copy (index : TagIndex) (tags : List Tag) :
    (index.copy copying).choose? (tags.map (Tag.copy copying)) =
      (index.choose? tags).map (Tag.copy copying) := by
  induction tags with
  | nil => rfl
  | cons tag rest ih =>
      cases rest with
      | nil => rfl
      | cons next rest =>
          have sameTaken : ((index.copy copying).group (tag.copy copying).key).takes
              (tag.copy copying).literal.text = (index.group tag.key).takes tag.literal.text := by
            rw [group_copy]
            rfl
          simp only [List.map_cons, choose?, sameTaken] at ih ⊢
          split
          · exact ih
          · rfl

private theorem add_copy (index : TagIndex) (member : Nat) (tags : List Tag) :
    (index.copy copying).add member (tags.map (Tag.copy copying)) =
      (index.add member tags).copy copying := by
  rw [add, add, choose?_copy]
  cases index.choose? tags with
  | none => rfl
  | some tag =>
      have added : ((index.copy copying).group (tag.copy copying).key).add member
          (tag.copy copying) = ((index.group tag.key).add member tag).copy copying := by
        rw [group_copy]
        simp only [TagGroup.add, TagGroup.copy, List.map_append]
        rfl
      simp only [Option.map_some, added]
      exact congrArg (fun groups => TagIndex.mk groups _) (Table.insert_map _ _ _ _)

theorem ofMembers_copy (direction : Direction) (members : List Schema) :
    ofMembers direction (members.map (Schema.copy copying)) =
      (ofMembers direction members).copy copying := by
  suffices all : ∀ (index : TagIndex) (next : Nat),
      addAll direction (index.copy copying) next (members.map (Schema.copy copying)) =
        (addAll direction index next members).copy copying from all .empty 0
  induction members with
  | nil => intro index next; rfl
  | cons schema rest ih =>
      intro index next
      rw [List.map_cons, addAll, addAll, Schema.tags_copy, add_copy, ih]

end TagIndex

/-! ### Members to try -/

namespace Run

private theorem groupCandidates_copy (members : Members) (entry : PropertyKey × TagGroup) :
    groupCandidates members (Prod.map id (TagGroup.copy copying) entry) =
      groupCandidates members entry := by
  obtain ⟨key, group⟩ := entry
  have sameUnion : (group.copy copying).union.expected = group.union.expected := by
    rw [TagGroup.union, TagGroup.union, TagGroup.copy,
      Schema.expected_union _ (copying.node (.standard 0)), ← Schema.union_copy,
      Schema.expected_copy]
  rw [groupCandidates, groupCandidates, Prod.map, sameUnion]
  rfl

private theorem tagCandidates_copy (members : Members) (groups : List (PropertyKey × TagGroup)) :
    tagCandidates members (groups.map (Prod.map id (TagGroup.copy copying))) =
      tagCandidates members groups := by
  induction groups with
  | nil => rfl
  | cons entry rest ih =>
      rw [List.map_cons, tagCandidates, tagCandidates, groupCandidates_copy, ih]

/-- A copy of a union has its members tried in the same order, and finds the same fault with tags. -/
theorem candidates_copy (index : TagIndex) (input : Value) :
    candidates (index.copy copying) input = candidates index input := by
  have sameEmpty : (index.copy copying).isEmpty = index.isEmpty := List.isEmpty_map
  unfold candidates
  rw [sameEmpty]
  cases index.isEmpty with
  | true => rfl
  | false =>
      cases input with
      | object members => simp only [TagIndex.copy, tagCandidates_copy]
      | _ => rfl

end Run

end SchemaCodec
