import SchemaCodec.Proofs.Schema.SideView
import SchemaCodec.Schema.Choice
import SchemaCodec.Schema.Transform

/-!
Schemas that are their own sides. A side puts something else in the place of every transformation and
every lazy node, and of every refinement if it is the input side. A schema without such nodes is the
very same node on that side, and no other schema is; so the side of a schema without lazy nodes, from
which all of them are gone, is its own side.
-/

namespace SchemaCodec

def Kind.IsTransform : Kind Schema → Prop
  | .transform _ _ _ _ _ => True
  | _ => False

def Kind.IsRefinement : Kind Schema → Prop
  | .refinement _ _ => True
  | _ => False

/-- No side has a transformation in it. -/
private theorem Kind.not_isTransform_projects (side : Side) :
    Kind.Projects side (fun _ => True) (¬·.IsTransform) where
  leaf kind isLeaf _ isTransform := by cases kind <;> first | exact isLeaf | exact isTransform
  tuple _ _ _ := id
  struct _ _ _ := id
  union _ _ _ := ⟨id, id⟩
  lazy _ _ _ := id
  refinement _ _ _ := id
  declaration _ _ _ _ := id

/-- A node of the kind stays on the side if the schemas below it do. -/
def Kind.StaysOn (side : Side) : Kind Schema → Prop
  | .lazy _ => False
  | .transform _ _ _ _ _ => False
  | .refinement _ _ => side = .output
  | _ => True

private theorem Kind.StaysOn.not_isTransform {side : Side} {kind : Kind Schema}
    (stays : kind.StaysOn side) :
    ¬kind.IsTransform := by
  cases kind <;> first | exact id | exact stays.elim

private theorem Kind.StaysOn.not_isRefinement {kind : Kind Schema} (stays : kind.StaysOn .input) :
    ¬kind.IsRefinement := by
  cases kind <;> first | exact id | cases stays

private theorem Kind.staysOn_of_not {kind : Kind Schema} (notLazy : ∀ cell, kind ≠ .lazy cell)
    (notTransform : ¬kind.IsTransform) (notRefinement : ¬kind.IsRefinement) (side : Side) :
    kind.StaysOn side := by
  cases kind with
  | lazy cell => exact absurd rfl (notLazy cell)
  | transform source target decode encode strict => exact notTransform trivial
  | refinement source filter => exact absurd trivial notRefinement
  | _ => trivial

namespace Schema

variable {side : Side} {schema : Schema}

theorem All.trivial (schema : Schema) : schema.All fun _ => True := by
  induction schema using childInduction with
  | node schema ih => exact .intro True.intro ih

theorem All.and {holds also : Schema → Prop} (all : schema.All holds) (allToo : schema.All also) :
    schema.All fun node => holds node ∧ also node := by
  induction all with
  | intro here _ ih =>
      exact .intro ⟨here, allToo.here⟩ fun child below => ih child below (allToo.child below)

private theorem all_iff {holds : Schema → Prop} :
    schema.All holds ↔ holds schema ∧ ∀ child ∈ schema.kind.children, child.All holds :=
  ⟨fun all => ⟨all.here, fun _ below => all.child below⟩, fun parts => .intro parts.1 parts.2⟩

theorem sideOf_without_transform (side : Side) (schema : Schema) :
    (schema.sideOf side).All (¬·.kind.IsTransform) :=
  (All.trivial schema).sideOf (Kind.not_isTransform_projects side)

/-! ### Which schemas are their own sides -/

private theorem sideAll?_eq_none_iff {schemas : List Schema} :
    sideAll? side schemas = none ↔ ∀ schema ∈ schemas, schema.side? side = none := by
  induction schemas with
  | nil => simp [sideAll?]
  | cons schema rest ih =>
      rw [List.forall_mem_cons, ← ih, sideAll?]
      cases schema.side? side <;> cases sideAll? side rest <;> simp

private theorem sideElements?_eq_none_iff {elements : List (Element Schema)} :
    sideElements? side elements = none ↔
      ∀ element ∈ elements, element.schema.side? side = none := by
  induction elements with
  | nil => simp [sideElements?]
  | cons element rest ih =>
      rw [List.forall_mem_cons, ← ih, sideElements?]
      cases element.schema.side? side <;> cases sideElements? side rest <;> simp

private theorem sideFields?_eq_none_iff {fields : List (Field Schema)} :
    sideFields? side fields = none ↔ ∀ field ∈ fields, field.schema.side? side = none := by
  induction fields with
  | nil => simp [sideFields?]
  | cons field rest ih =>
      rw [List.forall_mem_cons, ← ih, sideFields?]
      cases field.schema.side? side <;> cases sideFields? side rest <;> simp

private theorem sideIndexes?_eq_none_iff {indexes : List (IndexSignature Schema)} :
    sideIndexes? side indexes = none ↔ ∀ index ∈ indexes,
      index.parameter.side? side = none ∧ index.schema.side? side = none := by
  induction indexes with
  | nil => simp [sideIndexes?]
  | cons index rest ih =>
      rw [List.forall_mem_cons, ← ih, sideIndexes?]
      cases index.parameter.side? side <;> cases index.schema.side? side <;>
        cases sideIndexes? side rest <;> simp

/-- One level: the node stays, and so do all schemas below it. -/
private theorem side?_eq_none_iff_children :
    schema.side? side = none ↔ schema.kind.StaysOn side ∧
      ∀ child ∈ schema.kind.children, child.side? side = none := by
  obtain ⟨id, annotations, kind⟩ := schema
  change _ ↔ kind.StaysOn side ∧ ∀ child ∈ kind.children, child.side? side = none
  cases kind with
  | tuple elements rest =>
      have below : (∀ child ∈ (Kind.tuple elements rest).children, child.side? side = none) ↔
          sideElements? side elements = none ∧ sideAll? side rest = none := by
        rw [Kind.children, List.forall_mem_append, List.forall_mem_map, sideElements?_eq_none_iff,
          sideAll?_eq_none_iff]
      rw [below, side?]
      cases sideElements? side elements <;> cases sideAll? side rest <;> simp [Kind.StaysOn]
  | struct fields indexes =>
      have below : (∀ child ∈ (Kind.struct fields indexes).children, child.side? side = none) ↔
          sideFields? side fields = none ∧ sideIndexes? side indexes = none := by
        rw [Kind.children, List.forall_mem_append, List.forall_mem_map, List.forall_mem_flatMap,
          sideFields?_eq_none_iff, sideIndexes?_eq_none_iff]
        simp
      rw [below, side?]
      cases sideFields? side fields <;> cases sideIndexes? side indexes <;> simp [Kind.StaysOn]
  | union members =>
      rw [Kind.children, ← sideAll?_eq_none_iff, side?]
      cases sideAll? side members <;> simp [Kind.StaysOn]
  | declaration parameters decode encode =>
      rw [Kind.children, ← sideAll?_eq_none_iff, side?]
      cases sideAll? side parameters <;> simp [Kind.StaysOn]
  | refinement source filter =>
      cases side <;> simp [Kind.StaysOn, Kind.children, side?]
  | transform source target decode encode strict =>
      cases side <;> simp [Kind.StaysOn, side?]
  | lazy cell => simp [Kind.StaysOn, side?]
  | _ => simp [Kind.StaysOn, Kind.children, side?]

private theorem side?_eq_none_iff : schema.side? side = none ↔ schema.All
    (·.kind.StaysOn side) := by
  induction schema using childInduction with
  | node schema ih =>
      rw [side?_eq_none_iff_children, all_iff]
      exact and_congr_right fun _ => forall₂_congr ih

private theorem sideOf_of_staysOn (all : schema.All (·.kind.StaysOn side)) :
    schema.sideOf side = schema := by
  rw [sideOf, side?_eq_none_iff.mpr all]
  rfl

/-! ### Sides of sides -/

/-- Nothing is left that the side would take away. -/
private theorem staysOn_sideOf (lazyFree : schema.LazyFree) :
    (schema.sideOf side).All (·.kind.StaysOn side) := by
  refine All.of_sides ?_
  induction schema using childInduction with
  | node schema ih =>
      have below : ∀ child ∈ schema.kind.children,
          child.All fun node => (node.sideOf side).kind.StaysOn side :=
        fun child inKind => ih child inKind (lazyFree.child inKind)
      refine .intro ?_ below
      cases kindAt : schema.kind with
      | tuple elements rest =>
          rw [kind_sideOf_tuple kindAt]
          exact True.intro
      | struct fields indexes =>
          rw [kind_sideOf_struct kindAt]
          exact True.intro
      | union members =>
          have sides : ∀ view ∈ members.map (Schema.sideOf side),
              view.All (·.kind.StaysOn side) := by
            intro view inViews
            obtain ⟨member, inMembers, rfl⟩ := List.mem_map.mp inViews
            exact All.of_sides (below member (member_mem_children kindAt inMembers))
          have whole : ∀ id,
              (Schema.union id (members.map (Schema.sideOf side))).kind.StaysOn side :=
            kind_union True.intro (fun _ => True.intro)
              fun node inUnion => (All.unionMembers sides node inUnion).here
          rcases @sideOf_union side _ _ kindAt with ⟨same, _⟩ | rebuilt
          · rw [same, kindAt]
            exact True.intro
          · rw [rebuilt]
            cases side <;> exact whole _
      | lazy cell => exact absurd kindAt (lazyFree.here cell)
      | refinement source filter =>
          cases side with
          | input =>
              rw [inputSide_refinement kindAt]
              exact (below source (refined_mem_children kindAt)).here
          | output =>
              rw [kind_outputSide_refinement kindAt]
              exact rfl
      | transform source target decode encode strict =>
          cases side with
          | input =>
              rw [inputSide_transform kindAt]
              exact (below source (source_mem_children kindAt)).here
          | output =>
              rw [outputSide_transform kindAt]
              exact (below target (target_mem_children kindAt)).here
      | declaration parameters decode encode =>
          rw [kind_sideOf_declaration kindAt]
          exact True.intro
      | _ =>
          rw [sideOf_leaf (by rw [kindAt]; trivial), kindAt]
          exact True.intro

/-- Sides have nothing left in them that they would take away, and so they are their own sides; a
schema that has nothing of this in it is both its sides. -/
theorem sides_settle (schema : Schema) (lazyFree : schema.LazyFree) :
    schema.inputSide.All (fun node => ¬node.kind.IsTransform ∧ ¬node.kind.IsRefinement) ∧
      schema.outputSide.All (fun node => ¬node.kind.IsTransform) ∧
      schema.inputSide.inputSide = schema.inputSide ∧
      schema.outputSide.outputSide = schema.outputSide ∧
      (schema.All (fun node => ¬node.kind.IsTransform ∧ ¬node.kind.IsRefinement) →
        schema.inputSide = schema ∧ schema.outputSide = schema) := by
  have input : schema.inputSide.All (·.kind.StaysOn .input) := staysOn_sideOf lazyFree
  have output : schema.outputSide.All (·.kind.StaysOn .output) := staysOn_sideOf lazyFree
  refine ⟨?_, ?_, sideOf_of_staysOn input, sideOf_of_staysOn output, fun bare => ?_⟩
  · exact input.imp fun node stays => ⟨stays.not_isTransform, stays.not_isRefinement⟩
  · exact output.imp fun node stays => stays.not_isTransform
  · have stays : ∀ side, schema.All (·.kind.StaysOn side) := fun side =>
      (lazyFree.and bare).imp fun node here => Kind.staysOn_of_not here.1 here.2.1 here.2.2 side
    exact ⟨sideOf_of_staysOn (stays .input), sideOf_of_staysOn (stays .output)⟩

def price : Schema :=
  (union (.made 2) [numberFromString (.made 0) string,
    numberFromString (.made 1) (trimmed (.made 3) string)]).withIdentifier (.made 4) "Price"

def priceTable : Schema :=
  declare (.made 5) [plain (.made 6) (.struct [⟨.string "best", price, true⟩]
    [⟨trimmed (.made 7) string, price⟩])] dateHook dateHook

private theorem lazyFree_of_leaf (leaf : schema.kind.IsLeaf) : schema.LazyFree := by
  obtain ⟨id, annotations, kind⟩ := schema
  cases kind <;> first | exact leaf.elim | exact .intro nofun nofun

private theorem priceTable_lazyFree : priceTable.LazyFree := by
  have text : string.LazyFree := lazyFree_of_leaf trivial
  have ofNumber : number.LazyFree := lazyFree_of_leaf trivial
  have trimmedText : ∀ id, (trimmed id string).LazyFree := fun id =>
    .intro nofun (List.forall_mem_singleton.mpr text)
  have fromText : ∀ id {source : Schema}, source.LazyFree →
      (numberFromString id source).LazyFree := fun id source ofSource =>
    .intro nofun (List.forall_mem_cons.mpr ⟨ofSource, List.forall_mem_singleton.mpr ofNumber⟩)
  have ofPrice : price.LazyFree := by
    refine .intro nofun fun member inUnion => ?_
    change member ∈ [numberFromString (.made 0) string, numberFromString (.made 1) _] at inUnion
    simp only [List.mem_cons, List.not_mem_nil, or_false] at inUnion
    rcases inUnion with rfl | rfl
    · exact fromText _ text
    · exact fromText _ (trimmedText _)
  refine .intro nofun (List.forall_mem_singleton.mpr (.intro nofun fun part below => ?_))
  change part ∈ [price, trimmed (.made 7) string, price] at below
  simp only [List.mem_cons, List.not_mem_nil, or_false] at below
  rcases below with rfl | rfl | rfl
  · exact ofPrice
  · exact trimmedText _
  · exact ofPrice

/-- The two prices come down to one node on either side. The record of anything is both its sides from
the start. -/
theorem priceTable_settles :
    priceTable.LazyFree ∧
      priceTable.inputSide.All (fun node => ¬node.kind.IsTransform ∧ ¬node.kind.IsRefinement) ∧
      priceTable.outputSide.All (fun node => ¬node.kind.IsTransform) ∧
      priceTable.inputSide.inputSide = priceTable.inputSide ∧
      priceTable.outputSide.outputSide = priceTable.outputSide ∧
      unknownRecord.inputSide = unknownRecord ∧ unknownRecord.outputSide = unknownRecord := by
  obtain ⟨input, output, inputAgain, outputAgain, _⟩ := sides_settle priceTable priceTable_lazyFree
  have lazyFree : unknownRecord.LazyFree :=
    .intro nofun (List.forall_mem_cons.mpr ⟨lazyFree_of_leaf trivial,
      List.forall_mem_singleton.mpr (lazyFree_of_leaf trivial)⟩)
  have word : ∀ {schema : Schema} {keyword : Keyword}, schema.kind = .keyword keyword →
      schema.All fun node => ¬node.kind.IsTransform ∧ ¬node.kind.IsRefinement := by
    intro schema keyword isKeyword
    obtain ⟨id, annotations, kind⟩ := schema
    cases isKeyword
    exact .intro ⟨not_false, not_false⟩ nofun
  have bare : unknownRecord.All fun node => ¬node.kind.IsTransform ∧ ¬node.kind.IsRefinement :=
    .intro ⟨not_false, not_false⟩
      (List.forall_mem_cons.mpr ⟨word rfl, List.forall_mem_singleton.mpr (word rfl)⟩)
  obtain ⟨_, _, _, _, both⟩ := sides_settle unknownRecord lazyFree
  exact ⟨priceTable_lazyFree, input, output, inputAgain, outputAgain, both bare⟩

end Schema

end SchemaCodec
