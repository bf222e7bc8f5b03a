import SchemaCodec.Proofs.Schema.UnionMembers
import SchemaCodec.Schema.Side

/-!
What the sides of a schema look like. Apart from unions, transformations and the input side of
refinements, a side is the same kind of node over the sides of the schemas below. A property of
kinds that survives this one level holds throughout a side if it holds throughout the schema.
-/

namespace SchemaCodec

def Element.sideOf (side : Side) (element : Element Schema) : Element Schema :=
  ⟨element.schema.sideOf side, element.optional⟩

def Field.sideOf (side : Side) (field : Field Schema) : Field Schema :=
  ⟨field.name, field.schema.sideOf side, field.optional⟩

def IndexSignature.sideOf (side : Side) (index : IndexSignature Schema) : IndexSignature Schema :=
  ⟨index.parameter.sideOf side, index.schema.sideOf side⟩

def Kind.IsLeaf : Kind Schema → Prop
  | .keyword _ => True
  | .literal _ => True
  | .uniqueSymbol _ => True
  | .enums _ => True
  | .template _ => True
  | _ => False

/-- Neither a refinement nor a transformation nor a declaration. -/
def Kind.IsShape : Kind Schema → Prop
  | .refinement _ _ => False
  | .transform _ _ _ _ _ => False
  | .declaration _ _ _ => False
  | _ => True

namespace Schema

variable {side : Side}

/-! ### Lists of schemas -/

private theorem sideAll?_getD (schemas : List Schema) :
    (sideAll? side schemas).getD schemas = schemas.map (Schema.sideOf side) := by
  induction schemas with
  | nil => rfl
  | cons schema rest ih =>
      rw [List.map_cons, ← ih, Schema.sideOf, sideAll?]
      cases schema.side? side <;> cases sideAll? side rest <;> rfl

private theorem sideElements?_getD (elements : List (Element Schema)) :
    (sideElements? side elements).getD elements = elements.map (Element.sideOf side) := by
  induction elements with
  | nil => rfl
  | cons element rest ih =>
      rw [List.map_cons, ← ih, Element.sideOf, Schema.sideOf, sideElements?]
      cases element.schema.side? side <;> cases sideElements? side rest <;> rfl

private theorem sideFields?_getD (fields : List (Field Schema)) :
    (sideFields? side fields).getD fields = fields.map (Field.sideOf side) := by
  induction fields with
  | nil => rfl
  | cons field rest ih =>
      rw [List.map_cons, ← ih, Field.sideOf, Schema.sideOf, sideFields?]
      cases field.schema.side? side <;> cases sideFields? side rest <;> rfl

private theorem sideIndexes?_getD (indexes : List (IndexSignature Schema)) :
    (sideIndexes? side indexes).getD indexes = indexes.map (IndexSignature.sideOf side) := by
  induction indexes with
  | nil => rfl
  | cons index rest ih =>
      rw [List.map_cons, ← ih, IndexSignature.sideOf, Schema.sideOf, Schema.sideOf, sideIndexes?]
      cases index.parameter.side? side <;> cases index.schema.side? side <;>
        cases sideIndexes? side rest <;> rfl

/-! ### One level of a side -/

theorem isLeaf_of_kind {schema : Schema} {kind : Kind Schema} (kindAt : schema.kind = kind)
    (leaf : kind.IsLeaf) : schema.kind.IsLeaf :=
  kindAt ▸ leaf

theorem sideOf_leaf {schema : Schema} (leaf : schema.kind.IsLeaf) :
    schema.sideOf side = schema := by
  obtain ⟨id, annotations, kind⟩ := schema
  cases kind <;> first | rfl | exact leaf.elim

theorem kind_sideOf_tuple {schema : Schema} {elements : List (Element Schema)}
    {rest : List Schema} (isTuple : schema.kind = .tuple elements rest) :
    (schema.sideOf side).kind =
      .tuple (elements.map (Element.sideOf side)) (rest.map (Schema.sideOf side)) := by
  obtain ⟨id, annotations, kind⟩ := schema
  cases isTuple
  rw [← sideElements?_getD, ← sideAll?_getD, Schema.sideOf, side?]
  cases sideElements? side elements <;> cases sideAll? side rest <;> rfl

theorem kind_sideOf_struct {schema : Schema} {fields : List (Field Schema)}
    {indexes : List (IndexSignature Schema)} (isStruct : schema.kind = .struct fields indexes) :
    (schema.sideOf side).kind =
      .struct (fields.map (Field.sideOf side)) (indexes.map (IndexSignature.sideOf side)) := by
  obtain ⟨id, annotations, kind⟩ := schema
  cases isStruct
  rw [← sideFields?_getD, ← sideIndexes?_getD, Schema.sideOf, side?]
  cases sideFields? side fields <;> cases sideIndexes? side indexes <;> rfl

theorem children_tuple_sides (elements : List (Element Schema)) (rest : List Schema) :
    (Kind.tuple (elements.map (Element.sideOf side)) (rest.map (Schema.sideOf side))).children =
      (Kind.tuple elements rest).children.map (Schema.sideOf side) := by
  simp only [Kind.children, List.map_append, List.map_map]
  rfl

theorem children_struct_sides (fields : List (Field Schema))
    (indexes : List (IndexSignature Schema)) :
    (Kind.struct (fields.map (Field.sideOf side))
        (indexes.map (IndexSignature.sideOf side))).children =
      (Kind.struct fields indexes).children.map (Schema.sideOf side) := by
  simp only [Kind.children, List.map_append, List.map_map, List.flatMap_map, List.map_flatMap]
  rfl

theorem kind_sideOf_declaration {schema : Schema} {parameters : List Schema}
    {decode encode : Hook} (isDeclaration : schema.kind = .declaration parameters decode encode) :
    (schema.sideOf side).kind =
      .declaration (parameters.map (Schema.sideOf side)) decode encode := by
  obtain ⟨id, annotations, kind⟩ := schema
  cases isDeclaration
  rw [← sideAll?_getD, Schema.sideOf, side?]
  cases sideAll? side parameters <;> rfl

theorem kind_sideOf_lazy {schema : Schema} {cell : LazyCell} (isLazy : schema.kind = .lazy cell) :
    (schema.sideOf side).kind = .lazy (.side side (.side side schema.id) cell) := by
  obtain ⟨id, annotations, kind⟩ := schema
  cases isLazy
  rfl

theorem inputSide_refinement {schema source : Schema} {filter : Filter}
    (isRefinement : schema.kind = .refinement source filter) :
    schema.sideOf .input = source.sideOf .input := by
  obtain ⟨id, annotations, kind⟩ := schema
  cases isRefinement
  rfl

theorem inputSide_withoutRefinements (schema : Schema) :
    schema.withoutRefinements.sideOf .input = schema.sideOf .input := by
  induction schema using childInduction with
  | node schema ih =>
      obtain ⟨id, annotations, kind⟩ := schema
      cases kind with
      | refinement source filter => exact ih source (List.mem_singleton.mpr rfl)
      | _ => rfl

theorem kind_outputSide_refinement {schema source : Schema} {filter : Filter}
    (isRefinement : schema.kind = .refinement source filter) :
    (schema.sideOf .output).kind = .refinement (source.sideOf .output) filter := by
  obtain ⟨id, annotations, kind⟩ := schema
  cases isRefinement
  rw [Schema.sideOf, Schema.sideOf, side?]
  cases source.side? .output <;> rfl

theorem inputSide_transform {schema source target : Schema} {decode encode : Transformer}
    {strict : Bool} (isTransform : schema.kind = .transform source target decode encode strict) :
    schema.sideOf .input = source.sideOf .input := by
  obtain ⟨id, annotations, kind⟩ := schema
  cases isTransform
  rfl

theorem outputSide_transform {schema source target : Schema} {decode encode : Transformer}
    {strict : Bool} (isTransform : schema.kind = .transform source target decode encode strict) :
    schema.sideOf .output = target.sideOf .output := by
  obtain ⟨id, annotations, kind⟩ := schema
  cases isTransform
  rfl

/-- The side of a union is the union itself if no member changes, and else the union of the members'
sides, which keeps the annotations on the output side. -/
theorem sideOf_union {schema : Schema} {members : List Schema}
    (isUnion : schema.kind = .union members) :
    (schema.sideOf side = schema ∧ members.map (Schema.sideOf side) = members) ∨
    schema.sideOf side =
      match side with
      | .input => Schema.union (.side side schema.id) (members.map (Schema.sideOf side))
      | .output => (Schema.union (.side side schema.id)
          (members.map (Schema.sideOf side))).annotateAll (.side side schema.id)
            schema.annotations := by
  obtain ⟨id, annotations, kind⟩ := schema
  cases isUnion
  have projected := @sideAll?_getD side members
  rw [Schema.sideOf, side?]
  cases changed : sideAll? side members with
  | none =>
      rw [changed] at projected
      exact Or.inl ⟨rfl, projected.symm⟩
  | some others =>
      rw [changed] at projected
      change others = _ at projected
      rw [← projected]
      exact Or.inr (by cases side <;> rfl)

/-- A side is the schema itself, or a node of its own, or the side of the schema below, or the only
member that is left of a union. -/
theorem sideOf_cases (side : Side) (schema : Schema) :
    schema.sideOf side = schema ∨ (schema.sideOf side).id = .side side schema.id ∨
    (∃ child ∈ schema.kind.children, schema.sideOf side = child.sideOf side) ∨
    ∃ child ∈ schema.kind.children, schema.sideOf side ∈ (child.sideOf side).flattened := by
  cases kindAt : schema.kind with
  | union members =>
      rcases @sideOf_union side _ _ kindAt with ⟨same, _⟩ | rebuilt
      · exact Or.inl same
      · cases side with
        | output => exact Or.inr (Or.inl (by rw [rebuilt]; rfl))
        | input =>
            rw [rebuilt]
            rcases union_cases (.side .input schema.id) (members.map (Schema.sideOf .input)) with
              ⟨_, isNever⟩ | ⟨single, only, isSingle⟩ | isUnion
            · exact Or.inr (Or.inl (by simp only [isNever]; rfl))
            · have inUnion : single ∈ unionMembers (members.map (Schema.sideOf .input)) := by
                rw [only]
                exact List.mem_singleton.mpr rfl
              obtain ⟨viewed, inSides, inFlattened⟩ :=
                mem_flattenedAll.mp (mem_of_mem_unionMembers inUnion).1
              obtain ⟨member, inMembers, rfl⟩ := List.mem_map.mp inSides
              refine Or.inr (Or.inr (Or.inr ⟨member, inMembers, ?_⟩))
              simp only [isSingle]
              exact inFlattened
            · exact Or.inr (Or.inl (by simp only [isUnion]; rfl))
  | refinement source filter =>
      cases side with
      | input => exact Or.inr (Or.inr (Or.inl ⟨source, List.mem_singleton.mpr rfl,
          inputSide_refinement kindAt⟩))
      | output =>
          obtain ⟨id, annotations, kind⟩ := schema
          cases kindAt
          rw [Schema.sideOf, side?]
          cases source.side? .output <;> first | exact Or.inl rfl | exact Or.inr (Or.inl rfl)
  | transform source target decode encode strict =>
      refine Or.inr (Or.inr (Or.inl ?_))
      cases side with
      | input => exact ⟨source, List.mem_cons_self, inputSide_transform kindAt⟩
      | output =>
          exact ⟨target, List.mem_cons_of_mem _ List.mem_cons_self, outputSide_transform kindAt⟩
  | tuple elements rest =>
      obtain ⟨id, annotations, kind⟩ := schema
      cases kindAt
      rw [Schema.sideOf, side?]
      cases sideElements? side elements <;> cases sideAll? side rest <;>
        first | exact Or.inl rfl | exact Or.inr (Or.inl rfl)
  | struct fields indexes =>
      obtain ⟨id, annotations, kind⟩ := schema
      cases kindAt
      rw [Schema.sideOf, side?]
      cases sideFields? side fields <;> cases sideIndexes? side indexes <;>
        first | exact Or.inl rfl | exact Or.inr (Or.inl rfl)
  | declaration parameters decode encode =>
      obtain ⟨id, annotations, kind⟩ := schema
      cases kindAt
      rw [Schema.sideOf, side?]
      cases sideAll? side parameters <;> first | exact Or.inl rfl | exact Or.inr (Or.inl rfl)
  | lazy cell =>
      obtain ⟨id, annotations, kind⟩ := schema
      cases kindAt
      exact Or.inr (Or.inl rfl)
  | _ => exact Or.inl (sideOf_leaf (by rw [kindAt]; trivial))

/-- What decides about keys is a schema without parts, or a refinement of what does. -/
@[elab_as_elim]
theorem parameter_induction {motive : Schema → Prop} {schema : Schema}
    (parameter : schema.isParameter = true) (leaf : ∀ schema, schema.kind.IsLeaf → motive schema)
    (refinement : ∀ schema source filter, schema.kind = .refinement source filter →
      motive source → motive schema) : motive schema := by
  induction schema using childInduction with
  | node schema ih =>
      obtain ⟨id, annotations, kind⟩ := schema
      cases kind with
      | keyword keyword => exact leaf _ trivial
      | template template => exact leaf _ trivial
      | refinement source filter =>
          exact refinement _ source filter rfl (ih source (List.mem_singleton.mpr rfl) parameter)
      | _ => cases parameter

/-- What decides about keys has nothing to take away. -/
theorem sideOf_output_of_isParameter {schema : Schema} (parameter : schema.isParameter = true) :
    schema.sideOf .output = schema := by
  suffices unchanged : schema.side? .output = none by rw [Schema.sideOf, unchanged]; rfl
  refine parameter_induction parameter (fun schema leaf => ?_)
    (fun schema source filter isRefinement ih => ?_)
  · obtain ⟨id, annotations, kind⟩ := schema
    cases kind <;> first | rfl | exact leaf.elim
  · obtain ⟨id, annotations, kind⟩ := schema
    cases isRefinement
    rw [side?, ih]
    rfl

end Schema

/-! ### Properties that survive -/

/-- A property of kinds passes from a schema to the sides of it, level by level. -/
structure Kind.Projects (side : Side) (before after : Kind Schema → Prop) : Prop where
  leaf : ∀ kind, kind.IsLeaf → before kind → after kind
  tuple : ∀ elements rest, before (.tuple elements rest) →
    after (.tuple (elements.map (Element.sideOf side)) (rest.map (Schema.sideOf side)))
  struct : ∀ fields indexes, before (.struct fields indexes) →
    after (.struct (fields.map (Field.sideOf side)) (indexes.map (IndexSignature.sideOf side)))
  union : ∀ members kept, before (.union members) →
    after (.keyword .never) ∧ after (.union kept)
  lazy : ∀ cell id, before (.lazy cell) → after (.lazy (.side side id cell))
  refinement : ∀ source filter, before (.refinement source filter) →
    after (.refinement (source.sideOf side) filter)
  declaration : ∀ parameters decode encode, before (.declaration parameters decode encode) →
    after (.declaration (parameters.map (Schema.sideOf side)) decode encode)

/-- A side asks for what the schema asks for. -/
theorem Kind.asks_projects (side : Side) (holds : Schema → Prop) :
    Kind.Projects side (fun kind => ∀ other, kind.Asks other → holds other)
      fun kind => ∀ other, kind.Asks other → holds other where
  leaf _ _ here := here
  tuple _ _ _ := nofun
  struct _ _ _ := nofun
  union _ _ _ := ⟨nofun, nofun⟩
  lazy _ _ _ := nofun
  refinement _ _ _ := nofun
  declaration _ _ _ here := here

/-- The functions of a node are as asked, whatever the schemas below it. -/
def Kind.EachFunction (filters : Filter → Prop) (transformers : Transformer → Transformer → Prop)
    (hooks : Hook → Hook → Prop) : Kind Schema → Prop
  | .refinement _ filter => filters filter
  | .transform _ _ decode encode _ => transformers decode encode
  | .declaration _ decode encode => hooks decode encode
  | _ => True

theorem Kind.eachFunction_projects (side : Side) (filters : Filter → Prop)
    (transformers : Transformer → Transformer → Prop) (hooks : Hook → Hook → Prop) :
    Kind.Projects side (EachFunction filters transformers hooks)
      (EachFunction filters transformers hooks) where
  leaf _ _ here := here
  tuple _ _ _ := trivial
  struct _ _ _ := trivial
  union _ _ _ := ⟨trivial, trivial⟩
  lazy _ _ _ := trivial
  refinement _ _ here := here
  declaration _ _ _ here := here

namespace Schema

variable {side : Side} {before after : Kind Schema → Prop}

/-- A union of schemas is made of nothing but their nodes. -/
theorem All.unionMembers {holds : Schema → Prop} {schemas : List Schema}
    (each : ∀ schema ∈ schemas, schema.All holds) :
    ∀ node ∈ Schema.unionMembers schemas, node.All holds := by
  intro node member
  obtain ⟨schema, inList, inFlattened⟩ := mem_flattenedAll.mp (mem_of_mem_unionMembers member).1
  exact flattened_induction (fun schema below all under => all.child under) (each schema inList)
    inFlattened

theorem All.children_union {holds : Schema → Prop} {schemas : List Schema}
    (each : ∀ schema ∈ schemas, schema.All holds) (id : NodeId) :
    ∀ child ∈ (Schema.union id schemas).kind.children, child.All holds := by
  intro child below
  rcases union_cases id schemas with ⟨_, isNever⟩ | ⟨single, only, isSingle⟩ | isUnion
  · rw [isNever] at below
    cases below
  · rw [isSingle] at below
    have inUnion : single ∈ Schema.unionMembers schemas := by
      rw [only]
      exact List.mem_singleton.mpr rfl
    exact (All.unionMembers each single inUnion).child below
  · rw [isUnion] at below
    exact All.unionMembers each child below

/-- The nodes of a side are sides of nodes. -/
theorem All.of_sides {holds : Schema → Prop} {schema : Schema}
    (each : schema.All fun node => holds (node.sideOf side)) : (schema.sideOf side).All holds := by
  induction schema using childInduction with
  | node schema ih =>
      have children : ∀ child ∈ schema.kind.children, (child.sideOf side).All holds :=
        fun child below => ih child below (each.child below)
      cases kindAt : schema.kind with
      | tuple elements rest =>
          refine .intro each.here fun child below => ?_
          have viewed : (schema.sideOf side).kind = _ := kind_sideOf_tuple kindAt
          rw [viewed, children_tuple_sides] at below
          rw [kindAt] at children
          obtain ⟨original, inKind, rfl⟩ := List.mem_map.mp below
          exact children original inKind
      | struct fields indexes =>
          refine .intro each.here fun child below => ?_
          have viewed : (schema.sideOf side).kind = _ := kind_sideOf_struct kindAt
          rw [viewed, children_struct_sides] at below
          rw [kindAt] at children
          obtain ⟨original, inKind, rfl⟩ := List.mem_map.mp below
          exact children original inKind
      | union members =>
          refine .intro each.here fun child below => ?_
          rw [kindAt] at children
          have sides : ∀ projected ∈ members.map (Schema.sideOf side), projected.All holds := by
            intro projected member
            obtain ⟨original, inList, rfl⟩ := List.mem_map.mp member
            exact children original inList
          rcases @sideOf_union side _ _ kindAt with ⟨same, unchanged⟩ | rebuilt
          · rw [unchanged] at sides
            rw [same, kindAt] at below
            exact sides child below
          · rw [rebuilt] at below
            cases side with
            | input => exact All.children_union sides _ child below
            | output => exact All.children_union sides _ child below
      | lazy cell =>
          refine .intro each.here fun child below => ?_
          have viewed : (schema.sideOf side).kind = _ := kind_sideOf_lazy kindAt
          rw [viewed] at below
          cases below
      | refinement source filter =>
          have inner := children source (refined_mem_children kindAt)
          cases side with
          | input =>
              rw [inputSide_refinement kindAt]
              exact inner
          | output =>
              refine .intro each.here fun child below => ?_
              rw [kind_outputSide_refinement kindAt] at below
              rw [List.mem_singleton.mp below]
              exact inner
      | transform source target decode encode strict =>
          cases side with
          | input =>
              rw [inputSide_transform kindAt]
              exact children source (source_mem_children kindAt)
          | output =>
              rw [outputSide_transform kindAt]
              exact children target (target_mem_children kindAt)
      | declaration parameters decode encode =>
          refine .intro each.here fun child below => ?_
          have viewed : (schema.sideOf side).kind = _ := kind_sideOf_declaration kindAt
          rw [viewed] at below
          rw [kindAt] at children
          obtain ⟨original, inList, rfl⟩ := List.mem_map.mp below
          exact children original inList
      | _ =>
          have leaf : schema.kind.IsLeaf := by rw [kindAt]; trivial
          refine .intro each.here fun child below => ?_
          rw [sideOf_leaf leaf, kindAt] at below
          cases below

/-- The kinds of the sides of all nodes. -/
private theorem All.kind_sideOf {schema : Schema} (projects : Kind.Projects side before after)
    (all : schema.All (before ·.kind)) : schema.All fun node => after (node.sideOf side).kind := by
  induction schema using childInduction with
  | node schema ih =>
      have children : ∀ child ∈ schema.kind.children,
          child.All fun node => after (node.sideOf side).kind :=
        fun child below => ih child below (all.child below)
      refine .intro ?_ children
      have here := all.here
      cases kindAt : schema.kind with
      | tuple elements rest =>
          rw [kindAt] at here
          rw [kind_sideOf_tuple kindAt]
          exact projects.tuple _ _ here
      | struct fields indexes =>
          rw [kindAt] at here
          rw [kind_sideOf_struct kindAt]
          exact projects.struct _ _ here
      | union members =>
          rw [kindAt] at here children
          have sides : ∀ projected ∈ members.map (Schema.sideOf side),
              projected.All (after ·.kind) := by
            intro projected member
            obtain ⟨original, inList, rfl⟩ := List.mem_map.mp member
            exact All.of_sides (children original inList)
          have whole : ∀ id, after (Schema.union id (members.map (Schema.sideOf side))).kind :=
            kind_union (projects.union members [] here).1
              (fun kept => (projects.union members kept here).2)
              fun node inUnion => (All.unionMembers sides node inUnion).here
          rcases @sideOf_union side _ _ kindAt with ⟨same, _⟩ | rebuilt
          · rw [same, kindAt]
            exact (projects.union members members here).2
          · rw [rebuilt]
            cases side with
            | input => exact whole _
            | output => exact whole _
      | lazy cell =>
          rw [kindAt] at here
          rw [kind_sideOf_lazy kindAt]
          exact projects.lazy _ _ here
      | refinement source filter =>
          rw [kindAt] at here
          cases side with
          | input =>
              rw [inputSide_refinement kindAt]
              exact (children source (refined_mem_children kindAt)).here
          | output =>
              rw [kind_outputSide_refinement kindAt]
              exact projects.refinement _ _ here
      | transform source target decode encode strict =>
          cases side with
          | input =>
              rw [inputSide_transform kindAt]
              exact (children source (source_mem_children kindAt)).here
          | output =>
              rw [outputSide_transform kindAt]
              exact (children target (target_mem_children kindAt)).here
      | declaration parameters decode encode =>
          rw [kindAt] at here
          rw [kind_sideOf_declaration kindAt]
          exact projects.declaration _ _ _ here
      | _ =>
          have leaf : schema.kind.IsLeaf := by rw [kindAt]; trivial
          rw [sideOf_leaf leaf]
          exact projects.leaf _ leaf here

theorem All.sideOf {schema : Schema} (projects : Kind.Projects side before after)
    (all : schema.All (before ·.kind)) : (schema.sideOf side).All (after ·.kind) :=
  All.of_sides (all.kind_sideOf projects)

/-- What holds of all kinds that can be come to from a schema passes to all kinds that can be come
to from its sides, if it passes to what its hooks ask for. -/
theorem Throughout.sideOf_of_asked {targets : Targets} {root : Schema}
    (projects : Kind.Projects side before after)
    (asked : ∀ parameters decode encode other, before (.declaration parameters decode encode) →
      Hook.Asks decode other ∨ Hook.Asks encode other →
      other.Throughout targets (before ·.kind) → other.Throughout targets (after ·.kind))
    (throughout : root.Throughout targets (before ·.kind)) :
    (root.sideOf side).Throughout targets (after ·.kind) := by
  let family : Schema → Prop := fun schema =>
    (∃ origin : Schema, origin.Throughout targets (before ·.kind) ∧ schema = origin.sideOf side) ∨
      schema.Throughout targets (after ·.kind)
  refine throughout_of_family family ?_ (Or.inl ⟨root, throughout, rfl⟩)
  rintro schema (⟨origin, originThroughout, rfl⟩ | already)
  · have lifted : Kind.Projects side
        (fun kind => before kind ∧ ∀ other, kind.LeadsTo targets other →
          other.Throughout targets (before ·.kind))
        (fun kind => after kind ∧ ∀ other, kind.LeadsTo targets other → family other) :=
      { leaf := fun kind leaf here =>
          ⟨projects.leaf kind leaf here.1, fun _ leads => by
            cases kind <;> first | exact leaf.elim | exact leads.elim⟩
        tuple := fun _ _ here => ⟨projects.tuple _ _ here.1, fun _ leads => leads.elim⟩
        struct := fun _ _ here => ⟨projects.struct _ _ here.1, fun _ leads => leads.elim⟩
        union := fun members kept here =>
          ⟨⟨(projects.union members kept here.1).1, fun _ leads => leads.elim⟩,
            ⟨(projects.union members kept here.1).2, fun _ leads => leads.elim⟩⟩
        lazy := fun cell id here => ⟨projects.lazy cell id here.1, fun other leads => by
          cases leads
          exact Or.inl ⟨cell.resolve targets, here.2 _ rfl, rfl⟩⟩
        refinement := fun _ _ here => ⟨projects.refinement _ _ here.1, fun _ leads => leads.elim⟩
        declaration := fun _ _ _ here =>
          ⟨projects.declaration _ _ _ here.1, fun other asks =>
            Or.inr (asked _ _ _ other here.1 asks (here.2 other asks))⟩ }
    exact All.sideOf lifted originThroughout.all
  · exact already.all.imp fun _ here => ⟨here.1, fun other leads => Or.inr (here.2 other leads)⟩

theorem Throughout.sideOf {holds : Kind Schema → Prop} {targets : Targets} {root : Schema}
    (projects : Kind.Projects side holds holds)
    (throughout : root.Throughout targets (holds ·.kind)) :
    (root.sideOf side).Throughout targets (holds ·.kind) :=
  throughout.sideOf_of_asked projects fun _ _ _ _ _ _ throughout => throughout

end Schema

end SchemaCodec
