import SchemaCodec.Run.Parse

/-!
Schemas as trees and as graphs. Induction goes over the schemas one level below a node. What holds
at every node of the tree is a property of the finite schema; what holds throughout also counts the
nodes behind lazy ones, which may lead back to where they started.
-/

namespace SchemaCodec

namespace Schema

/-! ### Induction -/

theorem sizeOf_child_lt {schema child : Schema} (below : child ∈ schema.kind.children) :
    sizeOf child < sizeOf schema := by
  obtain ⟨id, annotations, kind⟩ := schema
  change child ∈ kind.children at below
  rw [Schema.node.sizeOf_spec]
  suffices inKind : sizeOf child < sizeOf kind by omega
  cases kind with
  | keyword _ => cases below
  | literal _ => cases below
  | uniqueSymbol _ => cases below
  | enums _ => cases below
  | template _ => cases below
  | lazy _ => cases below
  | tuple elements rest =>
      rw [Kind.tuple.sizeOf_spec]
      rcases List.mem_append.mp below with element | trailing
      · obtain ⟨entry, member, rfl⟩ := List.mem_map.mp element
        have inList := List.sizeOf_lt_of_mem member
        have inEntry : sizeOf entry.schema < sizeOf entry := by
          cases entry
          simp only [Element.mk.sizeOf_spec]
          omega
        omega
      · have inList := List.sizeOf_lt_of_mem trailing
        omega
  | struct fields indexes =>
      rw [Kind.struct.sizeOf_spec]
      rcases List.mem_append.mp below with field | index
      · obtain ⟨entry, member, rfl⟩ := List.mem_map.mp field
        have inList := List.sizeOf_lt_of_mem member
        have inEntry : sizeOf entry.schema < sizeOf entry := by
          cases entry
          simp only [Field.mk.sizeOf_spec]
          omega
        omega
      · obtain ⟨entry, member, part⟩ := List.mem_flatMap.mp index
        have inList := List.sizeOf_lt_of_mem member
        have inEntry : sizeOf child < sizeOf entry := by
          cases entry
          simp only [List.mem_cons, List.not_mem_nil, or_false] at part
          rcases part with rfl | rfl <;> simp only [IndexSignature.mk.sizeOf_spec] <;> omega
        omega
  | union members =>
      rw [Kind.union.sizeOf_spec]
      have inList : sizeOf child < sizeOf members := List.sizeOf_lt_of_mem below
      omega
  | refinement source filter =>
      rw [Kind.refinement.sizeOf_spec]
      rw [List.mem_singleton.mp below]
      omega
  | transform source target decode encode strict =>
      rw [Kind.transform.sizeOf_spec]
      simp only [Kind.children, List.mem_cons, List.not_mem_nil, or_false] at below
      rcases below with rfl | rfl <;> omega
  | declaration parameters decode encode =>
      rw [Kind.declaration.sizeOf_spec]
      have inList : sizeOf child < sizeOf parameters := List.sizeOf_lt_of_mem below
      omega

/-- Induction over the schemas one level below. -/
theorem childInduction {motive : Schema → Prop}
    (node : ∀ schema, (∀ child ∈ schema.kind.children, motive child) → motive schema)
    (schema : Schema) : motive schema :=
  node schema fun child _below => childInduction node child
termination_by sizeOf schema
decreasing_by exact sizeOf_child_lt _below

/-! ### One level below -/

section Children

variable {schema source target : Schema}

theorem field_mem_struct {fields : List (Field Schema)} {indexes : List (IndexSignature Schema)}
    {field : Field Schema} (inFields : field ∈ fields) :
    field.schema ∈ (Kind.struct fields indexes).children :=
  List.mem_append_left _ (List.mem_map_of_mem inFields)

theorem index_mem_struct {fields : List (Field Schema)} {indexes : List (IndexSignature Schema)}
    {index : IndexSignature Schema} (inIndexes : index ∈ indexes) :
    index.parameter ∈ (Kind.struct fields indexes).children ∧
      index.schema ∈ (Kind.struct fields indexes).children := by
  have inside : ∀ part ∈ [index.parameter, index.schema],
      part ∈ (Kind.struct fields indexes).children := fun part among =>
    List.mem_append_right _ (List.mem_flatMap.mpr ⟨index, inIndexes, among⟩)
  exact ⟨inside _ List.mem_cons_self, inside _ (List.mem_cons_of_mem _ List.mem_cons_self)⟩

theorem field_mem_children {fields : List (Field Schema)} {indexes : List (IndexSignature Schema)}
    (isStruct : schema.kind = .struct fields indexes) {field : Field Schema}
    (inFields : field ∈ fields) : field.schema ∈ schema.kind.children := by
  rw [isStruct]
  exact field_mem_struct inFields

theorem index_mem_children {fields : List (Field Schema)} {indexes : List (IndexSignature Schema)}
    (isStruct : schema.kind = .struct fields indexes) {index : IndexSignature Schema}
    (inIndexes : index ∈ indexes) :
    index.parameter ∈ schema.kind.children ∧ index.schema ∈ schema.kind.children := by
  rw [isStruct]
  exact index_mem_struct inIndexes

theorem member_mem_children {members : List Schema} (isUnion : schema.kind = .union members)
    {member : Schema} (inMembers : member ∈ members) : member ∈ schema.kind.children := by
  rw [isUnion]
  exact inMembers

theorem refined_mem_children {filter : Filter}
    (isRefinement : schema.kind = .refinement source filter) : source ∈ schema.kind.children := by
  rw [isRefinement]
  exact List.mem_singleton.mpr rfl

theorem source_mem_children {decode encode : Transformer} {strict : Bool}
    (isTransform : schema.kind = .transform source target decode encode strict) :
    source ∈ schema.kind.children := by
  rw [isTransform]
  exact List.mem_cons_self

theorem target_mem_children {decode encode : Transformer} {strict : Bool}
    (isTransform : schema.kind = .transform source target decode encode strict) :
    target ∈ schema.kind.children := by
  rw [isTransform]
  exact List.mem_cons_of_mem _ List.mem_cons_self

theorem withoutRefinements_of_refinement {filter : Filter}
    (isRefinement : schema.kind = .refinement source filter) :
    schema.withoutRefinements = source.withoutRefinements := by
  obtain ⟨id, annotations, kind⟩ := schema
  cases isRefinement
  rfl

theorem withoutRefinements_of_ne
    (notRefinement : ∀ source filter, schema.kind ≠ .refinement source filter) :
    schema.withoutRefinements = schema := by
  obtain ⟨id, annotations, kind⟩ := schema
  cases kind with
  | refinement source filter => exact absurd rfl (notRefinement source filter)
  | _ => rfl

end Children

/-! ### Every node of the tree -/

/-- The property holds at the schema and at all schemas below it; lazy nodes are not entered. -/
inductive All (holds : Schema → Prop) : Schema → Prop where
  | intro {schema : Schema} (here : holds schema)
      (below : ∀ child ∈ schema.kind.children, All holds child) : All holds schema

namespace All

variable {holds : Schema → Prop} {schema : Schema}

theorem here (all : schema.All holds) : holds schema := by
  cases all with
  | intro here _ => exact here

theorem child (all : schema.All holds) {child : Schema} (below : child ∈ schema.kind.children) :
    child.All holds := by
  cases all with
  | intro _ children => exact children child below

theorem imp {also : Schema → Prop} (all : schema.All holds)
    (implies : ∀ node, holds node → also node) : schema.All also := by
  induction all with
  | intro here _ ih => exact .intro (implies _ here) ih

end All

/-- No lazy node is in the schema. -/
def LazyFree (schema : Schema) : Prop :=
  schema.All fun node => ∀ cell, node.kind ≠ .lazy cell

/-! ### Every node of the graph -/

end Schema

/-- The hook may ask for a value to be run against the schema, which is no parameter. -/
def HookStepOver.Asks {σ : Type} (asked : σ) : HookStepOver σ → Prop
  | .done _ => False
  | .parse _ _ resume => ∃ outcome, (resume outcome).Asks asked
  | .parseBy schema _ resume => schema = asked ∨ ∃ outcome, (resume outcome).Asks asked

def Hook.Asks (hook : Hook) (asked : Schema) : Prop :=
  ∃ options direction expected value, (hook options direction expected value).Asks asked

namespace Kind

/-- A hook of the node may ask for the schema, beside the parameters. -/
def Asks : Kind Schema → Schema → Prop
  | .declaration _ decode encode, other => Hook.Asks decode other ∨ Hook.Asks encode other
  | _, _ => False

theorem asks_of_chosen {parameters : List Schema} {decode encode : Hook} {direction : Direction}
    {options : Options} {expected : Expected} {value : Value} {other : Schema}
    (asks : (match direction with
      | .decode => decode
      | .encode => encode : Hook) options direction expected value |>.Asks other) :
    (Kind.declaration parameters decode encode).Asks other := by
  cases direction with
  | decode => exact Or.inl ⟨_, _, _, _, asks⟩
  | encode => exact Or.inr ⟨_, _, _, _, asks⟩

/-- The ways on that do not go down: into a lazy node, and to what hooks ask for. -/
def LeadsTo (targets : Targets) : Kind Schema → Schema → Prop
  | .lazy cell, other => other = cell.resolve targets
  | .declaration parameters decode encode, other =>
    (Kind.declaration parameters decode encode).Asks other
  | _, _ => False

theorem asks_or_lazy {targets : Targets} {kind : Kind Schema} {other : Schema}
    (leads : kind.LeadsTo targets other) :
    kind.Asks other ∨ ∃ cell, kind = .lazy cell ∧ other = cell.resolve targets := by
  cases kind with
  | lazy cell => exact Or.inr ⟨cell, rfl, leads⟩
  | declaration _ _ _ => exact Or.inl leads
  | _ => exact leads.elim

end Kind

namespace Schema

/-- The nodes that can be come to from a schema: by going down, by entering lazy nodes, and by going
to what hooks ask for. -/
inductive Reaches (targets : Targets) (root : Schema) : Schema → Prop where
  | root : Reaches targets root root
  | child {node child : Schema} (reached : Reaches targets root node)
      (below : child ∈ node.kind.children) : Reaches targets root child
  | leads {node other : Schema} (reached : Reaches targets root node)
      (leads : node.kind.LeadsTo targets other) : Reaches targets root other

/-- The property holds at every node that can be come to. -/
def Throughout (targets : Targets) (holds : Schema → Prop) (root : Schema) : Prop :=
  ∀ node, root.Reaches targets node → holds node

private theorem leadsTo_of_asks {targets : Targets} {kind : Kind Schema} {other : Schema}
    (asks : kind.Asks other) : kind.LeadsTo targets other := by
  cases kind with
  | declaration _ _ _ => exact asks
  | _ => exact asks.elim

private theorem leadsTo_of_lazy {targets : Targets} {schema : Schema} {cell : LazyCell}
    (isLazy : schema.kind = .lazy cell) : schema.kind.LeadsTo targets (cell.resolve targets) := by
  rw [isLazy]
  rfl

theorem not_lazy_of_closed {targets : Targets} {schema : Schema}
    (closed : ∀ other, ¬schema.kind.LeadsTo targets other) (cell : LazyCell) :
    schema.kind ≠ .lazy cell :=
  fun isLazy => closed _ (leadsTo_of_lazy isLazy)

namespace Reaches

variable {targets : Targets} {root middle node : Schema}

theorem enter {cell : LazyCell} (reached : root.Reaches targets node)
    (isLazy : node.kind = .lazy cell) : root.Reaches targets (cell.resolve targets) :=
  reached.leads (leadsTo_of_lazy isLazy)

theorem trans (first : root.Reaches targets middle) (second : middle.Reaches targets node) :
    root.Reaches targets node := by
  induction second with
  | root => exact first
  | child _ below ih => exact ih.child below
  | leads _ leads ih => exact ih.leads leads

theorem withoutRefinements (schema : Schema) :
    schema.Reaches targets schema.withoutRefinements := by
  induction schema using childInduction with
  | node schema ih =>
      obtain ⟨id, annotations, kind⟩ := schema
      cases kind with
      | refinement source filter =>
          have below : source ∈ (Schema.node id annotations
              (.refinement source filter)).kind.children := List.mem_singleton.mpr rfl
          simp only [Schema.withoutRefinements]
          exact (Reaches.child .root below).trans (ih source below)
      | _ => exact .root

end Reaches

namespace Throughout

variable {targets : Targets} {holds : Schema → Prop} {root : Schema}

theorem here (throughout : root.Throughout targets holds) : holds root :=
  throughout root .root

theorem of_reaches {node : Schema} (throughout : root.Throughout targets holds)
    (reached : root.Reaches targets node) : node.Throughout targets holds :=
  fun other later => throughout other (reached.trans later)

theorem child {child : Schema} (throughout : root.Throughout targets holds)
    (below : child ∈ root.kind.children) : child.Throughout targets holds :=
  throughout.of_reaches (.child .root below)

theorem leads {other : Schema} (throughout : root.Throughout targets holds)
    (leads : root.kind.LeadsTo targets other) : other.Throughout targets holds :=
  throughout.of_reaches (.leads .root leads)

theorem enter {cell : LazyCell} (throughout : root.Throughout targets holds)
    (isLazy : root.kind = .lazy cell) : (cell.resolve targets).Throughout targets holds :=
  throughout.leads (leadsTo_of_lazy isLazy)

theorem asked {other : Schema} (throughout : root.Throughout targets holds)
    (asks : root.kind.Asks other) : other.Throughout targets holds :=
  throughout.leads (leadsTo_of_asks asks)

theorem withoutRefinements (throughout : root.Throughout targets holds) :
    root.withoutRefinements.Throughout targets holds :=
  throughout.of_reaches (.withoutRefinements root)

/-- Read level by level: the nodes of the tree have the property, and so have the nodes behind its
lazy ones and those that its hooks ask for. -/
theorem all (throughout : root.Throughout targets holds) :
    root.All fun node => holds node ∧ ∀ other, node.kind.LeadsTo targets other →
      other.Throughout targets holds := by
  induction root using childInduction with
  | node root ih =>
      exact .intro ⟨throughout.here, fun _ leads => throughout.leads leads⟩
        fun child below => ih child below (throughout.child below)

end Throughout

/-- What holds at a node that leads nowhere and throughout the schemas below it holds throughout. -/
theorem Throughout.intro {targets : Targets} {holds : Schema → Prop} {root : Schema}
    (here : holds root) (closed : ∀ other, ¬root.kind.LeadsTo targets other)
    (below : ∀ child ∈ root.kind.children, child.Throughout targets holds) :
    root.Throughout targets holds := by
  have first : ∀ node, root.Reaches targets node →
      node = root ∨ ∃ child ∈ root.kind.children, child.Reaches targets node := by
    intro node reached
    induction reached with
    | root => exact Or.inl rfl
    | child _ inNode ih =>
        rcases ih with rfl | ⟨child, inRoot, later⟩
        · exact Or.inr ⟨_, inNode, .root⟩
        · exact Or.inr ⟨child, inRoot, later.child inNode⟩
    | leads _ leads ih =>
        rcases ih with rfl | ⟨child, inRoot, later⟩
        · exact absurd leads (closed _)
        · exact Or.inr ⟨child, inRoot, later.leads leads⟩
  intro node reached
  rcases first node reached with rfl | ⟨child, inRoot, later⟩
  · exact here
  · exact below child inRoot node later

/-- A family of schemas that holds all that its members lead to has a property throughout as soon as
the trees of its members have it. -/
theorem throughout_of_family {targets : Targets} {holds : Schema → Prop} (family : Schema → Prop)
    (trees : ∀ schema, family schema → schema.All fun node => holds node ∧
      ∀ other, node.kind.LeadsTo targets other → family other)
    {schema : Schema} (member : family schema) : schema.Throughout targets holds := by
  have reachedTrees : ∀ node, schema.Reaches targets node → node.All fun node => holds node ∧
      ∀ other, node.kind.LeadsTo targets other → family other := by
    intro node reached
    induction reached with
    | root => exact trees schema member
    | child _ below ih => exact ih.child below
    | leads _ leads ih => exact trees _ (ih.here.2 _ leads)
  exact fun node reached => (reachedTrees node reached).here.1

/-- A list that is closed under all ways on holds all there is. -/
theorem Throughout.of_targets {targets : Targets} {holds : Schema → Prop} {root : Schema}
    (nodes : List Schema) (children : nodes.flatMap (·.kind.children) ⊆ nodes)
    (each : ∀ node ∈ nodes,
      (∀ other, node.kind.LeadsTo targets other → other ∈ nodes) ∧ holds node)
    (member : root ∈ nodes) : root.Throughout targets holds := by
  have inNodes : ∀ node, root.Reaches targets node → node ∈ nodes := by
    intro node reached
    induction reached with
    | root => exact member
    | child _ below ih => exact children (List.mem_flatMap.mpr ⟨_, ih, below⟩)
    | leads _ leads ih => exact (each _ ih).1 _ leads
  exact fun node reached => (each node (inNodes node reached)).2

theorem Throughout.of_closed {targets : Targets} {holds : Schema → Prop} {root : Schema}
    (nodes : List Schema) (children : nodes.flatMap (·.kind.children) ⊆ nodes)
    (each : ∀ node ∈ nodes, (∀ other, ¬node.kind.LeadsTo targets other) ∧ holds node)
    (member : root ∈ nodes) : root.Throughout targets holds := by
  refine .of_targets nodes children (fun node inNodes => ?_) member
  obtain ⟨closed, here⟩ := each node inNodes
  exact ⟨fun other leads => absurd leads (closed other), here⟩

theorem Throughout.of_keyword {targets : Targets} {holds : Schema → Prop} {schema : Schema}
    {keyword : Keyword} (isKeyword : schema.kind = .keyword keyword) (here : holds schema) :
    schema.Throughout targets holds := by
  refine throughout_of_family (fun other => other = schema) ?_ rfl
  rintro _ rfl
  refine .intro ⟨here, fun other leads => ?_⟩ fun child below => ?_
  · rw [isKeyword] at leads
    exact leads.elim
  · rw [isKeyword] at below
    cases below

end Schema

end SchemaCodec
