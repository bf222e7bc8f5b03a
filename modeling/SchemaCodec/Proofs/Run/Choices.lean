import SchemaCodec.Proofs.Run.Records
import SchemaCodec.Proofs.Run.UnionSearch
import SchemaCodec.Proofs.Schema.Distribution

/-!
Runs of what a schema chooses from. Where a schema succeeds one of its choices does; where it fails all
those fail that are not left out by their tags. With this what is known of structs and tuples becomes
known of unions of these, however they are nested and annotated.
-/

namespace SchemaCodec

namespace Schema

variable {targets : Targets}

theorem Throughout.nested {holds : Schema → Prop} {schema node : Schema}
    (throughout : schema.Throughout targets holds) (nested : schema.Nested node) :
    node.Throughout targets holds :=
  nested.induction (fun _ _ here below => here.child below) throughout

theorem Derived.nested {roots : List Schema} {schema node : Schema} (derived : Derived roots schema)
    (nested : schema.Nested node) : Derived roots node :=
  nested.induction (fun _ _ here below => here.child below) derived

private theorem Throughout.of_union {holds : Schema → Prop} {node : Schema} {members : List Schema}
    (isUnion : node.kind = .union members) (here : holds node)
    (each : ∀ member ∈ members, member.Throughout targets holds) :
    node.Throughout targets holds := by
  refine .intro here (fun other leads => ?_) fun child below => ?_
  · rw [isUnion] at leads
    exact leads
  · rw [isUnion] at below
    exact each child below

end Schema

namespace Run

open Schema

variable {targets : Targets} {settings : Settings}

theorem Succeeds.failingFast {schema : Schema} (regular : Regular targets schema) {value : Value}
    (succeeds : Succeeds targets settings schema value) :
    Succeeds targets settings.failingFast schema value := by
  obtain ⟨result, ran⟩ := succeeds
  obtain ⟨other, stopped, alike⟩ := failingFast_alike regular ran
  cases alike
  exact ⟨result, stopped⟩

theorem Rejects.failingFast {schema : Schema} (regular : Regular targets schema) {value : Value}
    (rejects : Rejects targets settings schema value) :
    Rejects targets settings.failingFast schema value := by
  obtain ⟨faults, failed⟩ := rejects
  obtain ⟨other, stopped, alike⟩ := failingFast_alike regular failed
  cases alike
  exact ⟨_, stopped⟩

/-! ### Choices -/

theorem exists_choice_of_succeeds {schema : Schema} {input : Value}
    (succeeds : Succeeds targets settings.failingFast schema input) :
    ∃ choice ∈ schema.choices, Succeeds targets settings.failingFast choice input := by
  obtain ⟨value, ran⟩ := succeeds
  induction schema using childInduction with
  | node schema ih =>
      by_cases isUnion : ∃ members, schema.kind = .union members
      · obtain ⟨members, isUnion⟩ := isUnion
        obtain ⟨member, inMembers, memberRan⟩ := exists_of_union_ok ((yields_union isUnion).mp ran)
        obtain ⟨choice, inChoices, succeeds⟩ :=
          ih member (member_mem_children isUnion inMembers) (outcome?_eq_some.mp memberRan)
        rw [choices_of_union isUnion]
        exact ⟨choice, List.mem_flatMap.mpr ⟨member, inMembers, inChoices⟩, succeeds⟩
      · rw [choices_of_not_union fun members same => isUnion ⟨members, same⟩]
        exact ⟨schema, List.mem_singleton.mpr rfl, value, ran⟩

/-- A schema does not fail if a node in it does not whose tags the input has. -/
theorem not_rejects_of_nested {schema node : Schema} (regular : Regular targets schema)
    (nested : schema.Nested node) {input : Value}
    (fits : ∀ tag ∈ node.tags settings.direction, tag.Fits input)
    (passes : ¬Rejects targets settings.failingFast node input) :
    ¬Rejects targets settings schema input := by
  intro rejects
  obtain ⟨faults, failed⟩ := rejects.failingFast regular
  exact passes (error_of_nested nested fits failed)

/-- Where a node in a schema succeeds the schema does not fail. -/
theorem not_rejects_of_succeeds {roots : List Schema} (tell : IdentitiesTell roots)
    {schema node : Schema} (derived : Derived roots node) (regular : Regular targets schema)
    (nested : schema.Nested node) {input : Value}
    (succeeds : Succeeds targets settings.failingFast node input) :
    ¬Rejects targets settings schema input := by
  obtain ⟨value, ran⟩ := succeeds
  exact not_rejects_of_nested regular nested (fun tag inTags => fits_of_run tell derived ran inTags)
    ran.not_rejects

theorem regular_never {node : Schema} (isNever : node.kind = .keyword .never) :
    Regular targets node := by
  refine .of_keyword isNever ?_
  rw [isNever]
  exact ⟨trivial, trivial⟩

theorem regular_union {node : Schema} {members : List Schema}
    (isUnion : node.kind = .union members) (each : ∀ member ∈ members, Regular targets member) :
    Regular targets node := by
  refine Throughout.of_union isUnion ?_ each
  rw [isUnion]
  exact ⟨trivial, trivial⟩

theorem regular_unionOf {schemas : List Schema} (each : ∀ schema ∈ schemas, Regular targets schema)
    (id : NodeId) : Regular targets (Schema.union id schemas) :=
  union_induction (fun _ => regular_never) (fun _ _ => regular_union)
    (fun schema inSchemas _ nested => (each schema inSchemas).nested nested) id

/-- Where one of several schemas succeeds their union does not fail. -/
theorem union_not_rejects {roots : List Schema} (tell : IdentitiesTell roots)
    {schemas : List Schema} (derived : ∀ schema ∈ schemas, Derived roots schema)
    (regular : ∀ schema ∈ schemas, Regular targets schema) {schema : Schema}
    (inSchemas : schema ∈ schemas) {input : Value}
    (succeeds : Succeeds targets settings schema input) (id : NodeId) :
    ¬Rejects targets settings (Schema.union id schemas) input := by
  obtain ⟨value, ran⟩ := succeeds.failingFast (regular schema inSchemas)
  obtain ⟨member, inFlattened, memberRan⟩ := exists_flattened_of_ok ran
  have inAll := mem_flattenedAll.mpr ⟨schema, inSchemas, inFlattened⟩
  have kept := tell.mem_unionMembers derived inAll (isNever_of_ok memberRan)
  exact not_rejects_of_succeeds tell (Derived.flattenedAll derived inAll) (regular_unionOf regular id)
    (nested_of_flattened (mem_flattened_union kept)) ⟨value, memberRan⟩

/-! ### Ends -/

/-- Where recursion is guarded nothing goes on for ever. -/
theorem alwaysEnds_of_guarded {schema : Schema}
    (guarded : schema.Throughout targets fun node =>
      (∀ side, node.Guarded targets side) ∧ node.kind.Contained) :
    schema.Throughout targets (AlwaysEnds targets) :=
  fun _ reached settings value =>
    ends_of_guarded (fun other later => guarded other (reached.trans later)) settings value

theorem alwaysEnds_of_lazyFree {schema : Schema}
    (lazyFree : schema.Throughout targets fun node =>
      node.kind.Contained ∧ ∀ cell, node.kind ≠ .lazy cell) :
    schema.Throughout targets (AlwaysEnds targets) := by
  have guarded : ∀ side, schema.Throughout targets (Guarded targets side) :=
    fun side => throughout_guarded fun node reached => (lazyFree node reached).2
  exact alwaysEnds_of_guarded fun node reached =>
    ⟨fun side => guarded side node reached, (lazyFree node reached).1⟩

/-- What of a node can be seen on the node itself: it is well formed, its functions do not look at the
fault mode, and there is nothing to go round in. -/
structure Tame (kind : Kind Schema) : Prop where
  formed : kind.WellFormed
  ignores : kind.IgnoresFaultMode
  contained : kind.Contained
  notLazy : ∀ cell, kind ≠ .lazy cell

namespace Tame

theorem leaf {kind : Kind Schema} (isLeaf : kind.IsLeaf) : Tame kind := by
  cases kind <;> first | exact isLeaf.elim | exact ⟨trivial, trivial, trivial, nofun⟩

theorem union (members : List Schema) : Tame (.union members) :=
  ⟨trivial, trivial, trivial, nofun⟩

theorem tuple (elements : List (Element Schema)) (rest : List Schema) : Tame (.tuple elements rest) :=
  ⟨trivial, trivial, trivial, nofun⟩

theorem single (field : Field Schema) : Tame (.struct [field] []) :=
  ⟨⟨List.nodup_singleton _, nofun⟩, trivial, trivial, nofun⟩

private theorem leads_nowhere {kind : Kind Schema} (tame : Tame kind) (other : Schema) :
    ¬kind.LeadsTo targets other := by
  intro leads
  obtain ⟨cell, isLazy, _⟩ := tame.contained.withoutRequests.exists_lazy leads
  exact tame.notLazy cell isLazy

theorem of_closed (nodes : List Schema) (closed : nodes.flatMap (·.kind.children) ⊆ nodes)
    (tame : ∀ node ∈ nodes, Tame node.kind) {schema : Schema} (member : schema ∈ nodes) :
    schema.Throughout targets fun node => Tame node.kind :=
  .of_closed nodes closed (fun node inNodes => ⟨(tame node inNodes).leads_nowhere, tame node inNodes⟩)
    member

theorem regular {schema : Schema} (tame : schema.Throughout targets fun node => Tame node.kind) :
    Regular targets schema :=
  fun node reached => ⟨(tame node reached).formed, (tame node reached).ignores⟩

theorem alwaysEnds {schema : Schema} (tame : schema.Throughout targets fun node => Tame node.kind) :
    schema.Throughout targets (AlwaysEnds targets) :=
  alwaysEnds_of_lazyFree fun node reached =>
    ⟨(tame node reached).contained, (tame node reached).notLazy⟩

end Tame

theorem alwaysEnds_never {node : Schema} (isNever : node.kind = .keyword .never) :
    AlwaysEnds targets node := by
  have leaf := isLeaf_of_kind isNever trivial
  exact fun _ => ends_leaf leaf

theorem alwaysEnds_union {node : Schema} {members : List Schema}
    (isUnion : node.kind = .union members) (each : ∀ member ∈ members, AlwaysEnds targets member) :
    AlwaysEnds targets node :=
  fun settings input => ends_union isUnion fun member inMembers =>
    each member inMembers settings.failingFast input

theorem alwaysEnds_unionOf {schemas : List Schema}
    (each : ∀ schema ∈ schemas, schema.Throughout targets (AlwaysEnds targets)) (id : NodeId) :
    AlwaysEnds targets (Schema.union id schemas) :=
  union_induction (fun _ => alwaysEnds_never) (fun _ _ => alwaysEnds_union)
    (fun schema inSchemas _ nested => ((each schema inSchemas).nested nested).here) id

theorem alwaysEnds_of_children {node : Schema}
    (composite : (∃ fields indexes, node.kind = .struct fields indexes) ∨
      ∃ elements rest, node.kind = .tuple elements rest)
    (each : ∀ child ∈ node.kind.children, AlwaysEnds targets child) : AlwaysEnds targets node := by
  intro settings input
  rcases composite with ⟨fields, indexes, isStruct⟩ | ⟨elements, rest, isTuple⟩
  · exact ends_struct isStruct fun child below item _ =>
      ⟨each child below settings item, each child below settings.decoding item⟩
  · exact ends_tuple isTuple fun child below item _ => each child below settings item

end Run

end SchemaCodec
