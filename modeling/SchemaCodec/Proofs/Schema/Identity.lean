import Mathlib.Data.List.Nodup
import SchemaCodec.Proofs.Schema.SideView
import SchemaCodec.Proofs.Table

/-!
Nodes told apart by identity. Unions drop repeated members by their identity alone, so that a union
keeps what its members mean only where no two nodes share one. Then the members of a union that is
rebuilt for a side are all there, up to kind.
-/

namespace SchemaCodec

/-- The node is a side of another one, and named after it. -/
def NodeId.isSide : NodeId → Bool
  | .side _ _ => true
  | _ => false

namespace Schema

/-- What can be made from a list of schemas: the schemas below them and the sides of all these. -/
inductive Derived (roots : List Schema) : Schema → Prop where
  | root {schema : Schema} (member : schema ∈ roots) : Derived roots schema
  | child {schema below : Schema} (derived : Derived roots schema)
      (member : below ∈ schema.kind.children) : Derived roots below
  | side {schema : Schema} (derived : Derived roots schema) (side : Side) :
      Derived roots (schema.sideOf side)

/-- No two nodes made from the schemas share an identity. -/
def IdentitiesTell (roots : List Schema) : Prop :=
  ∀ node other, Derived roots node → Derived roots other → node.id = other.id → node = other

/-- A written node, or a side of such a node that is a node of its own and named after it. -/
private inductive Named (written : List Schema) : Schema → Prop where
  | written {node : Schema} (member : node ∈ written) : Named written node
  | side {node : Schema} {side : Side} (named : Named written node)
      (own : (node.sideOf side).id = .side side node.id) : Named written (node.sideOf side)

private theorem Named.eq_of_id {written : List Schema} (nodup : (written.map Schema.id).Nodup)
    (plain : ∀ node ∈ written, node.id.isSide = false) {node other : Schema}
    (named : Named written node) (namedToo : Named written other) (sameId : node.id = other.id) :
    node = other := by
  induction named generalizing other with
  | written member =>
      have notSide := plain _ member
      cases namedToo with
      | written memberToo => exact List.inj_on_of_nodup_map nodup member memberToo sameId
      | side _ own =>
          rw [sameId, own] at notSide
          cases notSide
  | side named own ih =>
      cases namedToo with
      | written memberToo =>
          have notSide := plain _ memberToo
          rw [← sameId, own] at notSide
          cases notSide
      | side namedToo ownToo =>
          rw [own, ownToo] at sameId
          injection sameId with sameSide sameNode
          rw [sameSide, ih namedToo sameNode]

/-- It is enough that the written nodes have identities of their own: each side of a node that is
not there before is named after the node. -/
theorem identitiesTell_of_written {roots : List Schema} (written : List Schema)
    (nodup : (written.map Schema.id).Nodup)
    (plain : ∀ node ∈ written, node.id.isSide = false)
    (contains : roots ⊆ written) (children : written.flatMap (·.kind.children) ⊆ written) :
    IdentitiesTell roots := by
  have trees : ∀ node ∈ written, node.All (Named written) := by
    intro node
    induction node using childInduction with
    | node node ih =>
        intro member
        exact .intro (.written member) fun child below =>
          ih child below (children (List.mem_flatMap.mpr ⟨node, member, below⟩))
  have sides : ∀ (side : Side) (schema : Schema), schema.All (Named written) →
      schema.All fun node => Named written (node.sideOf side) := by
    intro side schema all
    induction schema using childInduction with
    | node schema ih =>
        have below : ∀ child ∈ schema.kind.children,
            child.All fun node => Named written (node.sideOf side) :=
          fun child inKind => ih child inKind (all.child inKind)
        refine .intro ?_ below
        rcases sideOf_cases side schema with
          same | own | ⟨child, inKind, same⟩ | ⟨child, inKind, inFlattened⟩
        · rw [same]
          exact all.here
        · exact .side all.here own
        · rw [same]
          exact (below child inKind).here
        · exact (flattened_induction (fun _ _ here inNode => here.child inNode)
            (All.of_sides (below child inKind)) inFlattened).here
  have named : ∀ node, Derived roots node → node.All (Named written) := by
    intro node derived
    induction derived with
    | root member => exact trees _ (contains member)
    | child _ member ih => exact ih.child member
    | side _ side ih => exact All.of_sides (sides side _ ih)
  intro node other derived derivedToo sameId
  exact Named.eq_of_id nodup plain (named node derived).here (named other derivedToo).here sameId

theorem Derived.flattened {roots : List Schema} {schema node : Schema}
    (derived : Derived roots schema) (member : node ∈ schema.flattened) : Derived roots node :=
  flattened_induction (fun _ _ here below => here.child below) derived member

theorem Derived.flattenedAll {roots schemas : List Schema} {node : Schema}
    (derived : ∀ schema ∈ schemas, Derived roots schema) (member : node ∈ flattenedAll schemas) :
    Derived roots node := by
  obtain ⟨schema, inList, inFlattened⟩ := mem_flattenedAll.mp member
  exact (derived schema inList).flattened inFlattened

/-- What could be accepted of the schemas is among the members of their union. -/
theorem IdentitiesTell.mem_unionMembers {roots schemas : List Schema} {node : Schema}
    (tell : IdentitiesTell roots) (derived : ∀ schema ∈ schemas, Derived roots schema)
    (member : node ∈ Schema.flattenedAll schemas) (possible : node.isNever = false) :
    node ∈ unionMembers schemas := by
  obtain ⟨kept, keptMember, sameId⟩ := exists_mem_unionMembers member possible
  have keptDerived := Derived.flattenedAll derived (mem_of_mem_unionMembers keptMember).1
  rw [← tell kept node keptDerived (Derived.flattenedAll derived member) sameId]
  exact keptMember

theorem unionMembers_not_plain {schemas : List Schema} {node : Schema}
    (member : node ∈ unionMembers schemas) : ¬node.IsPlainUnion :=
  flattenedAll_not_plain (mem_of_mem_unionMembers member).1

/-- The union of schemas dissolves into its members. -/
theorem mem_flattened_union {id : NodeId} {schemas : List Schema} {node : Schema}
    (member : node ∈ unionMembers schemas) : node ∈ (Schema.union id schemas).flattened := by
  rcases union_cases id schemas with ⟨none, _⟩ | ⟨single, only, isSingle⟩ | isUnion
  · rw [none] at member
    cases member
  · rw [isSingle]
    rw [only] at member
    have singleMember : single ∈ unionMembers schemas := by
      rw [only]
      exact List.mem_singleton.mpr rfl
    rw [flattened_of_not_plain (unionMembers_not_plain singleMember)]
    exact member
  · rw [isUnion, flattened_of_union rfl rfl,
      flattenedAll_of_not_plain fun _ kept => unionMembers_not_plain kept]
    exact member

/-- Whatever the union of schemas dissolves into is one of its members, or accepts nothing. -/
theorem mem_of_mem_flattened_union {id : NodeId} {schemas : List Schema} {node : Schema}
    (member : node ∈ (Schema.union id schemas).flattened) :
    node ∈ unionMembers schemas ∨ node.kind = .keyword .never := by
  rcases union_cases id schemas with ⟨_, isNever⟩ | ⟨single, only, isSingle⟩ | isUnion
  · rw [isNever] at member
    cases List.mem_singleton.mp member
    exact Or.inr rfl
  · have singleMember : single ∈ unionMembers schemas := by
      rw [only]
      exact List.mem_singleton.mpr rfl
    rw [isSingle, flattened_of_not_plain (unionMembers_not_plain singleMember)] at member
    rw [List.mem_singleton.mp member]
    exact Or.inl singleMember
  · rw [isUnion, flattened_of_union rfl rfl,
      flattenedAll_of_not_plain fun _ kept => unionMembers_not_plain kept] at member
    exact Or.inl member

/-! ### Schemas that come down to literals -/

/-- Apart from the schema that accepts nothing there are only literals among the members. -/
def OnlyLiterals (schema : Schema) : Prop :=
  ∀ node ∈ schema.flattened, node.isNever = false → ∃ literal, node.kind = .literal literal

theorem isNever_of_kind {schema : Schema} {kind : Kind Schema} (kindAt : schema.kind = kind)
    (possible : kind ≠ .keyword .never) : schema.isNever = false := by
  unfold isNever
  rw [kindAt]
  split
  · exact absurd rfl possible
  · rfl

/-- A schema that is neither a plain union nor a literal does not come down to literals. -/
private theorem not_onlyLiterals {schema : Schema} {kind : Kind Schema}
    (kindAt : schema.kind = kind)
    (notPlain : ¬schema.IsPlainUnion) (possible : kind ≠ .keyword .never)
    (notLiteral : ∀ literal, kind ≠ .literal literal) : ¬schema.OnlyLiterals := by
  intro only
  have here : schema ∈ schema.flattened := by
    rw [flattened_of_not_plain notPlain]
    exact List.mem_singleton.mpr rfl
  obtain ⟨literal, isLiteral⟩ := only schema here (isNever_of_kind kindAt possible)
  exact notLiteral literal (kindAt.symm.trans isLiteral)

theorem not_plain_of_kind {schema : Schema} {kind : Kind Schema} (kindAt : schema.kind = kind)
    (notUnion : ∀ members, kind ≠ .union members) : ¬schema.IsPlainUnion :=
  fun ⟨_, members, isUnion⟩ => notUnion members (kindAt.symm.trans isUnion)

private theorem not_onlyLiterals_of_kind {schema : Schema} {kind : Kind Schema}
    (kindAt : schema.kind = kind) (notUnion : ∀ members, kind ≠ .union members)
    (possible : kind ≠ .keyword .never) (notLiteral : ∀ literal, kind ≠ .literal literal) :
    ¬schema.OnlyLiterals :=
  not_onlyLiterals kindAt (not_plain_of_kind kindAt notUnion) possible notLiteral

inductive MayBeLiterals (side : Side) : Kind Schema → Prop where
  | leaf {kind : Kind Schema} (isLeaf : kind.IsLeaf) : MayBeLiterals side kind
  | union (members : List Schema) : MayBeLiterals side (.union members)
  | refinement (source : Schema) (filter : Filter) (onInput : side = .input) :
      MayBeLiterals side (.refinement source filter)
  | transform (source target : Schema) (decode encode : Transformer) (strict : Bool) :
      MayBeLiterals side (.transform source target decode encode strict)

/-- The other nodes keep their kind on the side, which is neither a union nor a literal. -/
theorem OnlyLiterals.mayBe {side : Side} {schema : Schema}
    (only : (schema.sideOf side).OnlyLiterals) : MayBeLiterals side schema.kind := by
  cases kindAt : schema.kind with
  | tuple elements rest =>
      exact absurd only (not_onlyLiterals_of_kind (kind_sideOf_tuple kindAt) nofun nofun nofun)
  | struct fields indexes =>
      exact absurd only (not_onlyLiterals_of_kind (kind_sideOf_struct kindAt) nofun nofun nofun)
  | lazy cell =>
      exact absurd only (not_onlyLiterals_of_kind (kind_sideOf_lazy kindAt) nofun nofun nofun)
  | declaration parameters decode encode =>
      exact absurd only (not_onlyLiterals_of_kind (kind_sideOf_declaration kindAt) nofun nofun nofun)
  | refinement source filter =>
      cases side with
      | input => exact .refinement source filter rfl
      | output =>
          have viewed := kind_outputSide_refinement kindAt
          exact absurd only (not_onlyLiterals_of_kind viewed nofun nofun nofun)
  | union members => exact .union members
  | transform source target decode encode strict => exact .transform source target decode encode strict
  | _ => exact .leaf trivial

theorem isEmpty_of_merge {annotations top : Annotations}
    (bare : (annotations.merge top).isEmpty = true) : annotations.isEmpty = true := by
  rw [Annotations.isEmpty, List.isEmpty_iff] at bare ⊢
  exact Table.insertAll_eq_nil bare

/-- Where the side of a union comes down to literals, it has all that the sides of the members
have, up to kind. -/
private theorem exists_mem_side_of_union {roots : List Schema} (tell : IdentitiesTell roots)
    {side : Side}
    {schema member node : Schema} {members : List Schema} (derived : Derived roots schema)
    (isUnion : schema.kind = .union members) (only : (schema.sideOf side).OnlyLiterals)
    (inMembers : member ∈ members) (inSide : node ∈ (member.sideOf side).flattened)
    (possible : node.isNever = false) :
    ∃ seen ∈ (schema.sideOf side).flattened, seen.kind = node.kind := by
  have derivedSides : ∀ other ∈ members.map (Schema.sideOf side), Derived roots other := by
    intro other inSides
    obtain ⟨original, inList, rfl⟩ := List.mem_map.mp inSides
    exact (derived.child (isUnion ▸ inList)).side side
  have inAll : node ∈ flattenedAll (members.map (Schema.sideOf side)) :=
    mem_flattenedAll.mpr ⟨_, List.mem_map_of_mem inMembers, inSide⟩
  have kept := tell.mem_unionMembers derivedSides inAll possible
  rcases @sideOf_union side _ _ isUnion with ⟨same, unchanged⟩ | rebuilt
  · rw [same] at only ⊢
    rw [unchanged] at inAll
    by_cases plain : schema.IsPlainUnion
    · rw [flattened_of_union isUnion plain.1]
      exact ⟨node, inAll, rfl⟩
    · exact absurd only (not_onlyLiterals isUnion plain nofun nofun)
  · cases side with
    | input =>
        rw [rebuilt]
        exact ⟨node, mem_flattened_union kept, rfl⟩
    | output =>
        simp only at rebuilt
        have inUnion := @mem_flattened_union (.side .output schema.id) _ _ kept
        generalize Schema.union (.side .output schema.id) (members.map (Schema.sideOf .output)) =
          whole at rebuilt inUnion
        rw [rebuilt] at only ⊢
        by_cases wholePlain : whole.IsPlainUnion
        · obtain ⟨wholeBare, inner, wholeUnion⟩ := wholePlain
          rw [flattened_of_union wholeUnion wholeBare] at inUnion
          by_cases plain :
              (whole.annotateAll (.side .output schema.id) schema.annotations).IsPlainUnion
          · have annotatedUnion := (kind_annotateAll whole (.side .output schema.id)
              schema.annotations).trans wholeUnion
            rw [flattened_of_union annotatedUnion plain.1]
            exact ⟨node, inUnion, rfl⟩
          · exact absurd only (not_onlyLiterals wholeUnion plain nofun nofun)
        · rw [flattened_of_not_plain wholePlain] at inUnion
          cases List.mem_singleton.mp inUnion
          have notPlain :
              ¬(node.annotateAll (.side .output schema.id) schema.annotations).IsPlainUnion :=
            fun ⟨bare, inner, nodeUnion⟩ => wholePlain ⟨isEmpty_of_merge bare, inner, nodeUnion⟩
          rw [flattened_of_not_plain notPlain]
          exact ⟨_, List.mem_singleton.mpr rfl, rfl⟩

theorem OnlyLiterals.of_member {side : Side} {schema member : Schema} {members : List Schema}
    (only : (schema.sideOf side).OnlyLiterals) {roots : List Schema} (tell : IdentitiesTell roots)
    (derived : Derived roots schema) (isUnion : schema.kind = .union members)
    (inMembers : member ∈ members) : (member.sideOf side).OnlyLiterals := by
  intro node inside possible
  obtain ⟨seen, seenMember, sameKind⟩ :=
    exists_mem_side_of_union tell derived isUnion only inMembers inside possible
  rw [← sameKind]
  exact only seen seenMember (by rw [isNever, sameKind]; exact possible)

/-- What holds of a literal of a member's side holds of a literal of the union's side. -/
theorem exists_literal_of_member {roots : List Schema} (tell : IdentitiesTell roots) {side : Side}
    {schema member : Schema} {members : List Schema} (derived : Derived roots schema)
    (isUnion : schema.kind = .union members) (only : (schema.sideOf side).OnlyLiterals)
    (inMembers : member ∈ members) {holds : Literal → Prop}
    (found : (member.sideOf side).OnlyLiterals → ∃ node ∈ (member.sideOf side).flattened,
      ∃ literal, node.kind = .literal literal ∧ holds literal) :
    ∃ node ∈ (schema.sideOf side).flattened,
      ∃ literal, node.kind = .literal literal ∧ holds literal := by
  have inSide := fun node inside possible => @exists_mem_side_of_union roots tell side schema member
    node members derived isUnion only inMembers inside possible
  have memberOnly := only.of_member tell derived isUnion inMembers
  obtain ⟨node, inside, literal, isLiteral, here⟩ := found memberOnly
  obtain ⟨seen, seenMember, sameKind⟩ := inSide node inside (isNever_of_kind isLiteral nofun)
  exact ⟨seen, seenMember, literal, sameKind.trans isLiteral, here⟩

end Schema

end SchemaCodec
