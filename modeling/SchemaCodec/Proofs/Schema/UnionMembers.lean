import SchemaCodec.Proofs.Schema.Tree
import SchemaCodec.Schema.Union

/-!
The members of a union. Flattening reaches every member of the plain unions inside a union and stops
at nodes that are no plain unions; of the nodes with one identity the first one stays.
-/

namespace SchemaCodec.Schema

/-- A union without annotations, which dissolves inside another union. -/
def IsPlainUnion (schema : Schema) : Prop :=
  schema.annotations.isEmpty = true ∧ ∃ members, schema.kind = .union members

-- The equations of the two functions are made here, once, for all the proofs below.
attribute [local simp] flattened flattenedAll

theorem flattened_of_union {schema : Schema} {members : List Schema}
    (isUnion : schema.kind = .union members) (bare : schema.annotations.isEmpty = true) :
    schema.flattened = flattenedAll members := by
  obtain ⟨id, annotations, kind⟩ := schema
  cases isUnion
  simp only [flattened]
  exact if_pos bare

theorem flattened_of_not_plain {schema : Schema} (notPlain : ¬schema.IsPlainUnion) :
    schema.flattened = [schema] := by
  obtain ⟨id, annotations, kind⟩ := schema
  cases kind with
  | union members =>
      simp only [flattened]
      exact if_neg fun bare => notPlain ⟨bare, members, rfl⟩
  | _ => rfl

theorem mem_flattenedAll {node : Schema} {schemas : List Schema} :
    node ∈ flattenedAll schemas ↔ ∃ schema ∈ schemas, node ∈ schema.flattened := by
  induction schemas with
  | nil => simp
  | cons schema rest ih => simp [ih]

/-- The node is the schema itself or a member in it, with unions in between. -/
inductive Nested : Schema → Schema → Prop where
  | self {schema : Schema} : Nested schema schema
  | member {schema member node : Schema} {members : List Schema}
      (isUnion : schema.kind = .union members) (inMembers : member ∈ members)
      (nested : Nested member node) : Nested schema node

theorem nested_of_flattened {schema node : Schema} (member : node ∈ schema.flattened) :
    schema.Nested node := by
  induction schema using childInduction with
  | node schema ih =>
      by_cases plain : schema.IsPlainUnion
      · obtain ⟨bare, members, isUnion⟩ := plain
        rw [flattened_of_union isUnion bare] at member
        obtain ⟨inner, inMembers, inFlattened⟩ := mem_flattenedAll.mp member
        exact .member isUnion inMembers (ih inner (member_mem_children isUnion inMembers) inFlattened)
      · rw [flattened_of_not_plain plain] at member
        rw [List.mem_singleton.mp member]
        exact .self

/-- What passes from a node to the schemas below it passes to the nodes in it. -/
theorem Nested.induction {holds : Schema → Prop}
    (child : ∀ schema below, holds schema → below ∈ schema.kind.children → holds below)
    {schema node : Schema} (nested : schema.Nested node) (here : holds schema) : holds node := by
  induction nested with
  | self => exact here
  | member isUnion inMembers _ ih => exact ih (child _ _ here (member_mem_children isUnion inMembers))

/-- A property that passes from a node to the schemas below it passes to the flattened members. -/
theorem flattened_induction {holds : Schema → Prop}
    (child : ∀ schema below, holds schema → below ∈ schema.kind.children → holds below)
    {schema node : Schema} (here : holds schema) (member : node ∈ schema.flattened) :
    holds node :=
  (nested_of_flattened member).induction child here

private theorem flattened_not_plain {schema node : Schema} (member : node ∈ schema.flattened) :
    ¬node.IsPlainUnion := by
  induction schema using childInduction with
  | node schema ih =>
      by_cases plain : schema.IsPlainUnion
      · obtain ⟨bare, members, isUnion⟩ := plain
        rw [flattened_of_union isUnion bare] at member
        obtain ⟨inner, innerMember, inFlattened⟩ := mem_flattenedAll.mp member
        exact ih inner (by rw [isUnion]; exact innerMember) inFlattened
      · rw [flattened_of_not_plain plain] at member
        rwa [List.mem_singleton.mp member]

theorem flattenedAll_not_plain {schemas : List Schema} {node : Schema}
    (member : node ∈ flattenedAll schemas) : ¬node.IsPlainUnion := by
  obtain ⟨_, _, inFlattened⟩ := mem_flattenedAll.mp member
  exact flattened_not_plain inFlattened

/-- Schemas that are no plain unions are their own members. -/
theorem flattenedAll_of_not_plain {schemas : List Schema}
    (notPlain : ∀ schema ∈ schemas, ¬schema.IsPlainUnion) : flattenedAll schemas = schemas := by
  induction schemas with
  | nil => rfl
  | cons schema rest ih =>
      rw [flattenedAll, flattened_of_not_plain (notPlain schema List.mem_cons_self),
        ih fun other member => notPlain other (List.mem_cons_of_mem _ member)]
      rfl

/-! ### Nodes of one identity -/

private theorem mem_of_mem_distinct {known : List NodeId} {schemas : List Schema} {node : Schema}
    (member : node ∈ distinct known schemas) : node ∈ schemas := by
  induction schemas generalizing known with
  | nil => cases member
  | cons schema rest ih =>
      simp only [distinct] at member
      split at member
      · exact List.mem_cons_of_mem _ (ih member)
      · rcases List.mem_cons.mp member with same | later
        · exact List.mem_cons.mpr (Or.inl same)
        · exact List.mem_cons_of_mem _ (ih later)

/-- Of each identity that is not known yet one node stays. -/
private theorem exists_mem_distinct {known : List NodeId} {schemas : List Schema} {node : Schema}
    (member : node ∈ schemas) (unknown : node.id ∉ known) :
    ∃ kept ∈ distinct known schemas, kept.id = node.id := by
  induction schemas generalizing known with
  | nil => cases member
  | cons schema rest ih =>
      simp only [distinct]
      rcases List.mem_cons.mp member with same | later
      · subst same
        rw [if_neg (by simpa using unknown)]
        exact ⟨node, List.mem_cons_self, rfl⟩
      · split
        · exact ih later unknown
        · by_cases again : node.id = schema.id
          · exact ⟨schema, List.mem_cons_self, again.symm⟩
          · have stillUnknown : node.id ∉ schema.id :: known := by
              intro inKnown
              rcases List.mem_cons.mp inKnown with same | old
              · exact again same
              · exact unknown old
            obtain ⟨kept, keptMember, sameId⟩ := ih later stillUnknown
            exact ⟨kept, List.mem_cons_of_mem _ keptMember, sameId⟩

/-- Where no identity comes twice all nodes stay. -/
theorem distinct_of_nodup {known : List NodeId} {schemas : List Schema}
    (nodup : (schemas.map Schema.id).Nodup) (unknown : ∀ schema ∈ schemas, schema.id ∉ known) :
    distinct known schemas = schemas := by
  induction schemas generalizing known with
  | nil => rfl
  | cons schema rest ih =>
      obtain ⟨fresh, others⟩ := List.nodup_cons.mp nodup
      obtain ⟨here, later⟩ := List.forall_mem_cons.mp unknown
      rw [distinct, if_neg (by simpa using here), ih others]
      intro other inRest inKnown
      rcases List.mem_cons.mp inKnown with same | old
      · exact fresh (same ▸ List.mem_map_of_mem inRest)
      · exact later other inRest old

/-! ### The members that stay -/

theorem mem_of_mem_unionMembers {schemas : List Schema} {node : Schema}
    (member : node ∈ unionMembers schemas) :
    node ∈ flattenedAll schemas ∧ node.isNever = false := by
  have filtered := mem_of_mem_distinct member
  simpa using List.mem_filter.mp filtered

theorem exists_mem_unionMembers {schemas : List Schema} {node : Schema}
    (member : node ∈ flattenedAll schemas) (possible : node.isNever = false) :
    ∃ kept ∈ unionMembers schemas, kept.id = node.id :=
  exists_mem_distinct (List.mem_filter.mpr ⟨member, by simp [possible]⟩) (by simp)

theorem unionMembers_of_nodup {schemas : List Schema} (nodup : (schemas.map Schema.id).Nodup)
    (notPlain : ∀ schema ∈ schemas, ¬schema.IsPlainUnion)
    (possible : ∀ schema ∈ schemas, schema.isNever = false) : unionMembers schemas = schemas := by
  have all : schemas.filter (fun schema => !schema.isNever) = schemas :=
    List.filter_eq_self.mpr fun schema inSchemas => by simp [possible schema inSchemas]
  rw [unionMembers, flattenedAll_of_not_plain notPlain, all]
  exact distinct_of_nodup nodup fun _ _ => List.not_mem_nil

/-- What a union of schemas is: a schema that accepts nothing, the only member, or a plain union of
the members that stay. -/
theorem union_cases (id : NodeId) (schemas : List Schema) :
    (unionMembers schemas = [] ∧ union id schemas = plain id (.keyword .never)) ∨
    (∃ single, unionMembers schemas = [single] ∧ union id schemas = single) ∨
    union id schemas = plain id (.union (unionMembers schemas)) := by
  unfold union
  cases unionMembers schemas with
  | nil => exact Or.inl ⟨rfl, rfl⟩
  | cons first rest =>
      cases rest with
      | nil => exact Or.inr (Or.inl ⟨first, rfl, rfl⟩)
      | cons second rest => exact Or.inr (Or.inr rfl)

/-- What holds of the kinds of the members that stay holds of the kind of the union. -/
theorem kind_union {holds : Kind Schema → Prop} {schemas : List Schema}
    (never : holds (.keyword .never)) (plainUnion : ∀ kept, holds (.union kept))
    (each : ∀ node ∈ unionMembers schemas, holds node.kind) (id : NodeId) :
    holds (union id schemas).kind := by
  rcases union_cases id schemas with ⟨_, isNever⟩ | ⟨single, only, isSingle⟩ | isUnion
  · rw [isNever]
    exact never
  · rw [isSingle]
    refine each single ?_
    rw [only]
    exact List.mem_singleton.mpr rfl
  · rw [isUnion]
    exact plainUnion _

theorem kind_annotateAll (schema : Schema) (id : NodeId) (top : Annotations) :
    (schema.annotateAll id top).kind = schema.kind :=
  rfl

end SchemaCodec.Schema
