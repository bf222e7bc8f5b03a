import Mathlib.Data.List.ProdSigma
import SchemaCodec.Proofs.Schema.Construction
import SchemaCodec.Proofs.Schema.Identity
import SchemaCodec.Proofs.Schema.WellFormed

/-!
Constructions that go into unions. Weakening and extending rebuild a union from what they make of its
members. Everything they make is new and has an identity of its own, so a rebuilt union drops none of
its members: it has one for each schema, or pair of schemas, that could be chosen before.
-/

namespace SchemaCodec

/-! ### Identities of parts -/

/-- The identity of the whole, or one that was made for a part of it. -/
inductive NodeId.Within (whole : NodeId) : NodeId → Prop where
  | whole : Within whole whole
  | part {node : NodeId} (within : Within whole node) (index : Nat) : Within whole (.part node index)

namespace NodeId.Within

variable {whole node : NodeId}

private theorem sizeOf_le (within : whole.Within node) : sizeOf whole ≤ sizeOf node := by
  induction within with
  | whole => exact Nat.le_refl _
  | part _ index ih =>
      rw [NodeId.part.sizeOf_spec]
      omega

private theorem of_part {index : Nat} (within : (NodeId.part whole index).Within node) :
    whole.Within node := by
  induction within with
  | whole => exact .part .whole index
  | part _ inner ih => exact .part ih inner

/-- What is made for one part is not made for another. -/
private theorem index_eq {index other : Nat} (within : (NodeId.part whole index).Within node)
    (withinToo : (NodeId.part whole other).Within node) : index = other := by
  have outside : ∀ number, ¬(NodeId.part whole number).Within whole := by
    intro number inside
    have smaller := inside.sizeOf_le
    rw [NodeId.part.sizeOf_spec] at smaller
    omega
  induction within with
  | whole =>
      cases withinToo with
      | whole => rfl
      | part inside _ => exact absurd inside (outside other)
  | part inside _ ih =>
      cases withinToo with
      | whole => exact absurd inside (outside index)
      | part insideToo _ => exact ih insideToo

end NodeId.Within

namespace Schema

/-! ### What a schema chooses from -/

mutual

/-- The schemas that a schema chooses from: the members of unions, whether these are annotated or
not, and any other schema itself. -/
def choices : Schema → List Schema
  | .node _ _ (.union members) => choicesAll members
  | schema => [schema]

def choicesAll : List Schema → List Schema
  | [] => []
  | schema :: rest => schema.choices ++ choicesAll rest

end

private theorem choicesAll_eq (schemas : List Schema) :
    choicesAll schemas = schemas.flatMap choices := by
  induction schemas with
  | nil => simp [choicesAll]
  | cons schema rest ih => rw [choicesAll, ih, List.flatMap_cons]

theorem choices_of_union {schema : Schema} {members : List Schema}
    (isUnion : schema.kind = .union members) : schema.choices = members.flatMap choices := by
  obtain ⟨id, annotations, kind⟩ := schema
  cases isUnion
  rw [choices, choicesAll_eq]

theorem choices_of_not_union {schema : Schema}
    (notUnion : ∀ members, schema.kind ≠ .union members) : schema.choices = [schema] := by
  obtain ⟨id, annotations, kind⟩ := schema
  cases kind with
  | union members => exact absurd rfl (notUnion members)
  | _ => simp [choices]

theorem nested_of_choice {schema choice : Schema} (member : choice ∈ schema.choices) :
    schema.Nested choice := by
  induction schema using childInduction with
  | node schema ih =>
      by_cases isUnion : ∃ members, schema.kind = .union members
      · obtain ⟨members, isUnion⟩ := isUnion
        rw [choices_of_union isUnion] at member
        obtain ⟨inner, inMembers, inChoices⟩ := List.mem_flatMap.mp member
        exact .member isUnion inMembers (ih inner (member_mem_children isUnion inMembers) inChoices)
      · rw [choices_of_not_union fun members same => isUnion ⟨members, same⟩] at member
        rw [List.mem_singleton.mp member]
        exact .self

/-! ### What a schema contributes to a union -/

/-- The members that a schema contributes to a union and that accept anything. -/
def possible (schema : Schema) : List Schema :=
  schema.flattened.filter fun node => !node.isNever

theorem mem_possible {schema node : Schema} :
    node ∈ schema.possible ↔ node ∈ schema.flattened ∧ node.isNever = false := by
  simp [possible]

private theorem possible_of_kind {schema : Schema} {kind : Kind Schema}
    (kindAt : schema.kind = kind)
    (notUnion : ∀ members, kind ≠ .union members) (accepts : kind ≠ .keyword .never) :
    schema.possible = [schema] := by
  have notNever := isNever_of_kind kindAt accepts
  rw [possible, flattened_of_not_plain (not_plain_of_kind kindAt notUnion)]
  simp [notNever]

private theorem possibleAll_eq (schemas : List Schema) :
    (flattenedAll schemas).filter (fun node => !node.isNever) = schemas.flatMap possible := by
  induction schemas with
  | nil => simp [flattenedAll]
  | cons schema rest ih =>
      rw [flattenedAll, List.filter_append, ih, List.flatMap_cons]
      rfl

/-- A union contributes its members. -/
private theorem possible_union (id : NodeId) (schemas : List Schema) :
    (union id schemas).possible = unionMembers schemas := by
  have accepted : ∀ node ∈ unionMembers schemas, node.isNever = false :=
    fun node member => (mem_of_mem_unionMembers member).2
  have filtered : (unionMembers schemas).filter (fun node => !node.isNever) = unionMembers schemas :=
    List.filter_eq_self.mpr fun node member => by simp [accepted node member]
  rcases union_cases id schemas with ⟨none, isNever⟩ | ⟨single, only, isSingle⟩ | isUnion
  · have notPlain : ¬(plain id (.keyword .never)).IsPlainUnion := not_plain_of_kind rfl fun _ => nofun
    rw [isNever, none, possible, flattened_of_not_plain notPlain]
    rfl
  · have member : single ∈ unionMembers schemas := by simp [only]
    rw [isSingle, possible, flattened_of_not_plain (unionMembers_not_plain member), ← only]
    exact filtered
  · rw [isUnion, possible, flattened_of_union rfl rfl,
      flattenedAll_of_not_plain fun _ kept => unionMembers_not_plain kept]
    exact filtered

/-- What holds of all members that a schema contributes holds of the schema, if it passes to unions
and holds of what accepts nothing. -/
theorem possible_induction {holds : Schema → Prop}
    (never : ∀ node : Schema, node.kind = .keyword .never → holds node)
    (union : ∀ (node : Schema) members, node.kind = .union members →
      (∀ member ∈ members, holds member) → holds node)
    {schema : Schema} (each : ∀ node ∈ schema.possible, holds node) : holds schema := by
  induction schema using childInduction with
  | node schema ih =>
      by_cases plain : schema.IsPlainUnion
      · obtain ⟨bare, members, isUnion⟩ := plain
        refine union schema members isUnion fun member inMembers => ?_
        refine ih member (member_mem_children isUnion inMembers) fun node inMember => each node ?_
        obtain ⟨inFlattened, accepts⟩ := mem_possible.mp inMember
        refine mem_possible.mpr ⟨?_, accepts⟩
        rw [flattened_of_union isUnion bare]
        exact mem_flattenedAll.mpr ⟨member, inMembers, inFlattened⟩
      · by_cases isNever : schema.kind = .keyword .never
        · exact never schema isNever
        · refine each schema (mem_possible.mpr ⟨?_, isNever_of_kind rfl isNever⟩)
          rw [flattened_of_not_plain plain]
          exact List.mem_singleton.mpr rfl

/-- What holds of all nodes in the schemas holds of their union. -/
theorem union_induction {holds : Schema → Prop}
    (never : ∀ node : Schema, node.kind = .keyword .never → holds node)
    (union : ∀ (node : Schema) members, node.kind = .union members →
      (∀ member ∈ members, holds member) → holds node)
    {schemas : List Schema} (each : ∀ schema ∈ schemas, ∀ node, schema.Nested node → holds node)
    (id : NodeId) : holds (Schema.union id schemas) := by
  refine possible_induction never union fun node member => ?_
  rw [possible_union] at member
  obtain ⟨schema, inSchemas, inFlattened⟩ :=
    mem_flattenedAll.mp (mem_of_mem_unionMembers member).1
  exact each schema inSchemas node (nested_of_flattened inFlattened)

/-- For each thing that is wanted the schema contributes one member to a union, and the members were
all made for the schema under identities of their own. -/
structure Provides {α : Type} (relates : α → Schema → Prop) (id : NodeId) (wanted : List α)
    (made : Schema) : Prop where
  within : ∀ node ∈ made.possible, id.Within node.id
  nodup : (made.possible.map Schema.id).Nodup
  matched : List.Forall₂ relates wanted made.possible

namespace Provides

variable {α β : Type} {relates : α → Schema → Prop}

theorem single {id : NodeId} {kind : Kind Schema} {want : α}
    (notUnion : ∀ members, kind ≠ .union members) (accepts : kind ≠ .keyword .never)
    (related : relates want (plain id kind)) : Provides relates id [want] (plain id kind) := by
  have only : (plain id kind).possible = [plain id kind] := possible_of_kind rfl notUnion accepts
  refine ⟨fun node member => ?_, ?_, ?_⟩
  · rw [only] at member
    rw [List.mem_singleton.mp member]
    exact .whole
  · rw [only]
    exact List.nodup_singleton _
  · rw [only]
    exact .cons related .nil

/-- A union of schemas that were made for its parts drops none of their members. -/
theorem union {id : NodeId} {wanted : β → List α} {step : Nat → β → Except BuildError Schema}
    {members : List β} {results : List Schema} (numbered : Numbered step 0 members results)
    (each : ∀ member ∈ members, ∀ number result, step number member = .ok result →
      Provides relates (.part id number) (wanted member) result) :
    Provides relates id (members.flatMap wanted) (Schema.union id results) := by
  -- All parts from one number on, so that no identity of theirs belongs to an earlier part.
  have parts : ∀ first, Numbered step first members results →
      (∀ node ∈ results.flatMap possible,
        ∃ index, first ≤ index ∧ (NodeId.part id index).Within node.id) ∧
      ((results.flatMap possible).map Schema.id).Nodup ∧
      List.Forall₂ relates (members.flatMap wanted) (results.flatMap possible) := by
    clear numbered
    induction members generalizing results with
    | nil =>
        intro first numbered
        cases numbered
        exact ⟨nofun, .nil, .nil⟩
    | cons member rest ih =>
        obtain ⟨here, later⟩ := List.forall_mem_cons.mp each
        intro first numbered
        cases numbered with
        | @cons _ result _ others stepped tail =>
            have provides := here first result stepped
            obtain ⟨apart, nodup, matched⟩ := ih later (first + 1) tail
            refine ⟨fun node inAll => ?_, ?_, List.rel_append provides.matched matched⟩
            · rcases List.mem_append.mp inAll with inResult | inOthers
              · exact ⟨first, Nat.le_refl _, provides.within node inResult⟩
              · obtain ⟨index, beyond, within⟩ := apart node inOthers
                exact ⟨index, by omega, within⟩
            · rw [List.flatMap_cons, List.map_append, List.nodup_append']
              refine ⟨provides.nodup, nodup, fun shared inResult inOthers => ?_⟩
              obtain ⟨node, inPossible, rfl⟩ := List.mem_map.mp inResult
              obtain ⟨other, inRest, sameId⟩ := List.mem_map.mp inOthers
              obtain ⟨index, beyond, within⟩ := apart other inRest
              rw [sameId] at within
              have same := (provides.within node inPossible).index_eq within
              omega
  obtain ⟨apart, nodup, matched⟩ := parts 0 numbered
  have kept : (Schema.union id results).possible = results.flatMap possible := by
    rw [possible_union, unionMembers, possibleAll_eq]
    exact distinct_of_nodup nodup fun _ _ => List.not_mem_nil
  refine ⟨fun node member => ?_, kept ▸ nodup, kept ▸ matched⟩
  obtain ⟨index, _, within⟩ := apart node (kept ▸ member)
  exact within.of_part

end Provides

/-! ### Weakening -/

/-- The kind that weakening makes of a struct or a tuple. -/
inductive Weakens (id : NodeId) : Kind Schema → Kind Schema → Prop where
  | struct (fields : List (Field Schema)) (indexes : List (IndexSignature Schema)) :
      Weakens id (.struct fields indexes)
        (.struct (fields.map fun field => { field with optional := true })
          (weakIndexes id 0 indexes))
  | tuple (elements : List (Element Schema)) (rest : List Schema) :
      Weakens id (.tuple elements rest)
        (.tuple (elements.map fun element => { element with optional := true })
          (weakRest id rest))

private theorem Weakens.no_union {id : NodeId} {before after : Kind Schema}
    (weakens : Weakens id before after) :
    (∀ members, before ≠ .union members) ∧ (∀ members, after ≠ .union members) ∧
      after ≠ .keyword .never := by
  cases weakens <;> exact ⟨nofun, nofun, nofun⟩

private theorem partialOf_cases {id : NodeId} {schema weak : Schema}
    (built : schema.partialOf id = .ok weak) :
    (∃ members weakened, schema.kind = .union members ∧
      partialOfAll id 0 members = .ok weakened ∧ weak = union id weakened) ∨
    ∃ kind, Weakens id schema.kind kind ∧ weak = plain id kind := by
  obtain ⟨node, annotations, kind⟩ := schema
  cases kind with
  | struct fields indexes =>
      rw [partialOf] at built
      exact Or.inr ⟨_, .struct fields indexes, (exists_struct_of_checked built).1⟩
  | tuple elements rest =>
      rw [partialOf] at built
      cases built
      exact Or.inr ⟨_, .tuple elements rest, rfl⟩
  | union members =>
      rw [partialOf] at built
      obtain ⟨weakened, made, rfl⟩ := exists_ok_of_map built
      exact Or.inl ⟨members, weakened, rfl, made, rfl⟩
  | _ =>
      rw [partialOf] at built
      · cases built
      all_goals nofun

/-- A weakened schema has a weakened member for each that could be chosen before. -/
theorem provides_of_partialOf {id : NodeId} {schema weak : Schema}
    (built : schema.partialOf id = .ok weak) :
    Provides (fun choice node => ∃ part, Weakens part choice.kind node.kind) id schema.choices
      weak := by
  induction schema using childInduction generalizing id weak with
  | node schema ih =>
      rcases partialOf_cases built with ⟨members, weakened, isUnion, made, rfl⟩ | ⟨kind, weakens, rfl⟩
      · rw [choices_of_union isUnion]
        exact .union (numbered_of_partialOfAll made) fun member inMembers number result madePart =>
          ih member (member_mem_children isUnion inMembers) madePart
      · obtain ⟨notUnion, stillNot, accepts⟩ := weakens.no_union
        rw [choices_of_not_union notUnion]
        exact .single stillNot accepts ⟨id, weakens⟩

/-! ### Extending -/

/-- The kind that extending makes of two structs. -/
inductive Joins : Kind Schema → Kind Schema → Kind Schema → Prop where
  | struct (fields others : List (Field Schema)) (indexes signatures : List (IndexSignature Schema))
      (distinct : ((fields ++ others).map Field.name).Nodup) :
      Joins (.struct fields indexes) (.struct others signatures)
        (.struct (fields ++ others) (indexes ++ signatures))

private theorem Joins.no_union {left right made : Kind Schema} (joins : Joins left right made) :
    (∀ members, right ≠ .union members) ∧ (∀ members, made ≠ .union members) ∧
      made ≠ .keyword .never := by
  cases joins
  exact ⟨nofun, nofun, nofun⟩

theorem exists_struct_of_extendByStruct {id : NodeId} {schema made : Schema}
    {fields others : List (Field Schema)} {indexes signatures : List (IndexSignature Schema)}
    (isStruct : schema.kind = .struct fields indexes)
    (built : schema.extendByStruct id others signatures = .ok made) :
    made = plain id (.struct (fields ++ others) (indexes ++ signatures)) ∧
      ((fields ++ others).map Field.name).Nodup := by
  obtain ⟨node, annotations, kind⟩ := schema
  cases isStruct
  rw [extendByStruct] at built
  obtain ⟨same, unrepeated⟩ := exists_struct_of_checked built
  exact ⟨same, (nodup_of_not_repeated unrepeated).1⟩

private theorem extendBy_cases {id : NodeId} {left right made : Schema}
    {fields : List (Field Schema)}
    {indexes : List (IndexSignature Schema)} (isStruct : left.kind = .struct fields indexes)
    (built : extendBy id left right = .ok made) :
    (∃ members extended, right.kind = .union members ∧
      extendByAll id left 0 members = .ok extended ∧ made = union id extended) ∨
    ∃ kind, Joins left.kind right.kind kind ∧ made = plain id kind := by
  obtain ⟨node, annotations, kind⟩ := right
  cases kind with
  | struct others signatures =>
      rw [extendBy] at built
      obtain ⟨rfl, distinct⟩ := exists_struct_of_extendByStruct isStruct built
      rw [isStruct]
      exact Or.inr ⟨_, .struct _ _ _ _ distinct, rfl⟩
  | union members =>
      rw [extendBy] at built
      obtain ⟨extended, all, rfl⟩ := exists_ok_of_map built
      exact Or.inl ⟨members, extended, rfl, all, rfl⟩
  | _ =>
      rw [extendBy] at built
      · cases built
      all_goals nofun

private theorem extendEach_cases {id : NodeId} {left right made : Schema}
    (built : extendEach id right left = .ok made) :
    (∃ members extended, left.kind = .union members ∧
      extendEachOf id right 0 members = .ok extended ∧ made = union id extended) ∨
    (∀ members, left.kind ≠ .union members) ∧ extendBy id left right = .ok made := by
  obtain ⟨node, annotations, kind⟩ := left
  cases kind with
  | union members =>
      rw [extendEach] at built
      obtain ⟨extended, all, rfl⟩ := exists_ok_of_map built
      exact Or.inl ⟨members, extended, rfl, all, rfl⟩
  | _ =>
      rw [extendEach] at built
      · exact Or.inr ⟨nofun, built⟩
      all_goals nofun

def JoinsPair (pair : Schema × Schema) (node : Schema) : Prop :=
  Joins pair.1.kind pair.2.kind node.kind

private theorem provides_of_extendBy {id : NodeId} {left right made : Schema}
    (isStruct : ∃ fields indexes, left.kind = .struct fields indexes)
    (built : extendBy id left right = .ok made) :
    Provides JoinsPair id (right.choices.map fun choice => (left, choice)) made := by
  obtain ⟨fields, indexes, isStruct⟩ := isStruct
  induction right using childInduction generalizing id made with
  | node right ih =>
      rcases extendBy_cases isStruct built with
        ⟨members, extended, isUnion, all, rfl⟩ | ⟨kind, joins, rfl⟩
      · rw [choices_of_union isUnion, List.map_flatMap]
        exact .union (numbered_of_extendByAll all) fun member inMembers number result madePart =>
          ih member (member_mem_children isUnion inMembers) madePart
      · obtain ⟨notUnion, stillNot, accepts⟩ := joins.no_union
        rw [choices_of_not_union notUnion]
        exact .single stillNot accepts joins

/-- An extended schema has a member for each pair of a choice on the left and one on the right, in
the order of the pairs. -/
theorem provides_of_extend {id : NodeId} {left right made : Schema}
    (structs : ∀ choice ∈ left.choices, ∃ fields indexes, choice.kind = .struct fields indexes)
    (built : extend id left right = .ok made) :
    Provides JoinsPair id (left.choices ×ˢ right.choices) made := by
  change extendEach id right left = .ok made at built
  induction left using childInduction generalizing id made with
  | node left ih =>
      rcases extendEach_cases built with ⟨members, extended, isUnion, all, rfl⟩ | ⟨notUnion, built⟩
      · rw [choices_of_union isUnion] at structs ⊢
        have pairs : members.flatMap choices ×ˢ right.choices =
            members.flatMap fun member => member.choices ×ˢ right.choices := by
          simp only [SProd.sprod, List.product, List.flatMap_assoc]
        rw [pairs]
        refine .union (numbered_of_extendEachOf all) fun member inMembers number result madePart => ?_
        refine ih member (member_mem_children isUnion inMembers) (fun choice inChoices => ?_) madePart
        exact structs choice (List.mem_flatMap.mpr ⟨member, inMembers, inChoices⟩)
      · rw [choices_of_not_union notUnion] at structs ⊢
        have pairs : [left] ×ˢ right.choices = right.choices.map fun choice => (left, choice) := by
          simp [SProd.sprod, List.product]
        rw [pairs]
        exact provides_of_extendBy (structs left (List.mem_singleton.mpr rfl)) built

/-- What comes of the extension comes of a choice on the left and one on the right. -/
theorem exists_joins_of_extend {id : NodeId} {left right made : Schema}
    (structs : ∀ choice ∈ left.choices, ∃ fields indexes, choice.kind = .struct fields indexes)
    (built : extend id left right = .ok made) {node : Schema} (member : node ∈ made.possible) :
    ∃ first ∈ left.choices, ∃ second ∈ right.choices, Joins first.kind second.kind node.kind := by
  obtain ⟨⟨first, second⟩, inProduct, joins⟩ :=
    exists_of_forall₂ (provides_of_extend structs built).matched member
  obtain ⟨inLeft, inRight⟩ := List.pair_mem_product.mp inProduct
  exact ⟨first, inLeft, second, inRight, joins⟩

theorem joins_of_extend {id : NodeId} {left right made : Schema} {fields others : List (Field Schema)}
    {indexes signatures : List (IndexSignature Schema)}
    (leftStruct : left.kind = .struct fields indexes)
    (rightStruct : right.kind = .struct others signatures)
    (built : extend id left right = .ok made) : Joins left.kind right.kind made.kind := by
  rcases extendEach_cases built with ⟨_, _, isUnion, _⟩ | ⟨_, built⟩
  · cases leftStruct.symm.trans isUnion
  · rcases extendBy_cases leftStruct built with ⟨_, _, isUnion, _⟩ | ⟨kind, joins, rfl⟩
    · cases rightStruct.symm.trans isUnion
    · exact joins

/-- A transformation is extended on both sides and keeps its functions. -/
theorem exists_sides_of_extend {id : NodeId} {left right made source target : Schema}
    {decode encode : Transformer} {strict : Bool} {others : List (Field Schema)}
    {signatures : List (IndexSignature Schema)}
    (isTransform : left.kind = .transform source target decode encode strict)
    (rightStruct : right.kind = .struct others signatures)
    (built : extend id left right = .ok made) :
    ∃ near far, source.extendByStruct (.part id 0) others signatures = .ok near ∧
      target.extendByStruct (.part id 1) others signatures = .ok far ∧
      made = plain id (.transform near far decode encode strict) := by
  rcases extendEach_cases built with ⟨_, _, isUnion, _⟩ | ⟨_, built⟩
  · cases isTransform.symm.trans isUnion
  · obtain ⟨node, annotations, kind⟩ := left
    obtain ⟨rightNode, rightAnnotations, rightKind⟩ := right
    cases isTransform
    cases rightStruct
    rw [extendBy, extendByStruct] at built
    obtain ⟨near, ofSource, built⟩ := exists_ok_of_bind built
    obtain ⟨far, ofTarget, built⟩ := exists_ok_of_bind built
    cases built
    exact ⟨near, far, ofSource, ofTarget, rfl⟩

end Schema

end SchemaCodec
