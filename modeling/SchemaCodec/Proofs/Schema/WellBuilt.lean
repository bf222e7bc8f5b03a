import SchemaCodec.Proofs.Schema.Construction
import SchemaCodec.Proofs.Schema.WellFormed
import SchemaCodec.Schema.Transform

/-!
Every schema that can be built is well formed. What is asked of a kind of node is restored by each way
of building nodes: structs are checked when they are made, unions are put together anew, and a tuple
only changes in ways that keep its required elements in front. The sides of schemas bypass the checks
and keep them.
-/

namespace SchemaCodec

namespace Schema

/-- The members of a proper union: at least two different nodes, of which none accepts nothing and
none dissolves in the union. -/
structure Irredundant (members : List Schema) : Prop where
  several : 2 ≤ members.length
  different : (members.map Schema.id).Nodup
  possible : ∀ member ∈ members, member.isNever = false
  whole : ∀ member ∈ members, ¬member.IsPlainUnion

end Schema

/-- What is asked of a node: distinct fields and parameters that can tell keys in a struct, a proper
union, and a tuple with its required elements in front. -/
def Kind.WellBuilt : Kind Schema → Prop
  | .tuple elements _ => Schema.RequiredFirst elements
  | .struct fields indexes =>
    (fields.map Field.name).Nodup ∧ ∀ index ∈ indexes, index.parameter.isParameter = true
  | .union members => Schema.Irredundant members
  | _ => True

namespace Schema

/-- Every node of the schema is as it should be. -/
def WellBuilt (schema : Schema) : Prop :=
  schema.All (·.kind.WellBuilt)

end Schema

structure IndexSignature.WellBuilt (index : IndexSignature Schema) : Prop where
  tells : index.parameter.isParameter = true
  parameter : index.parameter.WellBuilt
  schema : index.schema.WellBuilt

namespace Schema

variable {schema other : Schema} {id : NodeId}

/-! ### Unions -/

private theorem nodup_distinct (known : List NodeId) (schemas : List Schema) :
    ((distinct known schemas).map Schema.id).Nodup ∧
      ∀ node ∈ distinct known schemas, node.id ∉ known := by
  induction schemas generalizing known with
  | nil => simp [distinct]
  | cons schema rest ih =>
      rw [distinct]
      split
      · exact ih known
      · rename_i new
        obtain ⟨nodup, apart⟩ := ih (schema.id :: known)
        constructor
        · rw [List.map_cons, List.nodup_cons]
          refine ⟨fun again => ?_, nodup⟩
          obtain ⟨node, inRest, same⟩ := List.mem_map.mp again
          exact apart node inRest (same ▸ List.mem_cons_self)
        · intro node member
          rcases List.mem_cons.mp member with rfl | inRest
          · simpa using new
          · exact fun old => apart node inRest (List.mem_cons_of_mem _ old)

private theorem irredundant_unionMembers {schemas : List Schema}
    (several : 2 ≤ (unionMembers schemas).length) : Irredundant (unionMembers schemas) where
  several := several
  different := (nodup_distinct [] _).1
  possible _ member := (mem_of_mem_unionMembers member).2
  whole _ member := flattenedAll_not_plain (mem_of_mem_unionMembers member).1

namespace WellBuilt

theorem of_kind (built : schema.WellBuilt) (same : other.kind = schema.kind) : other.WellBuilt :=
  All.of_kind built same

theorem of_leaf (leaf : schema.kind.IsLeaf) : schema.WellBuilt := by
  obtain ⟨id, annotations, kind⟩ := schema
  refine .intro (by cases kind <;> trivial) fun child below => ?_
  cases kind <;> first | exact leaf.elim | cases below

theorem union {schemas : List Schema} (each : ∀ schema ∈ schemas, schema.WellBuilt) (id : NodeId) :
    (Schema.union id schemas).WellBuilt := by
  have kept : ∀ node ∈ unionMembers schemas, node.WellBuilt := All.unionMembers each
  refine .intro ?_ (All.children_union each id)
  rcases several : unionMembers schemas with _ | ⟨first, _ | ⟨second, rest⟩⟩
  · simp only [Schema.union, several]
    trivial
  · simp only [Schema.union, several]
    exact (kept first (several ▸ List.mem_cons_self)).here
  · simp only [Schema.union, several]
    exact several ▸ irredundant_unionMembers (several ▸ by simp)

/-! ### Sides -/

private theorem kind_sideOf (side : Side) (built : schema.WellBuilt) :
    schema.All fun node => (node.sideOf side).kind.WellBuilt := by
  induction schema using childInduction with
  | node schema ih =>
      have below : ∀ child ∈ schema.kind.children,
          child.All fun node => (node.sideOf side).kind.WellBuilt :=
        fun child inKind => ih child inKind (built.child inKind)
      refine .intro ?_ below
      have here := built.here
      cases kindAt : schema.kind with
      | tuple elements rest =>
          rw [kindAt] at here
          rw [kind_sideOf_tuple kindAt]
          exact List.pairwise_map.mpr here
      | struct fields indexes =>
          rw [kindAt] at here
          rw [kind_sideOf_struct kindAt]
          exact (Kind.wellFormed_projects side).struct fields indexes here
      | union members =>
          have sides : ∀ view ∈ members.map (Schema.sideOf side), view.WellBuilt := by
            intro view inViews
            obtain ⟨member, inMembers, rfl⟩ := List.mem_map.mp inViews
            exact All.of_sides (below member (member_mem_children kindAt inMembers))
          rcases @sideOf_union side _ _ kindAt with ⟨same, _⟩ | rebuilt
          · rw [same]
            exact here
          · rw [rebuilt]
            cases side <;> exact (union sides _).here
      | lazy cell =>
          rw [kind_sideOf_lazy kindAt]
          trivial
      | refinement source filter =>
          cases side with
          | input =>
              rw [inputSide_refinement kindAt]
              exact (below source (refined_mem_children kindAt)).here
          | output =>
              rw [kind_outputSide_refinement kindAt]
              trivial
      | transform source target decode encode strict =>
          cases side with
          | input =>
              rw [inputSide_transform kindAt]
              exact (below source (source_mem_children kindAt)).here
          | output =>
              rw [outputSide_transform kindAt]
              exact (below target (target_mem_children kindAt)).here
      | declaration parameters decode encode =>
          rw [kind_sideOf_declaration kindAt]
          trivial
      | _ =>
          rw [sideOf_leaf (by rw [kindAt]; trivial)]
          exact here

theorem sideOf (built : schema.WellBuilt) (side : Side) : (schema.sideOf side).WellBuilt :=
  All.of_sides (kind_sideOf side built)

theorem withoutRefinements (built : schema.WellBuilt) : schema.withoutRefinements.WellBuilt := by
  induction schema using childInduction with
  | node schema ih =>
      cases kindAt : schema.kind with
      | refinement source filter =>
          have below := refined_mem_children kindAt
          rw [withoutRefinements_of_refinement kindAt]
          exact ih source below (built.child below)
      | _ =>
          rw [withoutRefinements_of_ne (by simp [kindAt])]
          exact built

/-! ### Refinements, transformations and declarations -/

theorem refine (source : schema.WellBuilt) (id : NodeId) (filter : Filter) :
    (Schema.refine id schema filter).WellBuilt := by
  refine .intro trivial fun child below => ?_
  rw [List.mem_singleton.mp below]
  exact source

theorem transform (source : schema.WellBuilt) (target : other.WellBuilt) (id : NodeId)
    (decode encode : Transformer) (strict : Bool) :
    (plain id (.transform schema other decode encode strict)).WellBuilt := by
  refine .intro trivial fun child below => ?_
  rcases List.mem_cons.mp below with rfl | isLast
  · exact source
  · rw [List.mem_singleton.mp isLast]
    exact target

theorem nonStrict (built : schema.WellBuilt) (id : NodeId) : (schema.nonStrict id).WellBuilt := by
  unfold Schema.nonStrict
  split
  · rename_i source target decode encode strict isTransform
    refine (transform ?_ ?_ id decode encode false).of_kind rfl
    · exact built.child (source_mem_children isTransform)
    · exact built.child (target_mem_children isTransform)
  · exact built

theorem declare {parameters : List Schema} (each : ∀ parameter ∈ parameters, parameter.WellBuilt)
    (id : NodeId) (decode encode : Hook) :
    (Schema.declare id parameters decode encode).WellBuilt :=
  .intro trivial each

theorem date : Schema.date.WellBuilt :=
  of_kind (declare (by simp) (.standard 13) dateHook dateHook) rfl

/-! ### Arrays -/

private theorem tuple_of_ordered {elements : List (Element Schema)} {rest : List Schema}
    (ordered : RequiredFirst elements)
    (eachElement : ∀ element ∈ elements, element.schema.WellBuilt)
    (eachRest : ∀ schema ∈ rest, schema.WellBuilt) (id : NodeId) :
    (plain id (.tuple elements rest)).WellBuilt := by
  refine .intro ordered fun child below => ?_
  rcases List.mem_append.mp below with inElements | inRest
  · obtain ⟨element, member, rfl⟩ := List.mem_map.mp inElements
    exact eachElement element member
  · exact eachRest child inRest

theorem tupleOf {items : List Schema} (each : ∀ item ∈ items, item.WellBuilt) (id : NodeId) :
    (Schema.tupleOf id items).WellBuilt := by
  have required : ∀ element ∈ items.map fun item => (⟨item, false⟩ : Element Schema),
      element.optional = false := by simp
  refine tuple_of_ordered (.of_alike required) (fun element member => ?_) (by simp) id
  obtain ⟨item, inItems, rfl⟩ := List.mem_map.mp member
  exact each item inItems

theorem tuple {parts : List TuplePart} (each : ∀ part ∈ parts, part.schema.WellBuilt)
    (made : Schema.tuple id parts = .ok schema) : schema.WellBuilt := by
  obtain ⟨elements, rest, isTuple, below⟩ := exists_tuple_of_tuple made
  refine .intro ?_ fun child inKind => ?_
  · rw [isTuple]
    exact requiredFirst_of_tuple made isTuple
  · obtain ⟨part, inParts, rfl⟩ := below child inKind
    exact each part inParts

/-! ### Structs -/

theorem checkedStruct {fields : List (Field Schema)} {indexes : List (IndexSignature Schema)}
    (eachField : ∀ field ∈ fields, field.schema.WellBuilt)
    (eachIndex : ∀ index ∈ indexes, index.WellBuilt)
    (made : Schema.checkedStruct id fields indexes = .ok schema) : schema.WellBuilt := by
  obtain ⟨rfl, unrepeated⟩ := exists_struct_of_checked made
  have distinct := (nodup_of_not_repeated unrepeated).1
  refine .intro ⟨distinct, fun index inIndexes => ?_⟩ fun child below => ?_
  · exact (eachIndex index inIndexes).tells
  · rcases List.mem_append.mp below with inFields | inIndexes
    · obtain ⟨field, member, rfl⟩ := List.mem_map.mp inFields
      exact eachField field member
    · obtain ⟨index, member, among⟩ := List.mem_flatMap.mp inIndexes
      have signature := eachIndex index member
      simp only [List.mem_cons, List.not_mem_nil, or_false] at among
      rcases among with rfl | rfl
      · exact signature.parameter
      · exact signature.schema

theorem struct {fields : List (Field Schema)} {indexes : List (Schema × Schema)}
    (eachField : ∀ field ∈ fields, field.schema.WellBuilt)
    (eachIndex : ∀ index ∈ indexes, index.1.WellBuilt ∧ index.2.WellBuilt)
    (made : Schema.struct id fields indexes = .ok schema) : schema.WellBuilt := by
  obtain ⟨signatures, accepted, checked⟩ := exists_ok_of_bind made
  refine checkedStruct eachField (fun index inSignatures => ?_) checked
  obtain ⟨⟨parameter, value⟩, inIndexes, signed⟩ := exists_ok_of_mapM accepted inSignatures
  obtain ⟨rfl, tells⟩ := eq_of_indexSignature signed
  exact ⟨tells, (eachIndex _ inIndexes).1, (eachIndex _ inIndexes).2⟩

theorem structOf {fields : List (PropertyKey × Schema)}
    (each : ∀ field ∈ fields, field.2.WellBuilt)
    (made : Schema.structOf id fields = .ok schema) : schema.WellBuilt := by
  refine struct (fun field member => ?_) (by simp) made
  obtain ⟨given, inFields, rfl⟩ := List.mem_map.mp member
  exact each given inFields

theorem record {key value : Schema} (ofKey : key.WellBuilt) (ofValue : value.WellBuilt)
    (made : Schema.record id key value = .ok schema) : schema.WellBuilt := by
  obtain ⟨parts, _, structured⟩ := exists_ok_of_bind made
  obtain ⟨fields, signatures, isStruct, below⟩ := exists_struct_of_record made
  refine .intro ?_ fun child inKind => ?_
  · have here := wellFormed_of_struct structured
    rw [isStruct] at here ⊢
    exact here
  · rcases below child inKind with rfl | inKey
    · exact ofValue
    · exact all_of_mem_alternatives ofKey inKey

/-- The parts of a struct that is well built. -/
theorem parts {fields : List (Field Schema)} {indexes : List (IndexSignature Schema)}
    (built : schema.WellBuilt) (isStruct : schema.kind = .struct fields indexes) :
    (∀ field ∈ fields, field.schema.WellBuilt) ∧ ∀ index ∈ indexes, index.WellBuilt := by
  have here := built.here
  rw [isStruct] at here
  refine ⟨fun field member => built.child (field_mem_children isStruct member), ?_⟩
  intro index member
  obtain ⟨ofParameter, ofSchema⟩ := index_mem_children isStruct member
  exact ⟨here.2 index member, built.child ofParameter, built.child ofSchema⟩

private theorem of_structParts {operation : String} {fields : List (Field Schema)}
    {indexes : List (IndexSignature Schema)} (built : schema.WellBuilt)
    (given : structParts operation schema = .ok (fields, indexes)) :
    (∀ field ∈ fields, field.schema.WellBuilt) ∧ ∀ index ∈ indexes, index.WellBuilt := by
  unfold structParts at given
  split at given
  · rename_i isStruct
    cases given
    exact built.parts isStruct
  · cases given

theorem pick {keys : List PropertyKey} (built : schema.WellBuilt)
    (made : schema.pick id keys = .ok other) : other.WellBuilt := by
  obtain ⟨⟨fields, indexes⟩, given, checked⟩ := exists_ok_of_bind made
  refine checkedStruct (fun field member => ?_) (by simp) checked
  obtain ⟨key, _, found⟩ := List.mem_filterMap.mp member
  exact (built.of_structParts given).1 field (List.mem_of_find?_eq_some found)

theorem leaveOut {keys : List PropertyKey} (built : schema.WellBuilt)
    (made : schema.leaveOut id keys = .ok other) : other.WellBuilt := by
  obtain ⟨⟨fields, indexes⟩, given, checked⟩ := exists_ok_of_bind made
  obtain ⟨eachField, eachIndex⟩ := built.of_structParts given
  exact checkedStruct (fun field member => eachField field (List.mem_filter.mp member).1)
    eachIndex checked

/-! ### Structs with optional fields -/

theorem undefined : Schema.undefined.WellBuilt :=
  of_leaf trivial

theorem weakIndexes {indexes : List (IndexSignature Schema)} {first : Nat}
    (each : ∀ index ∈ indexes, index.WellBuilt) :
    ∀ index ∈ Schema.weakIndexes id first indexes, index.WellBuilt := by
  induction indexes generalizing first with
  | nil => simp [Schema.weakIndexes]
  | cons index rest ih =>
      intro weakened member
      rcases List.mem_cons.mp member with rfl | inRest
      · obtain ⟨tells, ofParameter, ofSchema⟩ := each index List.mem_cons_self
        refine ⟨tells, ofParameter, union ?_ _⟩
        simpa using And.intro ofSchema undefined
      · exact ih (fun other inList => each other (List.mem_cons_of_mem _ inList)) weakened inRest

theorem weakRest {rest : List Schema} (each : ∀ schema ∈ rest, schema.WellBuilt) :
    ∀ schema ∈ Schema.weakRest id rest, schema.WellBuilt := by
  unfold Schema.weakRest
  split
  · simp
  · intro schema member
    rw [List.mem_singleton.mp member]
    refine union (fun part inParts => ?_) _
    rcases List.mem_append.mp inParts with inRest | isLast
    · exact each part inRest
    · rw [List.mem_singleton.mp isLast]
      exact undefined

theorem partialOf (built : schema.WellBuilt) (made : schema.partialOf id = .ok other) :
    other.WellBuilt := by
  induction schema using childInduction generalizing id other with
  | node schema ih =>
      obtain ⟨node, annotations, kind⟩ := schema
      cases kind with
      | struct fields indexes =>
          rw [Schema.partialOf] at made
          obtain ⟨eachField, eachIndex⟩ := built.parts rfl
          refine checkedStruct (fun field member => ?_) (weakIndexes eachIndex) made
          obtain ⟨strong, inFields, rfl⟩ := List.mem_map.mp member
          exact eachField strong inFields
      | tuple elements rest =>
          rw [Schema.partialOf] at made
          cases made
          have eachRest : ∀ schema ∈ rest, schema.WellBuilt := fun schema inRest =>
            built.child (List.mem_append_right _ inRest)
          have optional : ∀ element ∈ elements.map fun element => { element with optional := true },
              element.optional = true := by simp
          refine tuple_of_ordered (.of_alike optional) (fun element member => ?_)
            (weakRest eachRest) id
          obtain ⟨strong, inElements, rfl⟩ := List.mem_map.mp member
          exact built.child (List.mem_append_left _ (List.mem_map.mpr ⟨strong, inElements, rfl⟩))
      | union members =>
          rw [Schema.partialOf] at made
          obtain ⟨weakened, each, rfl⟩ := exists_ok_of_map made
          refine union (fun result member => ?_) id
          obtain ⟨strong, inMembers, number, made⟩ := exists_of_partialOfAll each member
          exact ih strong inMembers (built.child inMembers) made
      | _ => cases made

/-! ### Extended structs -/

section Extend

variable {fields : List (Field Schema)} {indexes : List (IndexSignature Schema)}
  {left right : Schema}

theorem extendByStruct (eachField : ∀ field ∈ fields, field.schema.WellBuilt)
    (eachIndex : ∀ index ∈ indexes, index.WellBuilt) (built : schema.WellBuilt)
    (made : schema.extendByStruct id fields indexes = .ok other) : other.WellBuilt := by
  induction schema using childInduction generalizing id other with
  | node schema ih =>
      obtain ⟨node, annotations, kind⟩ := schema
      cases kind with
      | struct ownFields ownIndexes =>
          rw [Schema.extendByStruct] at made
          obtain ⟨eachOwnField, eachOwnIndex⟩ := built.parts rfl
          refine checkedStruct (fun field member => ?_) (fun index member => ?_) made
          · exact (List.mem_append.mp member).elim (eachOwnField field) (eachField field)
          · exact (List.mem_append.mp member).elim (eachOwnIndex index) (eachIndex index)
      | transform source target decode encode strict =>
          rw [Schema.extendByStruct] at made
          obtain ⟨newSource, madeSource, made⟩ := exists_ok_of_bind made
          obtain ⟨newTarget, madeTarget, made⟩ := exists_ok_of_bind made
          cases made
          have inSource : source ∈ [source, target] := by simp
          have inTarget : target ∈ [source, target] := by simp
          exact transform (ih source inSource (built.child inSource) madeSource)
            (ih target inTarget (built.child inTarget) madeTarget) id decode encode strict
      | union members =>
          rw [Schema.extendByStruct] at made
          obtain ⟨extended, each, rfl⟩ := exists_ok_of_map made
          refine union (fun result member => ?_) id
          obtain ⟨own, inMembers, number, made⟩ := exists_of_extendAllByStruct each member
          exact ih own inMembers (built.child inMembers) made
      | _ => cases made

theorem extendBy (ofLeft : left.WellBuilt) (ofRight : right.WellBuilt)
    (made : Schema.extendBy id left right = .ok other) : other.WellBuilt := by
  induction right using childInduction generalizing id other with
  | node right ih =>
      obtain ⟨node, annotations, kind⟩ := right
      cases kind with
      | struct fields indexes =>
          rw [Schema.extendBy] at made
          obtain ⟨eachField, eachIndex⟩ := ofRight.parts rfl
          exact extendByStruct eachField eachIndex ofLeft made
      | union members =>
          rw [Schema.extendBy] at made
          obtain ⟨extended, each, rfl⟩ := exists_ok_of_map made
          refine union (fun result member => ?_) id
          obtain ⟨own, inMembers, number, made⟩ := exists_of_extendByAll each member
          exact ih own inMembers (ofRight.child inMembers) made
      | _ => cases made

theorem extendEach (ofLeft : left.WellBuilt) (ofRight : right.WellBuilt)
    (made : Schema.extendEach id right left = .ok other) : other.WellBuilt := by
  induction left using childInduction generalizing id other with
  | node left ih =>
      obtain ⟨node, annotations, kind⟩ := left
      cases kind with
      | union members =>
          rw [Schema.extendEach] at made
          obtain ⟨extended, each, rfl⟩ := exists_ok_of_map made
          refine union (fun result member => ?_) id
          obtain ⟨own, inMembers, number, made⟩ := exists_of_extendEachOf each member
          exact ih own inMembers (ofLeft.child inMembers) made
      | _ =>
          rw [Schema.extendEach] at made
          · exact extendBy ofLeft ofRight made
          · nofun

end Extend

theorem attach {key : PropertyKey} {value : Literal} (built : schema.WellBuilt)
    (made : schema.attach id key value = .ok other) : other.WellBuilt := by
  obtain ⟨field, madeField, made⟩ := exists_ok_of_bind made
  obtain ⟨target, madeTarget, made⟩ := exists_ok_of_bind made
  cases made
  have ofLiteral : (Schema.literal (.part id 1) value).WellBuilt := of_leaf trivial
  have ofField : field.WellBuilt := structOf (by simpa using ofLiteral) madeField
  exact transform built (extendEach (built.sideOf .output) ofField madeTarget) id _ _ true

/-! ### Choices -/

private theorem unionOfParts {α : Type} {make : NodeId → α → Schema}
    (each : ∀ id value, (make id value).WellBuilt) (id : NodeId) (values : List α) :
    (Schema.union id (Schema.parts id make 0 values)).WellBuilt := by
  refine union (fun part member => ?_) id
  obtain ⟨node, value, rfl⟩ := exists_made_of_mem_parts member
  exact each node value

theorem templateLiteral {parts : List Schema}
    (made : Schema.templateLiteral id parts = .ok schema) : schema.WellBuilt := by
  obtain ⟨templates, _, made⟩ := exists_ok_of_bind made
  cases made
  exact unionOfParts (fun node template => of_leaf (template.toSchema_leaf node)) id templates

end WellBuilt

/-! ### What can be built -/

/-- The schemas that can be built, with one constructor for each way to build one. The checks of
lengths, bounds and texts are all of the described kind. -/
inductive Built : Schema → Prop where
  | keyword (id : NodeId) (keyword : Keyword) : Built (plain id (.keyword keyword))
  | standard (number : Nat) (identifier : String) (keyword : Keyword) :
      Built (standardKeyword number identifier keyword)
  | null : Built null
  | date : Built date
  | unknownRecord : Built unknownRecord
  | literal (id : NodeId) (value : Literal) : Built (literal id value)
  | literals (id : NodeId) (values : List Literal) : Built (literals id values)
  | uniqueSymbol (id : NodeId) (symbol : Symbol) : Built (uniqueSymbol id symbol)
  | enums (id : NodeId) (members : List EnumMember) : Built (enums id members)
  | template (id : NodeId) (template : Template) : Built (plain id (.template template))
  | templateLiteral {id : NodeId} {parts : List Schema} {schema : Schema}
      (each : ∀ part ∈ parts, Built part) (made : templateLiteral id parts = .ok schema) :
      Built schema
  | lazy (id : NodeId) (cell : LazyCell) : Built (plain id (.lazy cell))
  | declare {parameters : List Schema} (id : NodeId) (decode encode : Hook)
      (each : ∀ parameter ∈ parameters, Built parameter) :
      Built (declare id parameters decode encode)
  | array {item : Schema} (id : NodeId) (built : Built item) : Built (array id item)
  | nonEmptyArray {item : Schema} (id : NodeId) (built : Built item) :
      Built (nonEmptyArray id item)
  | tupleOf {items : List Schema} (id : NodeId) (each : ∀ item ∈ items, Built item) :
      Built (tupleOf id items)
  | tuple {id : NodeId} {parts : List TuplePart} {schema : Schema}
      (each : ∀ part ∈ parts, Built part.schema) (made : tuple id parts = .ok schema) : Built schema
  | struct {id : NodeId} {fields : List (Field Schema)} {indexes : List (Schema × Schema)}
      {schema : Schema} (eachField : ∀ field ∈ fields, Built field.schema)
      (eachParameter : ∀ index ∈ indexes, Built index.1)
      (eachValue : ∀ index ∈ indexes, Built index.2)
      (made : struct id fields indexes = .ok schema) : Built schema
  | structOf {id : NodeId} {fields : List (PropertyKey × Schema)} {schema : Schema}
      (each : ∀ field ∈ fields, Built field.2) (made : structOf id fields = .ok schema) :
      Built schema
  | record {id : NodeId} {key value schema : Schema} (ofKey : Built key) (ofValue : Built value)
      (made : record id key value = .ok schema) : Built schema
  | partialOf {id : NodeId} {schema weak : Schema} (built : Built schema)
      (made : schema.partialOf id = .ok weak) : Built weak
  | pick {id : NodeId} {keys : List PropertyKey} {schema picked : Schema} (built : Built schema)
      (made : schema.pick id keys = .ok picked) : Built picked
  | leaveOut {id : NodeId} {keys : List PropertyKey} {schema left : Schema} (built : Built schema)
      (made : schema.leaveOut id keys = .ok left) : Built left
  | extend {id : NodeId} {left right schema : Schema} (ofLeft : Built left) (ofRight : Built right)
      (made : extend id left right = .ok schema) : Built schema
  | union {schemas : List Schema} (id : NodeId) (each : ∀ schema ∈ schemas, Built schema) :
      Built (union id schemas)
  | nullable {schema : Schema} (id : NodeId) (built : Built schema) : Built (nullable id schema)
  | refine {schema : Schema} (id : NodeId) (filter : Filter) (built : Built schema) :
      Built (refine id schema filter)
  | described {schema : Schema} (id : NodeId) (description : String) (property : Value → Bool)
      (built : Built schema) : Built (described id schema description property)
  | pattern {id : NodeId} {text : String} {schema narrowed : Schema} (built : Built schema)
      (made : schema.pattern id text = .ok narrowed) : Built narrowed
  | brand {schema : Schema} (id : NodeId) (name : String) (built : Built schema) :
      Built (brand id schema name)
  | transform {source target : Schema} (id : NodeId) (decode encode : Transformer)
      (ofSource : Built source) (ofTarget : Built target) :
      Built (transform id source target decode encode)
  | nonStrict {schema : Schema} (id : NodeId) (built : Built schema) : Built (schema.nonStrict id)
  | compose {first second : Schema} (id : NodeId) (ofFirst : Built first)
      (ofSecond : Built second) : Built (compose id first second)
  | numberFromString {source : Schema} (id : NodeId) (built : Built source) :
      Built (numberFromString id source)
  | bigintFromString {source : Schema} (id : NodeId) (built : Built source) :
      Built (bigintFromString id source)
  | dateFromString {source : Schema} (id : NodeId) (built : Built source) :
      Built (dateFromString id source)
  | trim {source : Schema} (id : NodeId) (built : Built source) : Built (trim id source)
  | split {source : Schema} (id : NodeId) (separator : String) (built : Built source) :
      Built (split id source separator)
  | attach {id : NodeId} {key : PropertyKey} {value : Literal} {schema extended : Schema}
      (built : Built schema) (made : schema.attach id key value = .ok extended) : Built extended
  | annotate {schema : Schema} (id : NodeId) (key : AnnotationId) (note : Annotation)
      (built : Built schema) : Built (schema.annotate id key note)
  | annotateAll {schema : Schema} (id : NodeId) (top : Annotations) (built : Built schema) :
      Built (schema.annotateAll id top)
  | sideOf {schema : Schema} (side : Side) (built : Built schema) : Built (schema.sideOf side)
  | withoutRefinements {schema : Schema} (built : Built schema) : Built schema.withoutRefinements

example {source : Schema} (built : Built source) (least : Nat) :
    Built (minLength id source least) :=
  .described id _ _ built

/-- However a schema was built, all its nodes are as they should be. -/
theorem wellBuilt_of_built (built : Built schema) :
    schema.All fun node => node.kind.WellBuilt := by
  suffices wellBuilt : schema.WellBuilt from wellBuilt
  have ofLeaf : ∀ leaf : Schema, leaf.kind.IsLeaf → leaf.WellBuilt := fun _ => .of_leaf
  induction built with
  | keyword id keyword => exact ofLeaf _ trivial
  | standard number identifier keyword => exact ofLeaf _ trivial
  | null => exact ofLeaf _ trivial
  | date => exact .date
  | unknownRecord =>
      have made : struct (.standard 14) [] [(string, unknown)] =
        .ok (plain (.standard 14) (.struct [] [⟨string, unknown⟩])) := rfl
      have parts : string.WellBuilt ∧ unknown.WellBuilt :=
        ⟨ofLeaf string trivial, ofLeaf unknown trivial⟩
      exact (WellBuilt.struct (by simp) (by simpa using parts) made).of_kind rfl
  | literal id value => exact ofLeaf _ trivial
  | literals id values =>
      exact .unionOfParts (fun node value => ofLeaf (literal node value) trivial) id values
  | uniqueSymbol id symbol => exact ofLeaf _ trivial
  | enums id members => exact ofLeaf _ trivial
  | template id template => exact ofLeaf _ trivial
  | templateLiteral _ made => exact .templateLiteral made
  | lazy id cell => exact .intro trivial (by simp [plain, kind, Kind.children])
  | declare id decode encode _ ih => exact .declare ih id decode encode
  | array id _ ih => exact .tuple_of_ordered .nil (by simp) (by simpa using ih) id
  | @nonEmptyArray item id _ ih =>
      have ordered : RequiredFirst [⟨item, false⟩] := List.pairwise_singleton ..
      exact .tuple_of_ordered ordered (by simpa using ih) (by simpa using ih) id
  | tupleOf id _ ih => exact .tupleOf ih id
  | tuple _ made ih => exact .tuple ih made
  | struct _ _ _ made ihField ihParameter ihValue =>
      exact .struct ihField (fun index member => ⟨ihParameter index member, ihValue index member⟩)
        made
  | structOf _ made ih => exact .structOf ih made
  | record _ _ made ihKey ihValue => exact .record ihKey ihValue made
  | partialOf _ made ih => exact ih.partialOf made
  | pick _ made ih => exact WellBuilt.pick ih made
  | leaveOut _ made ih => exact WellBuilt.leaveOut ih made
  | extend _ _ made ihLeft ihRight => exact .extendEach ihLeft ihRight made
  | union id _ ih => exact .union ih id
  | nullable id _ ih => exact .union (by simpa using ⟨ih, ofLeaf null trivial⟩) id
  | refine id filter _ ih => exact .refine ih id filter
  | described id description property _ ih =>
      exact (WellBuilt.refine ih id (propertyFilter property)).of_kind rfl
  | @pattern id text schema narrowed _ made ih =>
      unfold Schema.pattern Schema.patternBy at made
      split at made
      · cases made
        exact (WellBuilt.refine ih id _).of_kind rfl
      · cases made
  | brand id name _ ih => exact WellBuilt.of_kind ih rfl
  | transform id decode encode _ _ ihSource ihTarget =>
      exact .transform ihSource ihTarget id decode encode true
  | nonStrict id _ ih => exact WellBuilt.nonStrict ih id
  | compose id _ _ ihFirst ihSecond => exact .transform ihFirst ihSecond id _ _ true
  | numberFromString id _ ih => exact .transform ih (ofLeaf number trivial) id _ _ true
  | bigintFromString id _ ih => exact .transform ih (ofLeaf bigint trivial) id _ _ true
  | dateFromString id _ ih => exact .transform ih .date id _ _ true
  | trim id _ ih =>
      have target : (trimmed (.part id 0) string).WellBuilt :=
        (WellBuilt.refine (ofLeaf string trivial) (.part id 0) _).of_kind rfl
      exact .transform ih target id _ _ true
  | split id separator _ ih =>
      have target : (array (.part id 0) string).WellBuilt :=
        .tuple_of_ordered .nil (by simp) (by simpa using ofLeaf string trivial) _
      exact .transform ih target id _ _ true
  | attach _ made ih => exact WellBuilt.attach ih made
  | annotate id key note _ ih => exact WellBuilt.of_kind ih rfl
  | annotateAll id top _ ih => exact WellBuilt.of_kind ih rfl
  | sideOf side _ ih => exact WellBuilt.sideOf ih side
  | withoutRefinements _ ih => exact WellBuilt.withoutRefinements ih

/-- A price or null, as it comes out: the union is put together anew from two other nodes. -/
theorem optionalPrice_wellBuilt :
    Built (nullable (.made 1) (numberFromString (.made 0) string)).outputSide ∧
      (nullable (.made 1) (numberFromString (.made 0) string)).outputSide.All
        fun node => node.kind.WellBuilt := by
  have price : Built (numberFromString (.made 0) string) :=
    .numberFromString (.made 0) (.standard 1 "string" .string)
  have built : Built (nullable (.made 1) (numberFromString (.made 0) string)).outputSide :=
    .sideOf .output (.nullable (.made 1) price)
  exact ⟨built, wellBuilt_of_built built⟩

end Schema

end SchemaCodec
