import SchemaCodec.Document.Compile
import SchemaCodec.Proofs.Checked
import SchemaCodec.Proofs.Run.Kept
import SchemaCodec.Proofs.Schema.Construction
import SchemaCodec.Proofs.Schema.OpenCells
import SchemaCodec.Proofs.Value.Written

/-!
What nodes of documents are compiled to. Lazy nodes refer to known names in the scope of the document;
transformations stay between simple schemas, and dates are the only declarations. Without entering a
composite, a compiled schema comes to no other references than its node does.
-/

namespace SchemaCodec

/-! ### Nodes below nodes -/

def Shape.children {ν : Type} : Shape ν → List ν
  | .array item => [item]
  | .tuple elements rest restElements => elements ++ rest.toList ++ restElements
  | .struct properties indexes =>
    properties.map (·.2) ++ indexes.flatMap fun index => [index.1, index.2]
  | .record key value => [key, value]
  | .union members => members
  | .nullable schema => [schema]
  | .template parts => parts
  | _ => []

namespace SchemaNode

theorem sizeOf_child_lt {node child : SchemaNode} (below : child ∈ node.shape.children) :
    sizeOf child < sizeOf node := by
  obtain ⟨shape, notes⟩ := node
  change child ∈ shape.children at below
  rw [SchemaNode.node.sizeOf_spec]
  suffices inShape : sizeOf child < sizeOf shape by omega
  cases shape with
  | array item =>
      rw [List.mem_singleton.mp below, Shape.array.sizeOf_spec]
      omega
  | tuple elements rest restElements =>
      rw [Shape.tuple.sizeOf_spec]
      rcases List.mem_append.mp below with front | trailing
      · rcases List.mem_append.mp front with element | repeated
        · have inList := List.sizeOf_lt_of_mem element
          omega
        · cases rest with
          | none => cases repeated
          | some node =>
              rw [List.mem_singleton.mp repeated, Option.some.sizeOf_spec]
              omega
      · have inList := List.sizeOf_lt_of_mem trailing
        omega
  | struct properties indexes =>
      rw [Shape.struct.sizeOf_spec]
      rcases List.mem_append.mp below with property | index
      · obtain ⟨entry, member, rfl⟩ := List.mem_map.mp property
        have inList := List.sizeOf_lt_of_mem member
        have inEntry : sizeOf entry.2 < sizeOf entry := by
          cases entry
          simp only [Prod.mk.sizeOf_spec]
          omega
        omega
      · obtain ⟨entry, member, part⟩ := List.mem_flatMap.mp index
        have inList := List.sizeOf_lt_of_mem member
        have inEntry : sizeOf child < sizeOf entry := by
          cases entry
          rw [Prod.mk.sizeOf_spec]
          simp only [List.mem_cons, List.not_mem_nil, or_false] at part
          rcases part with rfl | rfl <;> omega
        omega
  | record key value =>
      rw [Shape.record.sizeOf_spec]
      simp only [Shape.children, List.mem_cons, List.not_mem_nil, or_false] at below
      rcases below with rfl | rfl <;> omega
  | union members =>
      rw [Shape.union.sizeOf_spec]
      have inList : sizeOf child < sizeOf members := List.sizeOf_lt_of_mem below
      omega
  | nullable inner =>
      rw [List.mem_singleton.mp below, Shape.nullable.sizeOf_spec]
      omega
  | template parts =>
      rw [Shape.template.sizeOf_spec]
      have inList : sizeOf child < sizeOf parts := List.sizeOf_lt_of_mem below
      omega
  | _ => cases below

/-- Induction over the nodes one level below. -/
theorem childInduction {motive : SchemaNode → Prop}
    (step : ∀ node, (∀ child ∈ node.shape.children, motive child) → motive node)
    (node : SchemaNode) : motive node :=
  step node fun child _below => childInduction step child
termination_by sizeOf node
decreasing_by exact sizeOf_child_lt _below

end SchemaNode

theorem mem_openReferencesAll {nodes : List SchemaNode} {name : String} :
    name ∈ openReferencesAll nodes ↔ ∃ node ∈ nodes, name ∈ node.openReferences := by
  induction nodes with
  | nil => simp [openReferencesAll]
  | cons node rest ih => simp [openReferencesAll, ih]

/-! ### Compiled schemas -/

def DocumentScope.RefersTo (within : DocumentScope) (names : List String) (cell : LazyCell) : Prop :=
  ∃ node name, cell = .reference ⟨node, within.scope, name⟩ ∧ name ∈ names

/-- A kind of node that documents are compiled to. Transformations decode to values that JSON does not
leave out, and what they encode is written in full. -/
structure Kind.Compiled (within : DocumentScope) (kind : Kind Schema) : Prop where
  contained : kind.Contained
  refers : ∀ cell, kind = .lazy cell →
    ∃ node name, cell = .reference ⟨node, within.scope, name⟩ ∧ within.knows name = true
  decodes : kind.HandsOn Value.Represented (fun _ => True) .decode
  encodes : kind.HandsOn (fun value => value.Represented ∧ value.FreeOfBigints)
    Value.FreeOfBigints .encode

namespace Schema

/-- A schema as it is compiled: it stays with the value only on the way to the names. -/
structure Compiled (within : DocumentScope) (names : List String) (schema : Schema) : Prop where
  nodes : schema.All (·.kind.Compiled within)
  aliases : ∀ cell ∈ schema.openCells, within.RefersTo names cell

namespace Compiled

variable {within : DocumentScope} {names others : List String} {schema other : Schema}

theorem of_kind (compiled : schema.Compiled within names) (same : other.kind = schema.kind) :
    other.Compiled within names :=
  ⟨compiled.nodes.of_kind same, openCells_of_kind same ▸ compiled.aliases⟩

theorem mono (compiled : schema.Compiled within names) (more : names ⊆ others) :
    schema.Compiled within others := by
  refine ⟨compiled.nodes, fun cell inOpen => ?_⟩
  obtain ⟨node, name, isReference, member⟩ := compiled.aliases cell inOpen
  exact ⟨node, name, isReference, more member⟩

/-- The names that the schema comes to without entering a composite are known ones. -/
theorem refers (compiled : schema.Compiled within names) {cell : LazyCell}
    (member : cell ∈ schema.openCells) :
    ∃ node name, cell = .reference ⟨node, within.scope, name⟩ ∧ name ∈ names ∧
      within.knows name = true := by
  obtain ⟨node, name, rfl, inNames⟩ := compiled.aliases cell member
  obtain ⟨_, here, isLazy⟩ := exists_lazy_of_mem_openCells compiled.nodes member
  obtain ⟨_, _, same, known⟩ := here.refers _ isLazy
  cases same
  exact ⟨node, name, rfl, inNames, known⟩

/-- A node that is no way on refers to nothing. -/
theorem of_closed (closed : schema.openCells = []) (here : schema.kind.Compiled within)
    (below : ∀ child ∈ schema.kind.children, child.All (·.kind.Compiled within)) :
    schema.Compiled within names := by
  refine ⟨.intro here below, fun cell inOpen => ?_⟩
  rw [closed] at inOpen
  cases inOpen

theorem of_leaf (leaf : schema.kind.IsLeaf) : schema.Compiled within names := by
  obtain ⟨id, annotations, kind⟩ := schema
  refine of_closed (openCells_leaf leaf) ?_ ?_
  · cases kind <;> first | exact leaf.elim | exact ⟨trivial, nofun, trivial, trivial⟩
  · cases kind <;> first | exact leaf.elim | exact nofun

theorem refinement (compiled : schema.Compiled within names) (id : NodeId) (filter : Filter) :
    (plain id (.refinement schema filter)).Compiled within names := by
  refine ⟨.intro ⟨trivial, nofun, trivial, trivial⟩ fun child below => ?_, compiled.aliases⟩
  rw [List.mem_singleton.mp below]
  exact compiled.nodes

theorem union {schemas : List Schema} (each : ∀ schema ∈ schemas, schema.Compiled within names)
    (id : NodeId) : (Schema.union id schemas).Compiled within names := by
  have nodes := fun schema inList => (each schema inList).nodes
  constructor
  · refine .intro ?_ (All.children_union nodes id)
    have kept := fun node inMembers => (All.unionMembers nodes node inMembers).here
    exact @kind_union (Kind.Compiled within) schemas ⟨trivial, nofun, trivial, trivial⟩
      (fun _ => ⟨trivial, nofun, trivial, trivial⟩) kept id
  · intro cell inOpen
    obtain ⟨schema, inList, inSchema⟩ := exists_of_mem_openCells_union inOpen
    exact (each schema inList).aliases cell inSchema

theorem transform {target : Schema} (source : schema.Compiled within [])
    (isTarget : target.Compiled within []) (sourceStill : schema.Still) (targetStill : target.Still)
    (id : NodeId) {decode encode : Transformer}
    (decodes : decode.HandsOn Value.Represented fun _ => True)
    (encodes : encode.HandsOn (fun value => value.Represented ∧ value.FreeOfBigints)
      Value.FreeOfBigints) :
    (Schema.transform id schema target decode encode).Compiled within names := by
  refine ⟨.intro ⟨⟨sourceStill, targetStill⟩, nofun, decodes, encodes⟩ fun child below => ?_,
    fun cell inOpen => ?_⟩
  · rcases List.mem_cons.mp below with rfl | isLast
    · exact source.nodes
    · rw [List.mem_singleton.mp isLast]
      exact isTarget.nodes
  · have nowhere : ∃ node name, cell = .reference ⟨node, within.scope, name⟩ ∧ name ∈ [] := by
      rcases List.mem_append.mp inOpen with inSource | inTarget
      · exact source.aliases cell inSource
      · exact isTarget.aliases cell inTarget
    obtain ⟨_, _, _, impossible⟩ := nowhere
    cases impossible

end Compiled

/-! ### Words -/

private theorem dateHook_onlyChecks : Hook.OnlyChecks dateHook := by
  intro options direction expected value
  cases value with
  | date instant =>
      refine ⟨_, rfl, fun result given => ?_⟩
      cases given
      rfl
  | _ => exact ⟨_, rfl, nofun⟩

private theorem date_still : date.Still :=
  have contained : date.kind.Contained := ⟨rfl, dateHook_onlyChecks, dateHook_onlyChecks⟩
  .intro ⟨nofun, contained.withoutRequests⟩ nofun

private theorem date_compiled {within : DocumentScope} {names : List String} :
    date.Compiled within names :=
  have checks := And.intro dateHook_onlyChecks dateHook_onlyChecks
  .of_closed rfl ⟨⟨rfl, checks⟩, nofun, checks, checks⟩ nofun

end Schema

/-- Values that are read from texts. -/
private theorem Transformer.HandsOn.reading {α : Type} (read : String → Option α) (make : α → Value)
    {apply : Value → Option Value}
    (reads : ∀ value, apply value = (value.string?.bind read).map make)
    (represented : ∀ given, (make given).Represented) :
    (Transformer.partialOn apply).HandsOn Value.Represented fun _ => True := by
  refine partialOn fun made => ⟨?_, trivial⟩
  rw [reads] at made
  obtain ⟨given, _, rfl⟩ := Option.map_eq_some_iff.mp made
  exact represented given

/-- Texts that are written for values. -/
private theorem Transformer.HandsOn.writing {apply : Value → Option Value}
    (writes : ∀ {value result}, apply value = some result → ∃ text, result = .string text) :
    (Transformer.partialOn apply).HandsOn (fun value => value.Represented ∧ value.FreeOfBigints)
      Value.FreeOfBigints := by
  refine partialOn fun made => ?_
  obtain ⟨text, rfl⟩ := writes made
  exact ⟨⟨rfl, nofun⟩, nofun⟩

theorem WordShape.compiled {within : DocumentScope} {names : List String} (id : NodeId)
    (word : WordShape) : (word.schema id).Compiled within names := by
  have text : Schema.string.Compiled within [] := .of_leaf trivial
  have textStill : Schema.string.Still := Schema.still_of_leaf trivial
  cases word with
  | date => exact Schema.date_compiled
  | numberFromString =>
      have number : Schema.number.kind.IsLeaf := trivial
      exact text.transform (.of_leaf number) textStill (Schema.still_of_leaf number) id
        (.reading Schema.readNumber? .number (fun value => by cases value <;> rfl) fun _ => rfl)
        (.writing fun {value _} made => by cases value <;> cases made; exact ⟨_, rfl⟩)
  | bigintFromString =>
      have bigint : Schema.bigint.kind.IsLeaf := trivial
      exact text.transform (.of_leaf bigint) textStill (Schema.still_of_leaf bigint) id
        (.reading (fun text => Number.readInteger? (Text.trimChars text.toList)) .bigint
          (fun value => by cases value <;> rfl) fun _ => rfl)
        (.writing fun {value _} made => by cases value <;> cases made; exact ⟨_, rfl⟩)
  | dateFromString =>
      exact text.transform Schema.date_compiled textStill Schema.date_still id
        (.reading (fun text => Instant.read? text.toList) .date
          (fun value => by cases value <;> rfl) fun _ => rfl)
        (.writing fun {value _} made => by cases value <;> cases made; exact ⟨_, rfl⟩)
  | trim =>
      have trimmed : (Schema.trimmed (.part id 0) .string).Compiled within [] :=
        (text.refinement (.part id 0) _).of_kind rfl
      have trimmedStill : (Schema.trimmed (.part id 0) .string).Still :=
        .intro ⟨nofun, trivial⟩ fun child below => List.mem_singleton.mp below ▸ textStill
      exact text.transform trimmed textStill trimmedStill id
        (.total fun value => by cases value <;> exact ⟨fun given => given, fun _ => trivial⟩)
        .identity
  | _ => exact .of_leaf trivial

/-! ### Checks and annotations -/

namespace NodeNotes

variable {within : DocumentScope} {names : List String}

private theorem compiled_applied {α : Type} (check : NodeId → Schema → α → Schema)
    (keeps : ∀ id schema bound, schema.Compiled within names →
      (check id schema bound).Compiled within names) {schema : Schema}
    (compiled : schema.Compiled within names) (id : NodeId) (asked : Option α) :
    (applied check id asked schema).Compiled within names := by
  cases asked with
  | none => exact compiled
  | some bound => exact keeps id schema bound compiled

private theorem compiled_described {id : NodeId} {schema : Schema} {description : String}
    {property : Value → Bool} (compiled : schema.Compiled within names) :
    (Schema.described id schema description property).Compiled within names :=
  (compiled.refinement id (Schema.propertyFilter property)).of_kind rfl

/-- The checks of numbers and arrays, and the brand. -/
private theorem compiled_later_checks (notes : NodeNotes) (id : NodeId) {schema : Schema}
    (compiled : schema.Compiled within names) :
    (applied Schema.brand (.part id 11) notes.brand
      (applied Schema.maxItems (.part id 10) notes.maxItems
        (applied Schema.minItems (.part id 9) notes.minItems
          (if notes.int then
            Schema.int (.part id 8) (applied Schema.atMost (.part id 7) notes.maximum
              (applied Schema.atLeast (.part id 6) notes.minimum schema))
          else applied Schema.atMost (.part id 7) notes.maximum
            (applied Schema.atLeast (.part id 6) notes.minimum schema))))).Compiled within names := by
  apply compiled_applied Schema.brand fun _ _ _ compiled => compiled.of_kind rfl
  apply compiled_applied Schema.maxItems fun _ _ _ compiled => compiled_described compiled
  apply compiled_applied Schema.minItems fun _ _ _ compiled => compiled_described compiled
  have bounded : (applied Schema.atMost (.part id 7) notes.maximum
      (applied Schema.atLeast (.part id 6) notes.minimum schema)).Compiled within names := by
    apply compiled_applied Schema.atMost fun _ _ _ compiled => compiled_described compiled
    apply compiled_applied Schema.atLeast fun _ _ _ compiled => compiled_described compiled
    exact compiled
  split
  · exact compiled_described bounded
  · exact bounded

private theorem compiled_check {notes : NodeNotes} {patterns : Patterns} {id : NodeId}
    {schema result : Schema} (compiled : schema.Compiled within names)
    (checked : notes.check patterns id schema = .ok result) :
    result.Compiled within names := by
  have texts : (applied Schema.length (.part id 4) notes.length
      (applied Schema.maxLength (.part id 3) notes.maxLength
        (applied Schema.minLength (.part id 2) notes.minLength schema))).Compiled within names := by
    apply compiled_applied Schema.length fun _ _ _ compiled => compiled_described compiled
    apply compiled_applied Schema.maxLength fun _ _ _ compiled => compiled_described compiled
    apply compiled_applied Schema.minLength fun _ _ _ compiled => compiled_described compiled
    exact compiled
  unfold check at checked
  cases asked : notes.pattern with
  | none =>
      rw [asked] at checked
      cases checked
      exact compiled_later_checks notes id texts
  | some text =>
      rw [asked] at checked
      obtain ⟨patterned, made, after⟩ := exists_ok_of_bind checked
      cases after
      apply compiled_later_checks notes id
      unfold Schema.patternBy at made
      split at made
      · cases made
        exact compiled_described texts
      · cases made

private theorem compiled_annotate (notes : NodeNotes) (id : NodeId) {schema : Schema}
    (compiled : schema.Compiled within names) : (notes.annotate id schema).Compiled within names := by
  have noted : ∀ (key : AnnotationId) (note : String → Annotation) (schema : Schema),
      schema.Compiled within names → ∀ id asked, (applied
        (fun id schema text => schema.annotate id key (note text)) id asked schema).Compiled within
          names :=
    fun key note schema compiled => compiled_applied
      (fun id schema text => schema.annotate id key (note text))
      (fun _ _ _ compiled => compiled.of_kind rfl) compiled
  have identifier := noted .identifier .text schema compiled (.part id 12) notes.identifier
  have title := noted .title .text _ identifier (.part id 13) notes.title
  have description := noted .description .text _ title (.part id 14) notes.description
  exact noted .message (fun text => .message fun _ => some text) _ description (.part id 15)
    notes.message

private theorem compiled_finish {notes : NodeNotes} {patterns : Patterns} {id : NodeId}
    {schema result : Schema} (compiled : schema.Compiled within names)
    (finished : notes.finish patterns id schema = .ok result) :
    result.Compiled within names := by
  obtain ⟨checked, made, rfl⟩ := exists_ok_of_map finished
  exact compiled_annotate notes id (compiled_check compiled made)

end NodeNotes

/-! ### Composites -/

namespace Schema

namespace Compiled

variable {within : DocumentScope} {names : List String} {id : NodeId} {schema : Schema}

private theorem of_tuple {parts : List TuplePart} (built : Schema.tuple id parts = .ok schema)
    (each : ∀ part ∈ parts, part.schema.All (·.kind.Compiled within)) :
    schema.Compiled within names := by
  obtain ⟨elements, rest, isTuple, below⟩ := exists_tuple_of_tuple built
  obtain ⟨node, annotations, kind⟩ := schema
  cases isTuple
  refine of_closed rfl ⟨trivial, nofun, trivial, trivial⟩ fun child inKind => ?_
  obtain ⟨part, inParts, rfl⟩ := below child inKind
  exact each part inParts

private theorem of_struct {fields : List (Field Schema)} {signatures : List (IndexSignature Schema)}
    (isStruct : schema.kind = .struct fields signatures)
    (below : ∀ child ∈ schema.kind.children, child.All (·.kind.Compiled within)) :
    schema.Compiled within names := by
  obtain ⟨node, annotations, kind⟩ := schema
  cases isStruct
  exact of_closed rfl ⟨trivial, nofun, trivial, trivial⟩ below

private theorem of_fields {fields : List (Field Schema)} {indexes : List (Schema × Schema)}
    (built : Schema.struct id fields indexes = .ok schema)
    (eachField : ∀ field ∈ fields, field.schema.All (·.kind.Compiled within))
    (eachIndex : ∀ index ∈ indexes, index.1.All (·.kind.Compiled within) ∧
      index.2.All (·.kind.Compiled within)) : schema.Compiled within names := by
  obtain ⟨signatures, isStruct, below⟩ := exists_struct_of_struct built
  refine of_struct isStruct fun child inKind => ?_
  rcases below child inKind with ⟨field, inFields, rfl⟩ | ⟨index, inIndexes, rfl | rfl⟩
  · exact eachField field inFields
  · exact (eachIndex index inIndexes).1
  · exact (eachIndex index inIndexes).2

private theorem of_record {key value : Schema} (built : Schema.record id key value = .ok schema)
    (ofKey : key.All (·.kind.Compiled within)) (ofValue : value.All (·.kind.Compiled within)) :
    schema.Compiled within names := by
  obtain ⟨fields, signatures, isStruct, below⟩ := exists_struct_of_record built
  refine of_struct isStruct fun child inKind => ?_
  rcases below child inKind with rfl | inKey
  · exact ofValue
  · exact all_of_mem_alternatives ofKey inKey

end Compiled

end Schema

/-! ### Nodes -/

namespace SchemaNode

variable {within : DocumentScope}

private theorem exists_node_of_compileAll {id : NodeId} {first : Nat} {nodes : List SchemaNode}
    {schemas : List Schema} (made : compileAll within id first nodes = .ok schemas) {schema : Schema}
    (member : schema ∈ schemas) :
    ∃ node ∈ nodes, ∃ id, node.compile within id = .ok schema := by
  have cons : ∀ first (node : SchemaNode) rest, compileAll within id first (node :: rest) = do
      let schema ← node.compile within (.part id first)
      return schema :: (← compileAll within id (first + 1) rest) := fun _ _ _ => rfl
  obtain ⟨node, inNodes, number, compiled⟩ :=
    exists_ok_of_numbered made member (fun _ => rfl) cons
  exact ⟨node, inNodes, _, compiled⟩

private theorem exists_node_of_compileElements {id : NodeId} {first : Nat} {nodes : List SchemaNode}
    {parts : List Schema.TuplePart} (made : compileElements within id first nodes = .ok parts)
    {part : Schema.TuplePart} (member : part ∈ parts) :
    ∃ node ∈ nodes, ∃ id, node.compile within id = .ok part.schema := by
  have cons : ∀ first (node : SchemaNode) rest, compileElements within id first (node :: rest) = do
      let part ← (node.compile within (.part id first)).map node.notes.element
      return part :: (← compileElements within id (first + 1) rest) := by
    intro first node rest
    rw [compileElements]
    cases node.compile within (.part id first) <;> rfl
  obtain ⟨node, inNodes, number, noted⟩ :=
    exists_ok_of_numbered made member (fun _ => rfl) cons
  obtain ⟨schema, compiled, rfl⟩ := exists_ok_of_map noted
  have same : (node.notes.element schema).schema = schema := by
    unfold NodeNotes.element
    split <;> rfl
  exact ⟨node, inNodes, _, same.symm ▸ compiled⟩

private theorem exists_node_of_compileFields {id : NodeId} {first : Nat}
    {properties : List (String × SchemaNode)} {fields : List (Field Schema)}
    (made : compileFields within id first properties = .ok fields) {field : Field Schema}
    (member : field ∈ fields) :
    ∃ property ∈ properties, ∃ id, property.2.compile within id = .ok field.schema := by
  have cons : ∀ first (property : String × SchemaNode) rest,
      compileFields within id first (property :: rest) = do
        let field ← (property.2.compile within (.part id first)).map
          (property.2.notes.field property.1)
        return field :: (← compileFields within id (first + 1) rest) := by
    intro first property rest
    rw [compileFields]
    cases property.2.compile within (.part id first) <;> rfl
  obtain ⟨property, inProperties, number, noted⟩ :=
    exists_ok_of_numbered made member (fun _ => rfl) cons
  obtain ⟨schema, compiled, rfl⟩ := exists_ok_of_map noted
  exact ⟨property, inProperties, _, compiled⟩

private theorem exists_node_of_compileIndexes {id : NodeId} {first : Nat}
    {entries : List (SchemaNode × SchemaNode)} {indexes : List (Schema × Schema)}
    (made : compileIndexes within id first entries = .ok indexes) {index : Schema × Schema}
    (member : index ∈ indexes) :
    ∃ entry ∈ entries, (∃ id, entry.1.compile within id = .ok index.1) ∧
      ∃ id, entry.2.compile within id = .ok index.2 := by
  have cons : ∀ first (entry : SchemaNode × SchemaNode) rest,
      compileIndexes within id first (entry :: rest) = do
        let index ← (entry.1.compile within (.part (.part id first) 0)).bind fun key =>
          (entry.2.compile within (.part (.part id first) 1)).map fun value => (key, value)
        return index :: (← compileIndexes within id (first + 1) rest) := by
    intro first entry rest
    rw [compileIndexes]
    cases entry.1.compile within (.part (.part id first) 0) with
    | error => rfl
    | ok key => cases entry.2.compile within (.part (.part id first) 1) <;> rfl
  obtain ⟨entry, inEntries, number, both⟩ :=
    exists_ok_of_numbered made member (fun _ => rfl) cons
  obtain ⟨key, compiledKey, after⟩ := exists_ok_of_bind both
  obtain ⟨value, compiledValue, rfl⟩ := exists_ok_of_map after
  exact ⟨entry, inEntries, ⟨_, compiledKey⟩, _, compiledValue⟩

private theorem compiled_literals {α : Type} {names : List String} {id : NodeId}
    {make : NodeId → α → Schema} (leaf : ∀ id given, (make id given).kind.IsLeaf) (list : List α) :
    (Schema.union id (Schema.parts id make 0 list)).Compiled within names := by
  refine .union (fun schema member => ?_) id
  obtain ⟨node, given, rfl⟩ := Schema.exists_made_of_mem_parts member
  exact .of_leaf (leaf node given)

private theorem compiled_reference {id : NodeId} {name : String} {schema : Schema}
    (made : within.reference id name = .ok schema) : schema.Compiled within [name] := by
  unfold DocumentScope.reference at made
  split at made
  case isTrue known =>
    cases made
    have isOpen : ∀ cell, cell ∈ [LazyCell.reference ⟨.part id 0, within.scope, name⟩] →
        within.RefersTo [name] cell := by
      intro cell member
      exact ⟨_, name, List.mem_singleton.mp member, List.mem_singleton.mpr rfl⟩
    refine ⟨.intro ⟨trivial, fun cell isLazy => ?_, trivial, trivial⟩ nofun, isOpen⟩
    cases isLazy
    exact ⟨_, name, rfl, known⟩
  case isFalse => cases made

private theorem compiled_template {id : NodeId} {names : List String} {parts : List Schema}
    {schema : Schema}
    (made : within.template id parts = .ok schema) : schema.Compiled within names := by
  obtain ⟨_, _, after⟩ := exists_ok_of_bind made
  split at after
  · cases after
  · obtain ⟨templates, _, rfl⟩ := exists_ok_of_map after
    exact compiled_literals Template.toSchema_leaf templates

def AllCompile (within : DocumentScope) (nodes : List SchemaNode) : Prop :=
  ∀ node ∈ nodes, ∀ {id schema}, node.compile within id = .ok schema →
    schema.Compiled within node.openReferences

section Shapes

variable {names : List String} {notes : NodeNotes} {id : NodeId} {schema : Schema}

private theorem compiled_array {item : SchemaNode}
    (below : AllCompile within (Shape.array item).children)
    (made : (node (.array item) notes).compile within id = .ok schema) :
    schema.Compiled within names := by
  rw [compile.eq_def] at made
  obtain ⟨base, shaped, finished⟩ := exists_ok_of_bind made
  refine NodeNotes.compiled_finish ?_ finished
  obtain ⟨inner, innerMade, rfl⟩ := exists_ok_of_map shaped
  refine .of_closed rfl ⟨trivial, nofun, trivial, trivial⟩ fun child inKind => ?_
  rw [List.mem_singleton.mp inKind]
  exact (below item (List.mem_singleton.mpr rfl) innerMade).nodes

private theorem compiled_tuple {elements : List SchemaNode} {rest : Option SchemaNode}
    {restElements : List SchemaNode}
    (below : AllCompile within (Shape.tuple elements rest restElements).children)
    (made : (node (.tuple elements rest restElements) notes).compile within id = .ok schema) :
    schema.Compiled within names := by
  rw [compile.eq_def] at made
  obtain ⟨front, madeFront, after⟩ := exists_ok_of_bind made
  have ofFront : ∀ part ∈ front, part.schema.All (·.kind.Compiled within) := by
    intro part inFront
    obtain ⟨element, inElements, _, made⟩ := exists_node_of_compileElements madeFront inFront
    exact (below element (List.mem_append_left _ (List.mem_append_left _ inElements)) made).nodes
  cases rest with
  | none =>
      dsimp only at after
      split at after
      · obtain ⟨base, built, finished⟩ := exists_ok_of_bind after
        exact NodeNotes.compiled_finish (.of_tuple built ofFront) finished
      · cases after
  | some repeatedNode =>
      obtain ⟨repeated, madeRepeated, after⟩ := exists_ok_of_bind after
      obtain ⟨later, madeLater, after⟩ := exists_ok_of_bind after
      obtain ⟨base, built, finished⟩ := exists_ok_of_bind after
      refine NodeNotes.compiled_finish (.of_tuple built fun part inParts => ?_) finished
      rcases List.mem_append.mp inParts with inFront | behind
      · exact ofFront part inFront
      rcases List.mem_cons.mp behind with rfl | inLater
      · have inShape : repeatedNode ∈ (Shape.tuple elements (some repeatedNode)
            restElements).children := by simp [Shape.children]
        exact (below repeatedNode inShape madeRepeated).nodes
      · obtain ⟨schema, inSchemas, rfl⟩ := List.mem_map.mp inLater
        obtain ⟨node, inRest, _, made⟩ := exists_node_of_compileAll madeLater inSchemas
        exact (below node (List.mem_append_right _ inRest) made).nodes

private theorem compiled_struct {properties : List (String × SchemaNode)}
    {indexes : List (SchemaNode × SchemaNode)}
    (below : AllCompile within (Shape.struct properties indexes).children)
    (made : (node (.struct properties indexes) notes).compile within id = .ok schema) :
    schema.Compiled within names := by
  rw [compile.eq_def] at made
  obtain ⟨fields, madeFields, after⟩ := exists_ok_of_bind made
  obtain ⟨entries, madeIndexes, after⟩ := exists_ok_of_bind after
  obtain ⟨base, built, finished⟩ := exists_ok_of_bind after
  refine NodeNotes.compiled_finish (.of_fields built (fun field inFields => ?_)
    fun index inEntries => ?_) finished
  · obtain ⟨property, inProperties, _, made⟩ := exists_node_of_compileFields madeFields inFields
    have inShape := List.mem_append_left (indexes.flatMap fun index => [index.1, index.2])
      (List.mem_map_of_mem (f := (·.2)) inProperties)
    exact (below property.2 inShape made).nodes
  · obtain ⟨entry, inIndexes, ⟨_, madeKey⟩, _, madeValue⟩ :=
      exists_node_of_compileIndexes madeIndexes inEntries
    have inShape : ∀ node ∈ [entry.1, entry.2],
        node ∈ (Shape.struct properties indexes).children := fun node among =>
      List.mem_append_right _ (List.mem_flatMap.mpr ⟨entry, inIndexes, among⟩)
    have isValue : entry.2 ∈ [entry.1, entry.2] := List.mem_cons_of_mem _ List.mem_cons_self
    exact ⟨(below entry.1 (inShape _ List.mem_cons_self) madeKey).nodes,
      (below entry.2 (inShape _ isValue) madeValue).nodes⟩

private theorem compiled_record {keyNode valueNode : SchemaNode}
    (below : AllCompile within (Shape.record keyNode valueNode).children)
    (made : (node (.record keyNode valueNode) notes).compile within id = .ok schema) :
    schema.Compiled within names := by
  rw [compile.eq_def] at made
  obtain ⟨key, madeKey, after⟩ := exists_ok_of_bind made
  obtain ⟨value, madeValue, after⟩ := exists_ok_of_bind after
  obtain ⟨base, built, finished⟩ := exists_ok_of_bind after
  have ofKey := (below keyNode List.mem_cons_self madeKey).nodes
  have ofValue := (below valueNode (List.mem_cons_of_mem _ List.mem_cons_self) madeValue).nodes
  exact NodeNotes.compiled_finish (.of_record built ofKey ofValue) finished

private theorem compiled_union {members : List SchemaNode}
    (below : AllCompile within (Shape.union members).children)
    (made : (node (.union members) notes).compile within id = .ok schema) :
    schema.Compiled within (openReferencesAll members) := by
  rw [compile.eq_def] at made
  obtain ⟨base, shaped, finished⟩ := exists_ok_of_bind made
  refine NodeNotes.compiled_finish ?_ finished
  obtain ⟨schemas, madeAll, rfl⟩ := exists_ok_of_map shaped
  refine .union (fun schema inSchemas => ?_) _
  obtain ⟨node, inMembers, _, made⟩ := exists_node_of_compileAll madeAll inSchemas
  refine (below node inMembers made).mono fun name inNode => ?_
  exact mem_openReferencesAll.mpr ⟨node, inMembers, inNode⟩

private theorem compiled_nullable {innerNode : SchemaNode}
    (below : AllCompile within (Shape.nullable innerNode).children)
    (made : (node (.nullable innerNode) notes).compile within id = .ok schema) :
    schema.Compiled within innerNode.openReferences := by
  rw [compile.eq_def] at made
  obtain ⟨base, shaped, finished⟩ := exists_ok_of_bind made
  refine NodeNotes.compiled_finish ?_ finished
  obtain ⟨inner, innerMade, rfl⟩ := exists_ok_of_map shaped
  refine .union (fun schema inList => ?_) _
  rcases List.mem_cons.mp inList with rfl | isNull
  · exact below innerNode (List.mem_singleton.mpr rfl) innerMade
  · rw [List.mem_singleton.mp isNull]
    exact .of_leaf trivial

end Shapes

/-- Without entering a composite, a compiled schema comes to no other names than its node does. -/
theorem compiled {node : SchemaNode} {id : NodeId} {schema : Schema}
    (made : node.compile within id = .ok schema) : schema.Compiled within node.openReferences := by
  induction node using childInduction generalizing id schema with
  | step node ih =>
      obtain ⟨shape, notes⟩ := node
      have below : AllCompile within shape.children := fun child inShape _ _ => ih child inShape
      cases shape with
      | array item => exact compiled_array below made
      | tuple elements rest restElements => exact compiled_tuple below made
      | struct properties indexes => exact compiled_struct below made
      | record keyNode valueNode => exact compiled_record below made
      | union members => exact compiled_union below made
      | nullable innerNode => exact @compiled_nullable _ _ _ _ innerNode below made
      | word word =>
          rw [compile.eq_def] at made
          obtain ⟨base, shaped, finished⟩ := exists_ok_of_bind made
          cases shaped
          exact NodeNotes.compiled_finish (word.compiled _) finished
      | literal value =>
          rw [compile.eq_def] at made
          obtain ⟨base, shaped, finished⟩ := exists_ok_of_bind made
          obtain ⟨literal, _, rfl⟩ := exists_ok_of_map shaped
          refine NodeNotes.compiled_finish ?_ finished
          exact .of_leaf trivial
      | literals values =>
          rw [compile.eq_def] at made
          obtain ⟨base, shaped, finished⟩ := exists_ok_of_bind made
          obtain ⟨list, _, rfl⟩ := exists_ok_of_map shaped
          have leaf : ∀ id literal, (Schema.literal id literal).kind.IsLeaf := fun _ _ => trivial
          exact NodeNotes.compiled_finish (compiled_literals leaf list) finished
      | enums members =>
          rw [compile.eq_def] at made
          obtain ⟨base, shaped, finished⟩ := exists_ok_of_bind made
          obtain ⟨list, _, rfl⟩ := exists_ok_of_map shaped
          refine NodeNotes.compiled_finish ?_ finished
          exact .of_leaf trivial
      | reference name =>
          rw [compile.eq_def] at made
          obtain ⟨base, shaped, finished⟩ := exists_ok_of_bind made
          exact NodeNotes.compiled_finish (compiled_reference shaped) finished
      | template parts =>
          rw [compile.eq_def] at made
          obtain ⟨base, shaped, finished⟩ := exists_ok_of_bind made
          obtain ⟨schemas, _, after⟩ := exists_ok_of_bind shaped
          exact NodeNotes.compiled_finish (compiled_template after) finished

end SchemaNode

end SchemaCodec
