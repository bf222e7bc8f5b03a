import SchemaCodec.Document.Loader
import SchemaCodec.Proofs.Document.AliasSearch
import SchemaCodec.Proofs.Document.Compile

/-!
What loading a document comes to: its definitions are compiled and registered under their names, and
none of them is an alias of itself.
-/

namespace SchemaCodec

namespace Registry

variable {registry : Registry}

theorem contains_iff {name : String} :
    registry.contains name = true ↔ ∃ schema, registry.get? name = some schema :=
  Option.isSome_iff_exists

theorem get?_register (name other : String) (schema : Schema) :
    (registry.register name schema).get? other =
      if name = other then some schema else registry.get? other :=
  Table.find?_insert name other schema registry.entries

theorem get?_registerAll {entries : List (String × Schema)} (distinct : (Table.keys entries).Nodup)
    (name : String) :
    (registry.registerAll entries).get? name =
      (Table.find? name entries).or (registry.get? name) := by
  refine (Table.find?_insertAll name registry.entries entries).trans ?_
  rw [Table.ofEntries_of_nodup distinct]
  rfl

theorem contains_registerAll {entries : List (String × Schema)} {name : String} :
    (registry.registerAll entries).contains name = true ↔
      name ∈ Table.keys entries ∨ registry.contains name = true := by
  have inRegistry : registry.contains name = true ↔ name ∈ Table.keys registry.entries :=
    Table.has_eq_true_iff
  rw [inRegistry, or_comm, ← Table.mem_keys_insertAll]
  exact Table.has_eq_true_iff

theorem get?_registerAll_of_not_mem {entries : List (String × Schema)} {name : String}
    (absent : name ∉ Table.keys entries) :
    (registry.registerAll entries).get? name = registry.get? name := by
  have noEntry : Table.find? name (Table.ofEntries entries) = none :=
    Table.find?_eq_none_iff.mpr (mt Table.mem_keys_ofEntries.mp absent)
  refine (Table.find?_insertAll name registry.entries entries).trans ?_
  rw [noEntry, Option.none_or]
  rfl

end Registry

namespace SchemaDocument

/-! ### Names -/

private theorem names_nodup_of_ofMembers? {α : Type}
    {definitions : α → Option (List (String × SchemaNode))}
    {root : α → Option (Option SchemaNode)} {members : List (String × α)} {document : SchemaDocument}
    (made : ofMembers? definitions root members = some document) : document.names.Nodup := by
  obtain ⟨_, _, made⟩ := Option.bind_eq_some_iff.mp made
  obtain ⟨_, _, made⟩ := Option.bind_eq_some_iff.mp made
  obtain ⟨_, _, made⟩ := Option.bind_eq_some_iff.mp made
  obtain ⟨_, _, made⟩ := Option.bind_eq_some_iff.mp made
  cases made
  exact Table.nodup_ofEntries _

/-- Definitions of a document that is read have distinct names. -/
theorem names_nodup_of_read? {format : DocumentFormat} {text : String} {document : SchemaDocument}
    (read : read? format text = some document) : document.names.Nodup := by
  cases format with
  | json =>
      obtain ⟨_, _, made⟩ := Option.bind_eq_some_iff.mp read
      obtain ⟨_, _, made⟩ := Option.bind_eq_some_iff.mp made
      exact names_nodup_of_ofMembers? made
  | yaml =>
      obtain ⟨_, _, made⟩ := Option.bind_eq_some_iff.mp read
      obtain ⟨_, _, made⟩ := Option.bind_eq_some_iff.mp made
      exact names_nodup_of_ofMembers? made

theorem find?_ofDocument {document : SchemaDocument} (distinct : document.names.Nodup)
    {name : String} {node : SchemaNode} (member : (name, node) ∈ document.definitions) :
    Table.find? name (AliasGraph.ofDocument document) = some node.openReferences := by
  have nodeFound := Table.find?_of_mem distinct member
  exact (Table.find?_map SchemaNode.openReferences name document.definitions).trans
    (congrArg (Option.map SchemaNode.openReferences) nodeFound)

/-! ### Definitions -/

variable {within : DocumentScope}

theorem keys_of_compileDefinitions {id : NodeId} {first : Nat} {nodes : List (String × SchemaNode)}
    {definitions : List (String × Schema)}
    (made : compileDefinitions within id first nodes = .ok definitions) :
    Table.keys definitions = Table.keys nodes := by
  induction nodes generalizing first definitions with
  | nil =>
      cases made
      rfl
  | cons entry rest ih =>
      obtain ⟨name, node⟩ := entry
      rw [compileDefinitions] at made
      obtain ⟨schema, _, after⟩ := exists_ok_of_bind made
      obtain ⟨others, later, all⟩ := exists_ok_of_bind after
      cases all
      exact congrArg (name :: ·) (ih later)

theorem exists_node_of_compileDefinitions {id : NodeId} {first : Nat}
    {nodes : List (String × SchemaNode)} {definitions : List (String × Schema)}
    (made : compileDefinitions within id first nodes = .ok definitions) {name : String}
    {schema : Schema} (member : (name, schema) ∈ definitions) :
    ∃ node, (name, node) ∈ nodes ∧ ∃ id, node.compile within id = .ok schema := by
  have cons : ∀ first (entry : String × SchemaNode) rest,
      compileDefinitions within id first (entry :: rest) = do
        let definition ← (entry.2.compile within (.part id first)).map fun schema => (entry.1, schema)
        return definition :: (← compileDefinitions within id (first + 1) rest) := by
    intro first entry rest
    rw [compileDefinitions]
    cases entry.2.compile within (.part id first) <;> rfl
  obtain ⟨⟨otherName, node⟩, inNodes, number, named⟩ :=
    exists_ok_of_numbered made member (fun _ => rfl) cons
  obtain ⟨_, compiled, same⟩ := exists_ok_of_map named
  cases same
  exact ⟨node, inNodes, _, compiled⟩

structure Compiles (document : SchemaDocument) (within : DocumentScope) (root : Option Schema)
    (definitions : List (String × Schema)) : Prop where
  noCycle : (AliasGraph.ofDocument document).cycle? = none
  keys : Table.keys definitions = document.names
  defined : ∀ {name schema}, (name, schema) ∈ definitions →
    ∃ node, (name, node) ∈ document.definitions ∧ schema.Compiled within node.openReferences
  rooted : root.isSome = document.root.isSome
  chosen : ∀ {schema}, root = some schema → ∃ names, schema.Compiled within names

theorem exists_definitions_of_load {document : SchemaDocument} {id : NodeId} {scope : Nat}
    {registry after : Registry} {patterns : Patterns} {root : Option Schema}
    (loaded : document.load id scope registry patterns = .ok (root, after)) :
    (AliasGraph.ofDocument document).cycle? = none ∧ ∃ definitions,
      compileDefinitions ⟨scope, document.names, registry, patterns⟩ (.part id 0) 0 document.definitions =
        .ok definitions ∧
      (match document.root with
        | some chosen =>
          (chosen.compile ⟨scope, document.names, registry, patterns⟩ (.part id 1)).map some
        | none => .ok none) = .ok root ∧
      after = registry.registerAll definitions := by
  unfold load at loaded
  cases noCycle : (AliasGraph.ofDocument document).cycle? with
  | some cycle =>
      rw [noCycle] at loaded
      cases loaded
  | none =>
      rw [noCycle] at loaded
      obtain ⟨definitions, made, loaded⟩ := exists_ok_of_bind loaded
      cases chosen : document.root with
      | none =>
          rw [chosen] at loaded
          cases loaded
          exact ⟨rfl, definitions, made, rfl, rfl⟩
      | some node =>
          rw [chosen] at loaded
          obtain ⟨root, isRoot, loaded⟩ := exists_ok_of_bind loaded
          cases loaded
          exact ⟨rfl, definitions, made, isRoot, rfl⟩

theorem compiles_of_load {document : SchemaDocument} {id : NodeId} {scope : Nat}
    {registry after : Registry} {patterns : Patterns} {root : Option Schema}
    (loaded : document.load id scope registry patterns = .ok (root, after)) :
    ∃ definitions, document.Compiles ⟨scope, document.names, registry, patterns⟩ root definitions ∧
      after = registry.registerAll definitions := by
  obtain ⟨noCycle, definitions, made, isRoot, rfl⟩ := exists_definitions_of_load loaded
  have defined : ∀ {name schema}, (name, schema) ∈ definitions →
      ∃ node, (name, node) ∈ document.definitions ∧ schema.Compiled
        ⟨scope, document.names, registry, patterns⟩ node.openReferences := by
    intro name schema member
    obtain ⟨node, inDocument, _, compiled⟩ := exists_node_of_compileDefinitions made member
    exact ⟨node, inDocument, SchemaNode.compiled compiled⟩
  have keys := keys_of_compileDefinitions made
  refine ⟨definitions, ?_, rfl⟩
  cases chosen : document.root with
  | none =>
      rw [chosen] at isRoot
      cases isRoot
      exact ⟨noCycle, keys, defined, congrArg Option.isSome chosen.symm, nofun⟩
  | some node =>
      rw [chosen] at isRoot
      obtain ⟨schema, compiled, rfl⟩ := exists_ok_of_map isRoot
      have rooted : (some schema).isSome = document.root.isSome := by
        rw [chosen]
        rfl
      refine ⟨noCycle, keys, defined, rooted, ?_⟩
      rintro _ ⟨⟩
      exact ⟨_, SchemaNode.compiled compiled⟩

end SchemaDocument

end SchemaCodec
