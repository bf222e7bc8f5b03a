import SchemaCodec.Proofs.Document.Aliases
import SchemaCodec.Proofs.Run.Ending

/-!
Runs of documents that were loaded. Everything that a run comes to is compiled from the document, where
no definition is an alias of itself, so that a run follows only finitely many references before it goes
down into the value.
-/

namespace SchemaCodec

/-! ### References into a registry -/

/-- References of the scope stand for what the registry holds, which is compiled from known names. -/
structure Registry.Serves (registry : Registry) (within : DocumentScope) (targets : Targets) :
    Prop where
  targets_eq : ∀ node name, targets ⟨node, within.scope, name⟩ = (registry.get? name).getD .never
  compiled : ∀ {name}, within.knows name = true →
    ∃ schema names, registry.get? name = some schema ∧ schema.Compiled within names

namespace Registry.Serves

variable {registry : Registry} {within : DocumentScope} {targets : Targets}

private theorem resolve_eq (serves : registry.Serves within targets) {node : NodeId} {name : String}
    {schema : Schema} (found : registry.get? name = some schema) :
    (LazyCell.reference ⟨node, within.scope, name⟩).resolve targets = schema := by
  change targets _ = schema
  rw [serves.targets_eq, found]
  rfl

/-- What stands behind a name is guarded, if every way along aliases from the name comes to an end. -/
private theorem guarded_of_acc (serves : registry.Serves within targets) {name : String}
    (ending : Acc (fun target source => registry.Aliases within.scope source target) name)
    {schema : Schema} {names : List String} (found : registry.get? name = some schema)
    (compiled : schema.Compiled within names) (side : Side) : schema.Guarded targets side := by
  induction ending generalizing schema names with
  | intro name _ ih =>
      refine Schema.guarded_of_openCells fun cell member => ?_
      obtain ⟨node, target, rfl, _, known⟩ := compiled.refers member
      obtain ⟨next, _, isNext, nextCompiled⟩ := serves.compiled known
      rw [serves.resolve_eq isNext]
      exact ih target ⟨schema, found, node, member⟩ isNext nextCompiled

/-- Everything that a compiled schema comes to is compiled. -/
private theorem compiled_throughout (serves : registry.Serves within targets) {schema : Schema}
    (compiled : schema.All (·.kind.Compiled within)) :
    schema.Throughout targets (·.kind.Compiled within) := by
  refine Schema.throughout_of_family (fun schema => schema.All (·.kind.Compiled within))
    (fun schema all => ?_) compiled
  refine all.imp fun node here => ⟨here, fun other leads => ?_⟩
  obtain ⟨cell, isLazy, rfl⟩ := here.contained.withoutRequests.exists_lazy leads
  obtain ⟨_, name, rfl, known⟩ := here.refers cell isLazy
  obtain ⟨next, _, isNext, nextCompiled⟩ := serves.compiled known
  rw [serves.resolve_eq isNext]
  exact nextCompiled.nodes

theorem throughout (serves : registry.Serves within targets)
    (ending : ∀ name, Acc (fun target source => registry.Aliases within.scope source target) name)
    {schema : Schema} (compiled : schema.All (·.kind.Compiled within)) :
    schema.Throughout targets fun node =>
      (∀ side, node.Guarded targets side) ∧ node.kind.Contained := by
  intro node reached
  have nodes := (serves.compiled_throughout compiled).of_reaches reached
  refine ⟨fun side => ?_, nodes.here.contained⟩
  -- Nodes inside a definition have ways of their own, and those lead to names as well.
  refine Schema.guarded_of_openCells fun cell member => ?_
  obtain ⟨_, here, isLazy⟩ :=
    Schema.exists_lazy_of_mem_openCells (nodes.all.imp fun _ here => here.1) member
  obtain ⟨_, name, rfl, known⟩ := here.refers cell isLazy
  obtain ⟨next, _, isNext, nextCompiled⟩ := serves.compiled known
  rw [serves.resolve_eq isNext]
  exact serves.guarded_of_acc (ending name) isNext nextCompiled side

end Registry.Serves

/-! ### Documents in a registry of their own -/

namespace Loader

variable {loader : Loader} {session after later : Session} {id : NodeId} {document : SchemaDocument}
  {root : Option Schema} {patterns : Patterns}

private theorem serves_of_compiles {definitions : List (String × Schema)}
    (unused : session.Unused loader.scope)
    (compiles : document.Compiles ⟨loader.scope, document.names, .empty, patterns⟩ root definitions) :
    (Registry.empty.registerAll definitions).Serves ⟨loader.scope, document.names, .empty, patterns⟩
      (session.setRegistry loader.scope (Registry.empty.registerAll definitions)).targets := by
  refine ⟨unused.targets_setRegistry _, fun {name} known => ?_⟩
  obtain ⟨schema, found⟩ :=
    Registry.contains_iff.mp (compiles.contains_registerAll.mpr known)
  rcases Table.mem_insertAll (Table.mem_of_find? found) with impossible | isDefinition
  · cases impossible
  · obtain ⟨node, _, compiled⟩ := compiles.defined isDefinition
    exact ⟨schema, _, found, compiled⟩

/-- The root and the definitions of a document that is loaded into a registry of its own are compiled,
and so is everything that they come to. -/
theorem loaded_compiled (unused : session.Unused loader.scope)
    (loaded : loader.loadDocument session id document patterns = (.ok root, after)) :
    (∀ schema, root = some schema → schema.Throughout after.targets
        (·.kind.Compiled ⟨loader.scope, document.names, .empty, patterns⟩)) ∧
      ∀ name schema, (after.registry loader.scope).get? name = some schema →
        schema.Throughout after.targets
          (·.kind.Compiled ⟨loader.scope, document.names, .empty, patterns⟩) := by
  obtain ⟨definitions, compiles, rfl⟩ := compiles_of_loadDocument loaded
  rw [unused.registry] at compiles ⊢
  have serves := serves_of_compiles unused compiles
  refine ⟨fun schema isRoot => ?_, fun name schema found => ?_⟩
  · obtain ⟨_, compiled⟩ := compiles.chosen isRoot
    exact serves.compiled_throughout compiled.nodes
  · rw [Session.registry_setRegistry] at found
    have known := compiles.contains_registerAll.mp (Registry.contains_iff.mpr ⟨schema, found⟩)
    obtain ⟨_, _, foundToo, compiled⟩ := serves.compiled known
    cases found.symm.trans foundToo
    exact serves.compiled_throughout compiled.nodes

/-- All runs of a document that is loaded into a registry of its own come to an end: those of its root
and those of its definitions, whatever was run before. -/
theorem loaded_ends (unused : session.Unused loader.scope) (distinct : document.names.Nodup)
    (loaded : loader.loadDocument session id document = (.ok root, after))
    (comes : after.ComesTo later) :
    (∀ node, document.root = some node → ∃ schema, root = some schema ∧
      ∀ settings value, Run.Ends later.targets settings schema value) ∧
    ∀ name ∈ document.names, ∃ schema, (after.registry loader.scope).get? name = some schema ∧
      ∀ settings value, Run.Ends later.targets settings schema value := by
  obtain ⟨definitions, compiles, rfl⟩ := compiles_of_loadDocument loaded
  rw [unused.registry] at compiles comes ⊢
  have serves := serves_of_compiles unused compiles
  have free := compiles.aliasFree distinct (Registry.aliasFree_empty loader.scope [])
  have ending : ∀ name, Acc (fun target source =>
      (Registry.empty.registerAll definitions).Aliases loader.scope source target) name := by
    intro name
    refine Subrelation.accessible (fun aliases => ⟨?_, aliases⟩) (free.ending name)
    rintro again
    obtain ⟨_, impossible⟩ := List.mem_filter.mp again
    cases impossible
  have ends : ∀ {schema names}, schema.Compiled ⟨loader.scope, document.names, .empty, .usual⟩ names →
      ∀ settings value, Run.Ends later.targets settings schema value := by
    intro schema names compiled settings value
    rw [comes.targets_eq]
    exact Run.ends_of_guarded (serves.throughout ending compiled.nodes) settings value
  constructor
  · intro node isRoot
    obtain ⟨schema, rfl⟩ := Option.isSome_iff_exists.mp (compiles.rooted.trans (isRoot ▸ rfl))
    obtain ⟨_, compiled⟩ := compiles.chosen rfl
    exact ⟨schema, rfl, ends compiled⟩
  · intro name defined
    have known : DocumentScope.knows ⟨loader.scope, document.names, .empty, .usual⟩ name = true :=
      Bool.or_eq_true_iff.mpr (Or.inl (List.contains_iff_mem.mpr defined))
    obtain ⟨schema, _, found, compiled⟩ := serves.compiled known
    rw [Session.registry_setRegistry]
    exact ⟨schema, found, ends compiled⟩

def categories : SchemaDocument where
  definitions :=
    [("Category", .node (.struct
      [("name", .node (.word .string) {}),
        ("subcategories", .node (.array (.node (.reference "Category") {})) {})] []) {}),
      ("Parent", .node (.nullable (.node (.reference "Category") {})) {})]
  root := some (.node (.reference "Parent") {})

theorem categories_end : ∃ root after,
    (usual 0).loadDocument .empty (.made 1) categories = (.ok (some root), after) ∧
    (∀ settings value, Run.Ends after.targets settings root value) ∧
    ∃ category, (after.registry 0).get? "Category" = some category ∧
      ∀ settings value, Run.Ends after.targets settings category value := by
  have unused : Session.empty.Unused 0 := ⟨rfl, nofun⟩
  have distinct : categories.names.Nodup := by decide
  obtain ⟨ofRoot, ofNames⟩ := @loaded_ends (usual 0) .empty _ _ (.made 1) categories _ unused
    distinct rfl .here
  obtain ⟨schema, isRoot, ends⟩ := ofRoot _ rfl
  exact ⟨schema, _, congrArg (fun root => (Except.ok root, _)) isRoot, ends,
    ofNames "Category" List.mem_cons_self⟩

end Loader

end SchemaCodec
