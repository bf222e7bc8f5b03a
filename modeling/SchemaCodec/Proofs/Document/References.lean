import SchemaCodec.Proofs.Document.LoadedRuns
import SchemaCodec.Proofs.Run.Trace

/-!
References into the registry of a loader. A document is loaded as a whole or not at all, and whatever is
loaded and run afterwards, each reference in a schema that the loader gave stands for a definition that
was registered under its name. A name that cannot be loaded leaves something behind only if its document
was loaded and has neither a root nor a definition of the name.
-/

namespace SchemaCodec

namespace Schema

/-- The reference is in the schema, at the bottom of one of its lazy nodes, or in what one of its hooks
asks for. -/
inductive RefersTo (reference : Reference) : Schema → Prop where
  | here {schema : Schema} {cell : LazyCell} (isLazy : schema.kind = .lazy cell)
      (isRoot : cell.root = reference) : RefersTo reference schema
  | child {schema child : Schema} (below : child ∈ schema.kind.children)
      (refers : RefersTo reference child) : RefersTo reference schema
  | asked {schema other : Schema} (asks : schema.kind.Asks other)
      (refers : RefersTo reference other) : RefersTo reference schema

def Holds (holds : Reference → Prop) (kind : Kind Schema) : Prop :=
  (∀ cell, kind = .lazy cell → holds cell.root) ∧
    ∀ other, kind.Asks other → ∀ reference, other.RefersTo reference → holds reference

private theorem holds_projects (holds : Reference → Prop) (side : Side) :
    Kind.Projects side (Holds holds) (Holds holds) :=
  have ofCells := @Run.lazy_projects (fun cell => holds cell.root) (fun _ _ _ below => below) side
  ofCells.and
    (Kind.asks_projects side fun other => ∀ reference, other.RefersTo reference → holds reference)

variable {schema : Schema}

private theorem all_of_refersTo {holds : Reference → Prop}
    (each : ∀ reference, schema.RefersTo reference → holds reference) :
    schema.All fun node => Holds holds node.kind := by
  induction schema using childInduction with
  | node schema ih =>
      refine .intro ⟨fun cell isLazy => each _ (.here isLazy rfl), fun other asks reference refers =>
        each _ (.asked asks refers)⟩ fun child below => ?_
      exact ih child below fun reference refers => each reference (.child below refers)

private theorem RefersTo.of_all (holds : Reference → Prop) {reference : Reference}
    (refers : schema.RefersTo reference) (all : schema.All fun node => Holds holds node.kind) :
    holds reference := by
  induction refers with
  | here isLazy isRoot => exact isRoot ▸ all.here.1 _ isLazy
  | child below _ ih => exact ih (all.child below)
  | asked asks refers _ => exact all.here.2 _ asks _ refers

end Schema

namespace Loader

variable {scope : Nat} {session after : Session} {roots : List Schema}
  {held : List (String × Schema)}

/-! ### Loading and using -/

/-- The reference is in one of the schemas that loads gave: in the root of a document, or in what the
registry held. -/
def Given (roots : List Schema) (held : List (String × Schema)) (reference : Reference) : Prop :=
  ∃ schema, (schema ∈ roots ∨ ∃ name, (name, schema) ∈ held) ∧ schema.RefersTo reference

/-- A loader puts documents into the registry of the scope, which is empty at first, and the schemas
that it gives are run. The lists hold the roots, and what the registry has held after each document. -/
inductive History (scope : Nat) : Session → List Schema → List (String × Schema) → Prop where
  | start {session : Session} (unused : session.Unused scope) : History scope session [] []
  | loaded {session after : Session} {roots : List Schema} {held : List (String × Schema)}
      {paths : List String} {id : NodeId} {document : SchemaDocument} {root : Option Schema}
      (before : History scope session roots held) (distinct : document.names.Nodup)
      (load : loadDocument ⟨scope, paths⟩ session id document = (.ok root, after)) :
      History scope after (roots ++ root.toList) (held ++ (after.registry scope).entries)
  | refused {session after : Session} {roots : List Schema} {held : List (String × Schema)}
      {paths : List String} {id : NodeId} {document : SchemaDocument} {error : BuildError}
      (before : History scope session roots held)
      (load : loadDocument ⟨scope, paths⟩ session id document = (.error error, after)) :
      History scope after roots held
  | run {session : Session} {roots : List Schema} {held : List (String × Schema)} {schema : Schema}
      (before : History scope session roots held)
      (given : ∀ reference, schema.RefersTo reference → Given roots held reference)
      (settings : Run.Settings) (input : Value) :
      History scope (session.parse settings schema input).2 roots held
  | entered {session : Session} {roots : List Schema} {held : List (String × Schema)}
      {cell : LazyCell} (before : History scope session roots held)
      (given : Given roots held cell.root) : History scope (session.enter cell).2 roots held

/-- The second session is the first one with the definitions of the document put on top of what the
registry of the scope held. -/
structure PutOnTop (scope : Nat) (document : SchemaDocument) (session after : Session) : Prop where
  defined : ∀ {name node}, (name, node) ∈ document.definitions → ∃ id schema,
    node.compile ⟨scope, document.names, session.registry scope, .usual⟩ id = .ok schema ∧
      (after.registry scope).get? name = some schema
  others : ∀ {name}, name ∉ document.names →
    (after.registry scope).get? name = (session.registry scope).get? name
  elsewhere : after = session.setRegistry scope (after.registry scope)

/-! ### One document -/

private theorem putOnTop_of_loaded {paths : List String} {id : NodeId} {document : SchemaDocument}
    {root : Option Schema} (distinct : document.names.Nodup)
    (loaded : loadDocument ⟨scope, paths⟩ session id document = (.ok root, after)) :
    PutOnTop scope document session after := by
  unfold loadDocument at loaded
  split at loaded
  case h_2 => cases loaded
  case h_1 root registry load =>
    cases loaded
    obtain ⟨_, definitions, made, _, rfl⟩ := SchemaDocument.exists_definitions_of_load load
    have keys := SchemaDocument.keys_of_compileDefinitions made
    have distinctKeys : (Table.keys definitions).Nodup := keys ▸ distinct
    refine ⟨fun {name node} inDocument => ?_, fun {name} notDefined => ?_, ?_⟩
    · have isKey : name ∈ Table.keys definitions := keys ▸ List.mem_map_of_mem inDocument
      obtain ⟨⟨_, schema⟩, member, rfl⟩ := List.mem_map.mp isKey
      obtain ⟨other, inDocumentToo, id, compiled⟩ :=
        SchemaDocument.exists_node_of_compileDefinitions made member
      cases Option.some.inj ((Table.find?_of_mem distinct inDocument).symm.trans
        (Table.find?_of_mem distinct inDocumentToo))
      refine ⟨id, schema, compiled, ?_⟩
      rw [Session.registry_setRegistry, Registry.get?_registerAll distinctKeys,
        Table.find?_of_mem distinctKeys member]
      rfl
    · rw [Session.registry_setRegistry]
      exact Registry.get?_registerAll_of_not_mem (keys ▸ notDefined)
    · rw [Session.registry_setRegistry]

/-! ### A document by name -/

section Named

variable {loader : Loader} {files : Files} {id : NodeId} {name : String} {error : BuildError}

private theorem session_of_unread {path : String}
    (refused : loader.loadFile files session id path = (.error error, after)) : after = session := by
  unfold loadFile at refused
  split at refused
  case h_1 content =>
    unfold loadText at refused
    split at refused
    case h_1 => exact session_of_refused refused
    case h_2 =>
      cases refused
      rfl
  case h_2 =>
    cases refused
    rfl
  case h_3 =>
    cases refused
    rfl

private theorem failed_load_cases
    (failed : loader.load files session id name = (.error error, after)) :
    after = session ∨ ∃ path document, loader.find? files name = some path ∧
      loader.fetched? files name = some document ∧ document.names.Nodup ∧
      loader.loadDocument session id document = (.ok none, after) ∧
      (after.registry loader.scope).get? name = none ∧
      error = .notFound (path ++ " has no root and no definition " ++ name) := by
  unfold load at failed
  split at failed
  case h_1 => cases failed
  case h_2 =>
    split at failed
    case h_1 =>
      cases failed
      exact Or.inl rfl
    case h_2 path isPath =>
      split at failed
      case h_1 fromFile =>
        cases failed
        exact Or.inl (session_of_unread fromFile)
      case h_2 root middle fromFile =>
        dsimp only at failed
        split at failed
        case h_2 => cases failed
        case h_1 isAbsent =>
          cases failed
          obtain ⟨content, document, found, read, done⟩ := exists_document_of_loadFile fromFile
          have fetched : loader.fetched? files name = some document := by
            rw [fetched?, isPath, Option.bind_some, found]
            exact read
          cases root with
          | some schema => cases isAbsent
          | none =>
              exact Or.inr ⟨path, document, isPath, fetched,
                SchemaDocument.names_nodup_of_read? read, done, isAbsent, rfl⟩

/-- A name that cannot be loaded leaves everything as it is, but for one case: the document of the name
has no root and does not define the name. Its definitions are registered then. -/
theorem failed_load_leaves (failed : loader.load files session id name = (.error error, after)) :
    after = session ∨ ∃ path document, loader.find? files name = some path ∧
      loader.fetched? files name = some document ∧ document.root = none ∧ name ∉ document.names ∧
      PutOnTop loader.scope document session after ∧
      error = .notFound (path ++ " has no root and no definition " ++ name) := by
  refine (failed_load_cases failed).imp_right ?_
  rintro ⟨path, document, isPath, fetched, distinct, loaded, absent, isError⟩
  have onTop := putOnTop_of_loaded distinct loaded
  obtain ⟨_, compiles, _⟩ := compiles_of_loadDocument loaded
  refine ⟨path, document, isPath, fetched, ?_, fun defined => ?_, onTop, isError⟩
  · exact Option.isNone_iff_eq_none.mp (Option.isSome_eq_false_iff.mp compiles.rooted.symm)
  · obtain ⟨⟨_, node⟩, inDocument, rfl⟩ := List.mem_map.mp defined
    obtain ⟨_, schema, _, found⟩ := onTop.defined inDocument
    rw [found] at absent
    cases absent

/-! A file of an order that defines its items only. -/

def orderFiles : Files := fun path =>
  if path = "./Order.json" then
    .text "\x7b\"definitions\": \x7b\"Item\": \x7b\"type\": \"string\"\x7d\x7d\x7d"
  else .missing

private theorem order_leaves_item : ∃ error after,
    (usual 0).load orderFiles .empty (.made 1) "Order" = (.error error, after) ∧
      (after.registry 0).contains "Item" = true := by
  have failed : (match (usual 0).load orderFiles .empty (.made 1) "Order" with
      | (.ok _, _) => false
      | (.error _, after) => (after.registry 0).contains "Item") = true := by
    decide +kernel
  split at failed
  case h_1 => cases failed
  case h_2 error after made => exact ⟨error, after, made, failed⟩

theorem order_fails : ∃ after, (after.registry 0).contains "Item" = true ∧
    (usual 0).load orderFiles .empty (.made 1) "Order" =
      (.error (.notFound "./Order.json has no root and no definition Order"), after) := by
  obtain ⟨error, after, made, left⟩ := order_leaves_item
  refine ⟨after, left, ?_⟩
  rcases failed_load_leaves made with same | ⟨path, document, isPath, _, _, _, _, isError⟩
  · rw [same] at left
    cases left
  · have isOrder : (usual 0).find? orderFiles "Order" = some "./Order.json" := by decide +kernel
    cases isOrder.symm.trans isPath
    rw [made, isError]
    rfl

/-- A name that cannot be loaded may leave definitions behind. -/
theorem failed_load_may_register : ¬∀ (loader : Loader) (files : Files) (session : Session)
    (id : NodeId) (name : String) (error : BuildError) (after : Session),
    loader.load files session id name = (.error error, after) →
      after.registry loader.scope = session.registry loader.scope := by
  intro traceless
  obtain ⟨_, after, made, left⟩ := order_leaves_item
  have same : after.registry 0 = Session.empty.registry 0 := traceless _ _ _ _ _ _ _ made
  rw [same] at left
  cases left

end Named

/-! ### References of documents -/

/-- References of compiled schemas look up known names in the scope of the document. -/
private theorem known_of_refersTo {within : DocumentScope} {names : List String} {schema : Schema}
    {reference : Reference} (compiled : schema.Compiled within names)
    (refers : schema.RefersTo reference) :
    reference.scope = within.scope ∧ within.knows reference.name = true := by
  refine refers.of_all (fun reference =>
    reference.scope = within.scope ∧ within.knows reference.name = true)
    (compiled.nodes.imp fun node here => ⟨fun cell isLazy => ?_, fun other asks => ?_⟩)
  · obtain ⟨_, name, rfl, known⟩ := here.refers cell isLazy
    exact ⟨rfl, known⟩
  · exact absurd asks (here.contained.withoutRequests.asks_nothing other)

/-! ### Every call -/

/-- What is held of a loader: all that is registered or remembered was registered at some time, and the
references look up names that are registered. -/
structure Sound (scope : Nat) (session : Session) (roots : List Schema)
    (held : List (String × Schema)) : Prop where
  registered : (session.registry scope).entries ⊆ held
  known : ∀ {reference}, Given roots held reference →
    reference.scope = scope ∧ (session.registry scope).contains reference.name = true
  remembered : ∀ {reference schema}, (reference, schema) ∈ session.resolved →
    reference.scope = scope → (reference.name, schema) ∈ held

/-- The first use of the reference has found the schema, or would find it now. -/
def Finds (session : Session) (reference : Reference) (schema : Schema) : Prop :=
  (Table.find? reference session.resolved).or
    ((session.registry reference.scope).get? reference.name) = some schema

private theorem targets_of_finds {reference : Reference} {schema : Schema}
    (finds : Finds session reference schema) : session.targets reference = schema := by
  rw [Session.targets, Session.lookUp_eq]
  unfold Finds at finds
  cases used : Table.find? reference session.resolved with
  | some known =>
      rw [used] at finds
      exact Option.some.inj finds
  | none =>
      rw [used, Option.none_or] at finds
      rw [finds]
      rfl

namespace Sound

private theorem lookUp_mem (sound : Sound scope session roots held) {reference : Reference}
    (given : Given roots held reference) :
    ∃ schema, (reference.name, schema) ∈ held ∧
      (session.registry reference.scope).get? reference.name = some schema := by
  obtain ⟨rfl, contains⟩ := sound.known given
  obtain ⟨schema, found⟩ := Registry.contains_iff.mp contains
  exact ⟨schema, sound.registered (Table.mem_of_find? found), found⟩

private theorem exists_finds (sound : Sound scope session roots held) {reference : Reference}
    (given : Given roots held reference) :
    ∃ schema, (reference.name, schema) ∈ held ∧ Finds session reference schema := by
  unfold Finds
  cases used : Table.find? reference session.resolved with
  | none => exact sound.lookUp_mem given
  | some schema =>
      exact ⟨schema, sound.remembered (Table.mem_of_find? used) (sound.known given).1, rfl⟩

/-- Using references that are given keeps what is held. -/
theorem marks (sound : Sound scope session roots held) (cells : List LazyCell)
    (given : ∀ cell ∈ cells, Given roots held cell.root) :
    Sound scope (cells.foldl Session.mark session) roots held := by
  have same : (cells.foldl Session.mark session).registry scope = session.registry scope := by
    rw [Session.registry, Session.registry, Session.registries_marks]
  refine ⟨same ▸ sound.registered, fun given => same ▸ sound.known given, ?_⟩
  intro reference schema member inScope
  rcases Session.mem_resolved_marks member with before | ⟨cell, inCells, isNew⟩
  · exact sound.remembered before inScope
  · cases isNew
    obtain ⟨schema, inHeld, found⟩ := sound.lookUp_mem (given cell inCells)
    rw [Session.lookUp_eq, found]
    exact inHeld

/-- A schema with given references alone comes to no other references. -/
theorem throughout (sound : Sound scope session roots held) {schema : Schema}
    (given : ∀ reference, schema.RefersTo reference → Given roots held reference) :
    schema.Throughout session.targets fun node =>
      ∀ cell, node.kind = .lazy cell → Given roots held cell.root := by
  refine Schema.throughout_of_family
    (fun schema => schema.All fun node => Schema.Holds (Given roots held) node.kind)
    (fun schema all => all.imp fun node here => ⟨here.1, fun other leads => ?_⟩)
    (Schema.all_of_refersTo given)
  rcases Kind.asks_or_lazy leads with asks | ⟨cell, isLazy, rfl⟩
  · exact Schema.all_of_refersTo (here.2 other asks)
  have behind := here.1 cell isLazy
  clear isLazy leads
  induction cell with
  | reference reference =>
      have given : Given roots held reference := behind
      obtain ⟨target, inHeld, finds⟩ := sound.exists_finds given
      change (session.targets reference).All _
      rw [targets_of_finds finds]
      exact Schema.all_of_refersTo fun other refers => ⟨target, Or.inr ⟨_, inHeld⟩, refers⟩
  | side side node inner ih =>
      exact Schema.All.sideOf (Schema.holds_projects _ side) (ih behind)

theorem run (sound : Sound scope session roots held) {schema : Schema}
    (given : ∀ reference, schema.RefersTo reference → Given roots held reference)
    (settings : Run.Settings) (input : Value) :
    Sound scope (session.parse settings schema input).2 roots held :=
  sound.marks _ (Run.parseTraced_recorded (fun _ _ _ below => below) Session.depthLimit
    (sound.throughout given) input).2

/-- What is loaded refers to names that are registered before or with it. -/
theorem loaded (sound : Sound scope session roots held) {paths : List String} {id : NodeId}
    {document : SchemaDocument} {root : Option Schema}
    (load : loadDocument ⟨scope, paths⟩ session id document = (.ok root, after)) :
    Sound scope after (roots ++ root.toList) (held ++ (after.registry scope).entries) := by
  obtain ⟨definitions, compiles, rfl⟩ := compiles_of_loadDocument load
  rw [Session.registry_setRegistry]
  have contains : ∀ name,
      DocumentScope.knows ⟨scope, document.names, session.registry scope, .usual⟩ name = true →
        ((session.registry scope).registerAll definitions).contains name = true :=
    fun name => compiles.contains_registerAll.mpr
  refine ⟨?_, ?_, ?_⟩
  · rw [Session.registry_setRegistry]
    exact List.subset_append_right _ _
  · rintro reference ⟨schema, isGiven, refers⟩
    rw [Session.registry_setRegistry]
    have ofKnown : reference.scope = scope ∧
        DocumentScope.knows ⟨scope, document.names, session.registry scope, .usual⟩ reference.name = true →
        reference.scope = scope ∧
          ((session.registry scope).registerAll definitions).contains reference.name = true :=
      And.imp_right (contains _)
    have ofOld : Given roots held reference → reference.scope = scope ∧
        ((session.registry scope).registerAll definitions).contains reference.name = true := by
      intro before
      obtain ⟨inScope, registered⟩ := sound.known before
      exact ⟨inScope, contains _ (Bool.or_eq_true_iff.mpr (Or.inr registered))⟩
    rcases isGiven with isRoot | ⟨name, inHeld⟩
    · rcases List.mem_append.mp isRoot with old | new
      · exact ofOld ⟨schema, Or.inl old, refers⟩
      · obtain ⟨_, compiled⟩ := compiles.chosen (Option.mem_toList.mp new)
        exact ofKnown (known_of_refersTo compiled refers)
    · rcases List.mem_append.mp inHeld with old | now
      · exact ofOld ⟨schema, Or.inr ⟨name, old⟩, refers⟩
      · rcases Table.mem_insertAll now with old | new
        · exact ofOld ⟨schema, Or.inr ⟨name, sound.registered old⟩, refers⟩
        · obtain ⟨_, _, compiled⟩ := compiles.defined new
          exact ofKnown (known_of_refersTo compiled refers)
  · intro reference schema member inScope
    exact List.mem_append_left _ (sound.remembered member inScope)

end Sound

theorem History.sound (history : History scope session roots held) :
    Sound scope session roots held := by
  induction history with
  | start unused =>
      refine ⟨unused.registry ▸ List.nil_subset _, ?_, ?_⟩
      · rintro reference ⟨schema, isRoot | ⟨name, inHeld⟩, _⟩
        · cases isRoot
        · cases inHeld
      · exact fun member inScope => absurd inScope (unused.resolved _ member)
  | loaded _ _ load ih => exact ih.loaded load
  | refused _ load ih => exact session_of_refused load ▸ ih
  | run _ given settings input ih => exact ih.run given settings input
  | @entered _ _ _ cell _ given ih =>
      exact ih.marks [cell] fun other member => List.mem_singleton.mp member ▸ given

/-- A document is loaded as a whole or not at all, and at any time each reference that was given stands
for a definition that was registered under its name. -/
theorem History.whole_and_registered (history : History scope session roots held) :
    (∀ {paths id} {document : SchemaDocument}, document.names.Nodup →
      (∀ {error after}, loadDocument ⟨scope, paths⟩ session id document = (.error error, after) →
        after = session) ∧
      ∀ {root after}, loadDocument ⟨scope, paths⟩ session id document = (.ok root, after) →
        PutOnTop scope document session after) ∧
    ∀ {reference}, Given roots held reference → ∃ schema, (reference.name, schema) ∈ held ∧
      Finds session reference schema ∧ session.targets reference = schema := by
  refine ⟨fun distinct => ⟨session_of_refused, putOnTop_of_loaded distinct⟩, fun given => ?_⟩
  obtain ⟨schema, inHeld, finds⟩ := history.sound.exists_finds given
  exact ⟨schema, inHeld, finds, targets_of_finds finds⟩

def withCategories : Session :=
  ((usual 0).loadDocument .empty (.made 1) categories).2

/-- The root of the categories refers to a definition; a document that refers to an unknown one changes
nothing, and one more definition is put on top of the others. -/
theorem categories_registered :
    (∃ error, (usual 0).loadDocument withCategories (.made 2)
      (onlyDefinition "Page" (.reference "Book")) = (.error error, withCategories)) ∧
    (∃ root after, (usual 0).loadDocument withCategories (.made 2)
        (onlyDefinition "Page" (.reference "Parent")) = (.ok root, after) ∧
      PutOnTop 0 (onlyDefinition "Page" (.reference "Parent")) withCategories after) ∧
    ∃ schema, (withCategories.registry 0).get? "Parent" = some schema ∧
      withCategories.targets ⟨.part (.part (.part (.made 1) 1) 0) 0, 0, "Parent"⟩ = schema := by
  have unused : Session.empty.Unused 0 := ⟨rfl, nofun⟩
  have loaded : ∃ root, (usual 0).loadDocument .empty (.made 1) categories =
      (.ok (some root), withCategories) ∧
      root.kind = .lazy (.reference ⟨.part (.part (.part (.made 1) 1) 0) 0, 0, "Parent"⟩) :=
    ⟨_, rfl, rfl⟩
  obtain ⟨root, load, isLazy⟩ := loaded
  have history : History 0 withCategories [root] (withCategories.registry 0).entries :=
    .loaded (.start unused) (by decide) load
  obtain ⟨whole, registered⟩ := history.whole_and_registered
  refine ⟨?_, ?_, ?_⟩
  · have refused : ∃ error after, (usual 0).loadDocument withCategories (.made 2)
        (onlyDefinition "Page" (.reference "Book")) = (.error error, after) := ⟨_, _, rfl⟩
    obtain ⟨error, after, refused⟩ := refused
    rw [(whole (onlyDefinition_distinct _ _)).1 refused] at refused
    exact ⟨error, refused⟩
  · have loaded : ∃ root after, (usual 0).loadDocument withCategories (.made 2)
        (onlyDefinition "Page" (.reference "Parent")) = (.ok root, after) := ⟨_, _, rfl⟩
    obtain ⟨root, after, loaded⟩ := loaded
    exact ⟨root, after, loaded, (whole (onlyDefinition_distinct _ _)).2 loaded⟩
  · obtain ⟨schema, _, finds, stands⟩ :=
      registered ⟨root, Or.inl List.mem_cons_self, .here isLazy rfl⟩
    exact ⟨schema, finds, stands⟩

end Loader

end SchemaCodec
