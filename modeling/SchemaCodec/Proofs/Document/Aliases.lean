import Mathlib.Logic.Relation
import SchemaCodec.Proofs.Document.Definitions
import SchemaCodec.Proofs.Session

/-!
Aliases in a registry. The search for cycles looks at one document, while references also come to names
of earlier documents, and a name may be registered again. A name whose schema was never replaced refers
only to names that were there when it was registered, so that every cycle goes through a name that was
registered a second time.
-/

namespace SchemaCodec

namespace Registry

variable {before after registry : Registry} {scope : Nat} {names more others : List String}

/-- The schema of the first name comes to the second name without entering a composite. -/
def Aliases (registry : Registry) (scope : Nat) (source target : String) : Prop :=
  ∃ schema, registry.get? source = some schema ∧
    ∃ node, .reference ⟨node, scope, target⟩ ∈ schema.openCells

/-- The aliases of all other names than the given ones. -/
def AliasesOutside (registry : Registry) (scope : Nat) (names : List String)
    (source target : String) : Prop :=
  source ∉ names ∧ registry.Aliases scope source target

/-- Every way along aliases comes to an end or to one of the names. -/
structure AliasFree (registry : Registry) (scope : Nat) (names : List String) : Prop where
  known : ∀ {source target}, registry.Aliases scope source target → registry.contains target = true
  ending : ∀ name,
    Acc (fun target source => registry.AliasesOutside scope names source target) name

theorem aliasFree_empty (scope : Nat) (names : List String) : empty.AliasFree scope names := by
  refine ⟨?_, fun name => .intro name ?_⟩
  · rintro source target ⟨_, ⟨⟩, _⟩
  · rintro target ⟨_, _, ⟨⟩, _⟩

theorem AliasFree.mono (free : registry.AliasFree scope names) (more : names ⊆ others) :
    registry.AliasFree scope others :=
  ⟨free.known, fun name => Subrelation.accessible
    (fun way => ⟨fun inNames => way.1 (more inNames), way.2⟩) (free.ending name)⟩

/-- Names that keep their schemas come to an end as before, whatever is registered beside them. -/
private theorem AliasFree.acc_of_kept (free : before.AliasFree scope names) (grows : names ⊆ more)
    (kept : ∀ name, before.contains name = true → name ∉ more → after.get? name = before.get? name)
    {name : String} (registered : before.contains name = true) :
    Acc (fun target source => after.AliasesOutside scope more source target) name := by
  induction free.ending name with
  | intro name _ ih =>
      refine .intro name fun target way => ?_
      obtain ⟨outside, schema, found, comes⟩ := way
      rw [kept name registered outside] at found
      have aliases : before.Aliases scope name target := ⟨schema, found, comes⟩
      exact ih target ⟨fun inNames => outside (grows inNames), aliases⟩ (free.known aliases)

/-- A schema that refers to registered names is registered, perhaps in place of another one. -/
theorem AliasFree.register (free : before.AliasFree scope names) {name : String} {schema : Schema}
    (refers : ∀ node target, .reference ⟨node, scope, target⟩ ∈ schema.openCells →
      before.contains target = true)
    (grows : names ⊆ more)
    (again : ∀ old, before.get? name = some old → old ≠ schema → name ∈ more) :
    (before.register name schema).AliasFree scope more := by
  have keeps : ∀ other, before.contains other = true →
      (before.register name schema).contains other = true := by
    intro other registered
    rw [contains, get?_register]
    split
    · rfl
    · exact registered
  have kept : ∀ other, before.contains other = true → other ∉ more →
      (before.register name schema).get? other = before.get? other := by
    intro other registered outside
    rw [get?_register]
    split
    case isTrue same =>
      subst same
      obtain ⟨old, found⟩ := contains_iff.mp registered
      by_cases unchanged : old = schema
      · rw [found, unchanged]
      · exact absurd (again old found unchanged) outside
    case isFalse => rfl
  refine ⟨?_, fun other => .intro other ?_⟩
  · rintro source target ⟨found, isFound, node, member⟩
    rw [get?_register] at isFound
    split at isFound
    · cases isFound
      exact keeps target (refers node target member)
    · exact keeps target (free.known ⟨found, isFound, node, member⟩)
  · rintro target ⟨outside, found, isFound, node, member⟩
    rw [get?_register] at isFound
    split at isFound
    · cases isFound
      exact free.acc_of_kept grows kept (refers node target member)
    · exact free.acc_of_kept grows kept (free.known ⟨found, isFound, node, member⟩)

/-- A way along aliases keeps outside the names or goes through one of them. -/
private theorem outside_or_through (names : List String) {source target : String}
    (way : Relation.TransGen (registry.Aliases scope) source target) :
    Relation.TransGen (registry.AliasesOutside scope names) source target ∨
      ∃ name ∈ names, Relation.ReflTransGen (registry.Aliases scope) source name ∧
        Relation.TransGen (registry.Aliases scope) name target := by
  induction way with
  | single step =>
      by_cases inNames : source ∈ names
      · exact Or.inr ⟨source, inNames, .refl, .single step⟩
      · exact Or.inl (.single ⟨inNames, step⟩)
  | @tail middle target before step ih =>
      rcases ih with outside | ⟨name, inNames, front, back⟩
      · by_cases inNames : middle ∈ names
        · exact Or.inr ⟨middle, inNames, before.to_reflTransGen, .single step⟩
        · exact Or.inl (outside.tail ⟨inNames, step⟩)
      · exact Or.inr ⟨name, inNames, front, back.tail step⟩

private theorem AliasFree.no_cycle (free : registry.AliasFree scope names) (name : String) :
    ¬Relation.TransGen (registry.AliasesOutside scope names) name name :=
  not_transGen_of_acc free.ending name

end Registry

namespace SchemaDocument

variable {document : SchemaDocument} {registry : Registry} {scope : Nat} {root : Option Schema}
  {definitions : List (String × Schema)} {names : List String} {patterns : Patterns}

def registeredAgain (document : SchemaDocument) (registry : Registry) : List String :=
  document.names.filter fun name => registry.contains name

theorem Compiles.contains_registerAll
    (compiles : document.Compiles ⟨scope, document.names, registry, patterns⟩ root definitions)
    {name : String} :
    (registry.registerAll definitions).contains name = true ↔
      DocumentScope.knows ⟨scope, document.names, registry, patterns⟩ name = true := by
  rw [Registry.contains_registerAll, DocumentScope.knows, Bool.or_eq_true, List.contains_iff_mem,
    compiles.keys]

/-- A document puts no cycle into a registry, as long as its names are new. -/
theorem Compiles.aliasFree
    (compiles : document.Compiles ⟨scope, document.names, registry, patterns⟩ root definitions)
    (distinct : document.names.Nodup) (free : registry.AliasFree scope names) :
    (registry.registerAll definitions).AliasFree scope
      (names ++ document.registeredAgain registry) := by
  have nodup : (Table.keys definitions).Nodup := compiles.keys ▸ distinct
  have kept : ∀ name, registry.contains name = true →
      name ∉ names ++ document.registeredAgain registry →
      (registry.registerAll definitions).get? name = registry.get? name := by
    intro name registered outside
    have notDefined : name ∉ Table.keys definitions := by
      rw [compiles.keys]
      exact fun defined =>
        outside (List.mem_append_right _ (List.mem_filter.mpr ⟨defined, registered⟩))
    rw [Registry.get?_registerAll nodup, Table.find?_eq_none_iff.mpr notDefined, Option.none_or]
  have oldEnds : ∀ {name}, registry.contains name = true → Acc (fun target source =>
      (registry.registerAll definitions).AliasesOutside scope
        (names ++ document.registeredAgain registry) source target) name :=
    free.acc_of_kept (List.subset_append_left _ _) kept
  constructor
  · rintro source target ⟨schema, found, node, member⟩
    rw [compiles.contains_registerAll]
    rw [Registry.get?_registerAll nodup] at found
    rcases Option.or_eq_some_iff.mp found with isDefined | ⟨_, isOld⟩
    · obtain ⟨_, _, compiled⟩ := compiles.defined (Table.mem_of_find? isDefined)
      obtain ⟨_, _, same, _, known⟩ := compiled.refers member
      cases same
      exact known
    · exact Bool.or_eq_true_iff.mpr (Or.inr (free.known ⟨schema, isOld, node, member⟩))
  · intro name
    -- Names of the document end by the search, and whatever they leave the document by ended before.
    induction AliasGraph.ending_of_cycle? compiles.noCycle name with
    | intro name _ ih =>
        refine .intro name ?_
        rintro target ⟨outside, schema, found, node, member⟩
        rw [Registry.get?_registerAll nodup] at found
        rcases Option.or_eq_some_iff.mp found with isDefined | ⟨_, isOld⟩
        · obtain ⟨source, inDocument, compiled⟩ := compiles.defined (Table.mem_of_find? isDefined)
          obtain ⟨_, _, same, isOpen, known⟩ := compiled.refers member
          cases same
          rcases Bool.or_eq_true_iff.mp known with isName | registered
          · have inGraph : Table.has target (AliasGraph.ofDocument document) = true := by
              rw [Table.has_eq_true_iff, AliasGraph.ofDocument, Table.keys, List.map_map]
              exact List.contains_iff_mem.mp isName
            exact ih target ⟨_, find?_ofDocument distinct inDocument, isOpen, inGraph⟩
          · exact oldEnds registered
        · exact oldEnds (free.known ⟨schema, isOld, node, member⟩)

/-- The root takes the name, or the definition of that name keeps it. -/
private theorem Compiles.aliasFree_register
    (compiles : document.Compiles ⟨scope, document.names, registry, patterns⟩ root definitions)
    (distinct : document.names.Nodup) (free : registry.AliasFree scope names) {name : String}
    (isNew : registry.get? name = none) {schema : Schema}
    (isChosen : (root.orElse fun _ => (registry.registerAll definitions).get? name) = some schema) :
    ((registry.registerAll definitions).register name schema).AliasFree scope
      (names ++ document.registeredAgain registry ++
        if document.root.isSome then document.names.filter (· = name) else []) := by
  have loaded := compiles.aliasFree distinct free
  cases root with
  | none =>
      refine loaded.register (fun node target member => ?_) (List.subset_append_left _ _) ?_
      · exact loaded.known ⟨schema, isChosen, node, member⟩
      · intro old found replaced
        rw [Option.orElse_none, found] at isChosen
        exact absurd (Option.some.inj isChosen) replaced
  | some chosen =>
      cases isChosen
      obtain ⟨_, compiled⟩ := compiles.chosen rfl
      refine loaded.register (fun node target member => ?_) (List.subset_append_left _ _) ?_
      · obtain ⟨_, _, same, _, known⟩ := compiled.refers member
        cases same
        exact (compiles.contains_registerAll).mpr known
      · intro old found _
        rw [Registry.get?_registerAll (compiles.keys ▸ distinct), isNew, Option.or_none] at found
        have defined : name ∈ document.names := by
          rw [← compiles.keys]
          exact Table.mem_keys (Table.mem_of_find? found)
        have hasRoot : document.root.isSome = true := compiles.rooted.symm
        rw [if_pos hasRoot]
        exact List.mem_append_right _ (List.mem_filter.mpr ⟨defined, decide_eq_true rfl⟩)

end SchemaDocument

/-! ### Calls of a loader -/

namespace Loader

variable {loader : Loader} {files : Files} {session after : Session} {id : NodeId} {name : String}
  {scope : Nat} {again : List String}

def fetched? (loader : Loader) (files : Files) (name : String) : Option SchemaDocument :=
  (loader.find? files name).bind fun path =>
    match files path with
    | .text content => SchemaDocument.read? (Path.format path) content
    | _ => none

/-- The names that are registered again when a name is loaded: those of the document, and the name
itself if the document defines it and its root takes the place. -/
def registeredAgain (loader : Loader) (files : Files) (registry : Registry) (name : String) :
    List String :=
  match registry.get? name, loader.fetched? files name with
  | none, some document => document.registeredAgain registry ++
      if document.root.isSome then document.names.filter (· = name) else []
  | _, _ => []

theorem compiles_of_loadDocument {document : SchemaDocument} {patterns : Patterns}
    {root : Option Schema}
    (loaded : loader.loadDocument session id document patterns = (.ok root, after)) :
    ∃ definitions, document.Compiles
        ⟨loader.scope, document.names, session.registry loader.scope, patterns⟩ root definitions ∧
      after = session.setRegistry loader.scope
        ((session.registry loader.scope).registerAll definitions) := by
  unfold loadDocument at loaded
  split at loaded
  case h_1 root registry made =>
    cases loaded
    obtain ⟨definitions, compiles, rfl⟩ := SchemaDocument.compiles_of_load made
    exact ⟨definitions, compiles, rfl⟩
  case h_2 => cases loaded

/-- A document that is refused changes nothing. -/
theorem session_of_refused {document : SchemaDocument} {error : BuildError}
    (refused : loader.loadDocument session id document = (.error error, after)) :
    after = session := by
  unfold loadDocument at refused
  split at refused
  · cases refused
  · cases refused
    rfl

theorem exists_document_of_loadFile {path : String} {readers : Readers} {root : Option Schema}
    (loaded : loader.loadFile files session id path readers = (.ok root, after)) :
    ∃ content document, files path = .text content ∧
      readers.document (Path.format path) content = some document ∧
      loader.loadDocument session id document readers.patterns = (.ok root, after) := by
  unfold loadFile at loaded
  split at loaded
  case h_1 content found =>
    unfold loadText at loaded
    split at loaded
    case h_1 document read => exact ⟨content, document, found, read, loaded⟩
    case h_2 => cases loaded
  case h_2 => cases loaded
  case h_3 => cases loaded

/-- A name that is loaded is registered, or its document is loaded now. -/
private theorem load_cases {schema : Schema}
    (loaded : loader.load files session id name = (.ok schema, after)) :
    after = session ∨ (session.registry loader.scope).get? name = none ∧
      ∃ document root middle, loader.fetched? files name = some document ∧
        document.names.Nodup ∧ loader.loadDocument session id document = (.ok root, middle) ∧
        (root.orElse fun _ => (middle.registry loader.scope).get? name) = some schema ∧
        after.registry loader.scope = (middle.registry loader.scope).register name schema := by
  unfold load at loaded
  split at loaded
  case h_1 =>
    cases loaded
    exact Or.inl rfl
  case h_2 isNew =>
    split at loaded
    case h_1 => cases loaded
    case h_2 path isPath =>
      split at loaded
      case h_1 => cases loaded
      case h_2 root middle fromFile =>
        dsimp only at loaded
        split at loaded
        case h_1 => cases loaded
        case h_2 chosen isChosen =>
          cases loaded
          obtain ⟨content, document, found, read, done⟩ := exists_document_of_loadFile fromFile
          have fetched : loader.fetched? files name = some document := by
            rw [fetched?, isPath, Option.bind_some, found]
            exact read
          exact Or.inr ⟨isNew, document, root, middle, fetched,
            SchemaDocument.names_nodup_of_read? read, done, isChosen,
            Session.registry_setRegistry _ _⟩

/-- The registry of the scope comes to be as it is by documents and names that are loaded, in any
order. The list holds the names that were registered again. -/
inductive Loads (scope : Nat) : Session → List String → Prop where
  | start {session : Session} (isEmpty : session.registry scope = .empty) : Loads scope session []
  | document {session after : Session} {again : List String} {paths : List String} {id : NodeId}
      {document : SchemaDocument} {root : Option Schema} (before : Loads scope session again)
      (distinct : document.names.Nodup)
      (loaded : loadDocument ⟨scope, paths⟩ session id document = (.ok root, after)) :
      Loads scope after (again ++ document.registeredAgain (session.registry scope))
  | named {session after : Session} {again : List String} {paths : List String} {files : Files}
      {id : NodeId} {name : String} {schema : Schema} (before : Loads scope session again)
      (loaded : load ⟨scope, paths⟩ files session id name = (.ok schema, after)) :
      Loads scope after
        (again ++ registeredAgain ⟨scope, paths⟩ files (session.registry scope) name)

private theorem aliasFree_of_load {schema : Schema}
    (free : (session.registry loader.scope).AliasFree loader.scope again)
    (loaded : loader.load files session id name = (.ok schema, after)) :
    (after.registry loader.scope).AliasFree loader.scope
      (again ++ loader.registeredAgain files (session.registry loader.scope) name) := by
  rcases load_cases loaded with rfl | ⟨isNew, document, root, middle, fetched, distinct, done,
    isChosen, registered⟩
  · exact free.mono (List.subset_append_left _ _)
  · obtain ⟨definitions, compiles, rfl⟩ := compiles_of_loadDocument done
    rw [Session.registry_setRegistry] at isChosen registered
    rw [registered, registeredAgain, isNew, fetched, ← List.append_assoc]
    exact compiles.aliasFree_register distinct free isNew isChosen

theorem Loads.aliasFree (loads : Loads scope session again) :
    (session.registry scope).AliasFree scope again := by
  induction loads with
  | start isEmpty => exact isEmpty ▸ Registry.aliasFree_empty scope []
  | document _ distinct loaded ih =>
      obtain ⟨definitions, compiles, rfl⟩ := compiles_of_loadDocument loaded
      rw [Session.registry_setRegistry]
      exact compiles.aliasFree distinct ih
  | named _ loaded ih => exact aliasFree_of_load ih loaded

/-- Whoever comes back to a name on the way along aliases has come through a name that was registered
again. -/
theorem exists_again_of_cycle (loads : Loads scope session again)
    (cycle : Relation.TransGen ((session.registry scope).Aliases scope) name name) :
    ∃ other ∈ again, Relation.ReflTransGen ((session.registry scope).Aliases scope) name other ∧
      Relation.TransGen ((session.registry scope).Aliases scope) other name := by
  rcases Registry.outside_or_through again cycle with outside | through
  · exact absurd outside (loads.aliasFree.no_cycle name)
  · exact through

/-! A text, a second name for it, and the first name once more, now for the second one. -/

def onlyDefinition (name : String) (shape : Shape SchemaNode) : SchemaDocument :=
  ⟨[(name, .node shape {})], none⟩

theorem onlyDefinition_distinct (name : String) (shape : Shape SchemaNode) :
    (onlyDefinition name shape).names.Nodup :=
  List.nodup_singleton name

def withName : Session :=
  ((usual 0).loadDocument .empty (.made 1) (onlyDefinition "Name" (.word .string))).2

def withLabel : Session :=
  ((usual 0).loadDocument withName (.made 2) (onlyDefinition "Label" (.reference "Name"))).2

def withLabelledName : Session :=
  ((usual 0).loadDocument withLabel (.made 3) (onlyDefinition "Name" (.reference "Label"))).2

private theorem loads_labelledName : Loads 0 withLabelledName ["Name"] := by
  have name : (usual 0).loadDocument .empty (.made 1) (onlyDefinition "Name" (.word .string)) =
      (.ok none, withName) := rfl
  have label : (usual 0).loadDocument withName (.made 2)
      (onlyDefinition "Label" (.reference "Name")) = (.ok none, withLabel) := rfl
  have nameAgain : (usual 0).loadDocument withLabel (.made 3)
      (onlyDefinition "Name" (.reference "Label")) = (.ok none, withLabelledName) := rfl
  have first := Loads.document (.start rfl) (onlyDefinition_distinct _ _) name
  have second := Loads.document first (onlyDefinition_distinct _ _) label
  exact Loads.document second (onlyDefinition_distinct _ _) nameAgain

private theorem labelledName_cycle :
    Relation.TransGen ((withLabelledName.registry 0).Aliases 0) "Name" "Name" := by
  have toLabel : (withLabelledName.registry 0).Aliases 0 "Name" "Label" :=
    ⟨_, rfl, _, List.mem_singleton.mpr rfl⟩
  have toName : (withLabelledName.registry 0).Aliases 0 "Label" "Name" :=
    ⟨_, rfl, _, List.mem_singleton.mpr rfl⟩
  exact .tail (.single toLabel) toName

theorem labelledName_registered_again : ∃ other ∈ ["Name"],
    Relation.ReflTransGen ((withLabelledName.registry 0).Aliases 0) "Name" other ∧
      Relation.TransGen ((withLabelledName.registry 0).Aliases 0) other "Name" :=
  exists_again_of_cycle loads_labelledName labelledName_cycle

/-! A document whose root refers to the definition under whose name the document is loaded. -/

def categoryFiles : Files := fun path =>
  if path = "./Category.json" then
    .text ("\x7b\"definitions\": \x7b\"Category\": \x7b\"type\": \"struct\", \"properties\": " ++
      "\x7b\"name\": \x7b\"type\": \"string\"\x7d\x7d\x7d\x7d, " ++
      "\"root\": \x7b\"type\": \"ref\", \"name\": \"Category\"\x7d\x7d")
  else .missing

private theorem category_alias : ∃ schema after,
    (usual 0).load categoryFiles .empty (.made 1) "Category" = (.ok schema, after) ∧
      (after.registry 0).Aliases 0 "Category" "Category" := by
  have found : (match (usual 0).load categoryFiles .empty (.made 1) "Category" with
      | (.ok _, after) => ((after.registry 0).get? "Category").any fun schema =>
          schema.openCells.contains
            (.reference ⟨.part (.part (.part (.made 1) 1) 0) 0, 0, "Category"⟩)
      | (.error _, _) => false) = true := by
    decide +kernel
  split at found
  case h_1 schema after made =>
    obtain ⟨registered, isFound, comes⟩ := (Option.any_eq_true _ _).mp found
    exact ⟨schema, after, made, registered, isFound, _, List.contains_iff_mem.mp comes⟩
  case h_2 => cases found

/-- A document that is loaded by name may leave a name that is an alias of itself. -/
theorem cycle_may_be_registered : ¬∀ session again, Loads 0 session again →
    ∀ name, ¬Relation.TransGen ((session.registry 0).Aliases 0) name name := by
  intro acyclic
  obtain ⟨schema, after, made, aliases⟩ := category_alias
  exact acyclic after _ (.named (.start rfl) made) "Category" (.single aliases)

end Loader

end SchemaCodec
