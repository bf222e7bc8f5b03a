import SchemaCodec.Proofs.Document.Aliases
import SchemaCodec.Proofs.Run.Trace

/-!
The first use of a reference. A reference stands for the definition that was registered under its name
when it was first used. Runs have no other effect on later ones, so that two histories with the same
documents can only differ where a definition was put in the place of another one between the first uses
of a reference in the two.
-/

namespace SchemaCodec

namespace Loader

inductive Event where
  | load (id : NodeId) (document : SchemaDocument)
  | run (settings : Run.Settings) (schema : Schema) (input : Value)

def Event.isLoad : Event → Bool
  | .load _ _ => true
  | .run _ _ _ => false

def after (loader : Loader) (session : Session) : Event → Session
  | .load id document => (loader.loadDocument session id document).2
  | .run settings schema input => (session.parse settings schema input).2

def afterAll (loader : Loader) (session : Session) (events : List Event) : Session :=
  events.foldl loader.after session

def loads (events : List Event) : List Event :=
  events.filter Event.isLoad

/-- How many documents are loaded before the first use of a reference; all, if it is not used. -/
def loadsBeforeUse (loader : Loader) (reference : Reference) : Session → List Event → Nat
  | _, [] => 0
  | session, .load id document :: rest =>
    if Table.has reference session.resolved then 0
    else loader.loadsBeforeUse reference (loader.after session (.load id document)) rest + 1
  | session, .run settings schema input :: rest =>
    if Table.has reference session.resolved then 0
    else loader.loadsBeforeUse reference (loader.after session (.run settings schema input)) rest

def Event.Defines (loader : Loader) (session : Session) (name : String) (event : Event) : Prop :=
  ∃ id document root after, event = .load id document ∧ name ∈ document.names ∧
    loader.loadDocument session id document = (.ok root, after)

def LeavesAlone (loader : Loader) (name : String) : Session → List Event → Prop
  | _, [] => True
  | session, event :: rest =>
    ¬event.Defines loader session name ∧ loader.LeavesAlone name (loader.after session event) rest

/-- After the smaller number of loads and up to the larger one, no definition of the name is
registered. -/
def Undisturbed (loader : Loader) (session : Session) (loads : List Event) (name : String)
    (number other : Nat) : Prop :=
  loader.LeavesAlone name (loader.afterAll session (loads.take (min number other)))
    ((loads.take (max number other)).drop (min number other))

variable {loader : Loader} {session other : Session} {reference : Reference} {events : List Event}

/-! ### Registries -/

private theorem loadDocument_congr (same : session.registries = other.registries) (id : NodeId)
    (document : SchemaDocument) :
    (loader.loadDocument session id document).1 = (loader.loadDocument other id document).1 ∧
      (loader.loadDocument session id document).2.registries =
        (loader.loadDocument other id document).2.registries := by
  have atScope : session.registry loader.scope = other.registry loader.scope := by
    rw [Session.registry, Session.registry, same]
  unfold loadDocument
  rw [atScope]
  split
  · exact ⟨rfl, congrArg (Table.insert loader.scope _) same⟩
  · exact ⟨rfl, same⟩

/-- The registries go by the documents that are loaded. -/
private theorem registries_loads (same : session.registries = other.registries)
    (events : List Event) :
    (loader.afterAll session events).registries =
      (loader.afterAll other (loads events)).registries := by
  induction events generalizing session other with
  | nil => exact same
  | cons event rest ih =>
      cases event with
      | load id document => exact ih (loadDocument_congr same id document).2
      | run settings schema input =>
          exact ih ((Session.registries_parse settings schema input).trans same)

private theorem registries_afterAll (same : session.registries = other.registries)
    {first second : List Event}
    (sameLoads : loads first = loads second) :
    (loader.afterAll session first).registries = (loader.afterAll other second).registries := by
  rw [registries_loads same first, sameLoads]
  exact (registries_loads rfl second).symm

private theorem lookUp_congr (same : session.registries = other.registries)
    (reference : Reference) :
    session.lookUp reference = other.lookUp reference := by
  rw [Session.lookUp, Session.lookUp, same]

private theorem lookUp_load {id : NodeId} {document : SchemaDocument} {root : Option Schema}
    {after : Session}
    (loaded : loader.loadDocument session id document = (.ok root, after))
    (absent : reference.scope = loader.scope → reference.name ∉ document.names) :
    after.lookUp reference = session.lookUp reference := by
  obtain ⟨definitions, compiles, rfl⟩ := compiles_of_loadDocument loaded
  rw [Session.lookUp_eq, Session.lookUp_eq]
  by_cases inScope : reference.scope = loader.scope
  · rw [inScope, Session.registry_setRegistry,
      Registry.get?_registerAll_of_not_mem (compiles.keys ▸ absent inScope)]
  · rw [Session.registry_setRegistry_of_ne inScope]

/-- A name stands for the same as long as no definition of it is registered. -/
private theorem lookUp_after {event : Event}
    (alone : reference.scope = loader.scope → ¬event.Defines loader session reference.name) :
    (loader.after session event).lookUp reference = session.lookUp reference := by
  cases event with
  | run settings schema input => exact lookUp_congr (Session.registries_parse _ _ _) _
  | load id document =>
      cases done : loader.loadDocument session id document with
      | mk answer after =>
          rw [Loader.after, done]
          cases answer with
          | error error => rw [session_of_refused done]
          | ok root =>
              exact lookUp_load done fun inScope defined =>
                alone inScope ⟨id, document, root, after, rfl, defined, done⟩

private theorem lookUp_afterAll
    (alone : reference.scope = loader.scope → loader.LeavesAlone reference.name session events) :
    (loader.afterAll session events).lookUp reference = session.lookUp reference := by
  induction events generalizing session with
  | nil => rfl
  | cons event rest ih =>
      exact (ih fun inScope => (alone inScope).2).trans (lookUp_after fun inScope => (alone inScope).1)

private theorem lookUp_of_undisturbed {loads : List Event} {number otherNumber : Nat}
    (undisturbed : reference.scope = loader.scope →
      loader.Undisturbed session loads reference.name number otherNumber) :
    (loader.afterAll session (loads.take number)).lookUp reference =
      (loader.afterAll session (loads.take otherNumber)).lookUp reference := by
  have atBoth : (loader.afterAll session (loads.take (max number otherNumber))).lookUp reference =
      (loader.afterAll session (loads.take (min number otherNumber))).lookUp reference := by
    have split : loads.take (max number otherNumber) = loads.take (min number otherNumber) ++
        (loads.take (max number otherNumber)).drop (min number otherNumber) := by
      conv_lhs => rw [← List.take_append_drop (min number otherNumber)
        (loads.take (max number otherNumber))]
      rw [List.take_take, min_eq_left (min_le_max)]
    rw [split, afterAll, List.foldl_append]
    exact lookUp_afterAll undisturbed
  rcases Nat.le_total number otherNumber with less | less
  · rw [max_eq_right less, min_eq_left less] at atBoth
    exact atBoth.symm
  · rw [max_eq_left less, min_eq_right less] at atBoth
    exact atBoth

/-! ### First uses -/

private theorem resolved_loadDocument (id : NodeId) (document : SchemaDocument) :
    (loader.loadDocument session id document).2.resolved = session.resolved := by
  unfold loadDocument
  split
  · rfl
  · rfl

/-- A reference that was used keeps what it stands for. -/
private theorem find?_resolved_after {schema : Schema}
    (known : Table.find? reference session.resolved = some schema) (event : Event) :
    Table.find? reference (loader.after session event).resolved = some schema := by
  cases event with
  | run settings schema input => exact Session.find?_resolved_parse known
  | load id document =>
      rw [Loader.after, resolved_loadDocument]
      exact known

private theorem targets_afterAll_of_used {schema : Schema}
    (known : Table.find? reference session.resolved = some schema) (events : List Event) :
    (loader.afterAll session events).targets reference = schema := by
  induction events generalizing session with
  | nil =>
      change (Table.find? reference session.resolved).getD _ = schema
      rw [known]
      rfl
  | cons event rest ih => exact ih (find?_resolved_after known event)

private theorem loadsBeforeUse_of_used (used : Table.has reference session.resolved = true) :
    loader.loadsBeforeUse reference session events = 0 := by
  cases events with
  | nil => rfl
  | cons event rest =>
      cases event with
      | load id document => exact if_pos used
      | run settings schema input => exact if_pos used

/-- A reference stands for what its name is registered for after the loads before its first use. -/
private theorem targets_afterAll (unused : ¬Table.has reference session.resolved = true) :
    (loader.afterAll session events).targets reference =
      (loader.afterAll session
        ((loads events).take (loader.loadsBeforeUse reference session events))).lookUp reference := by
  induction events generalizing session with
  | nil => exact Session.targets_of_unused (Option.not_isSome_iff_eq_none.mp unused)
  | cons event rest ih =>
      cases event with
      | load id document =>
          have stillUnused : ¬Table.has reference
              (loader.after session (.load id document)).resolved = true := by
            rw [Loader.after, resolved_loadDocument]
            exact unused
          rw [loadsBeforeUse, if_neg unused]
          exact ih stillUnused
      | run settings schema input =>
          rw [loadsBeforeUse, if_neg unused]
          -- If the run is the first use, no later load counts; else the first use comes later.
          by_cases used : Table.has reference
              (loader.after session (.run settings schema input)).resolved = true
          · obtain ⟨target, known⟩ := Option.isSome_iff_exists.mp used
            rw [loadsBeforeUse_of_used used]
            calc (loader.afterAll session (.run settings schema input :: rest)).targets reference
              _ = target := targets_afterAll_of_used known rest
              _ = (loader.after session (.run settings schema input)).targets reference :=
                (@targets_afterAll_of_used loader _ _ _ known []).symm
              _ = session.targets reference := by rw [Loader.after, Session.targets_parse]
              _ = session.lookUp reference :=
                Session.targets_of_unused (Option.not_isSome_iff_eq_none.mp unused)
          · refine (ih used).trans (lookUp_congr ?_ reference)
            exact registries_afterAll (Session.registries_parse settings schema input) rfl

/-- A reference stands for the same after both histories, if no definition of its name is registered
between its first uses in the two. -/
private theorem targets_alike {first second : List Event} (sameLoads : loads first = loads second)
    (undisturbed : reference.scope = loader.scope →
      loader.Undisturbed session (loads first) reference.name
        (loader.loadsBeforeUse reference session first)
        (loader.loadsBeforeUse reference session second)) :
    (loader.afterAll session first).targets reference =
      (loader.afterAll session second).targets reference := by
  by_cases used : Table.has reference session.resolved = true
  · obtain ⟨target, known⟩ := Option.isSome_iff_exists.mp used
    rw [targets_afterAll_of_used known, targets_afterAll_of_used known]
  · rw [targets_afterAll used, targets_afterAll used, ← sameLoads]
    exact lookUp_of_undisturbed undisturbed

/-- Two histories with the same documents load the same afterwards, and a run gives the same after both,
if no definition of a name that it enters is registered between the first uses of the reference in the
two. -/
theorem histories_alike (loader : Loader) (session : Session) {first second : List Event}
    (sameLoads : loads first = loads second) :
    (∀ id document, (loader.loadDocument (loader.afterAll session first) id document).1 =
      (loader.loadDocument (loader.afterAll session second) id document).1) ∧
    ∀ depth settings schema input,
      (∀ cell ∈ (Run.parseTraced (loader.afterAll session first).targets depth settings schema
          input).2, cell.root.scope = loader.scope →
        loader.Undisturbed session (loads first) cell.root.name
          (loader.loadsBeforeUse cell.root session first)
          (loader.loadsBeforeUse cell.root session second)) →
      Run.parseTraced (loader.afterAll session first).targets depth settings schema input =
        Run.parseTraced (loader.afterAll session second).targets depth settings schema input := by
  constructor
  · intro id document
    exact (loadDocument_congr (registries_afterAll rfl sameLoads) id document).1
  · intro depth settings schema input undisturbed
    refine (Run.parseTraced_congr fun cell member => ?_).symm
    exact targets_alike sameLoads (undisturbed cell member)

/-! A tea and what it is loaded as: its schema refers to a definition that is replaced, or not. -/

def itemsOf (word : WordShape) : SchemaDocument :=
  ⟨[("Item", .node (.word word) {})], some (.node (.reference "Item") {})⟩

def itemReference : Reference :=
  ⟨.part (.part (.part (.made 1) 1) 0) 0, 0, "Item"⟩

def anItem : Schema :=
  (Schema.lazyReference (.part (.part (.part (.made 1) 1) 0) 0) 0 "Item").withIdentifier
    (.part (.part (.made 1) 1) 0) "Item"

def decodeTea : Event :=
  .run ⟨.sync, {}, .decode⟩ anItem (.string "tea")

def pageDocument : SchemaDocument :=
  onlyDefinition "Page" (.word .null)

/-- The page is not the item, so that it does not matter whether tea was decoded before. -/
theorem tea_alike :
    loads [.load (.made 1) (itemsOf .string), decodeTea, .load (.made 2) pageDocument] =
      loads [.load (.made 1) (itemsOf .string), .load (.made 2) pageDocument] ∧
    Run.parseTraced ((usual 0).afterAll .empty
        [.load (.made 1) (itemsOf .string), decodeTea, .load (.made 2) pageDocument]).targets 3
        ⟨.sync, {}, .decode⟩ anItem (.string "milk") =
      Run.parseTraced ((usual 0).afterAll .empty
        [.load (.made 1) (itemsOf .string), .load (.made 2) pageDocument]).targets 3
        ⟨.sync, {}, .decode⟩ anItem (.string "milk") := by
  have same : loads [.load (.made 1) (itemsOf .string), decodeTea, .load (.made 2) pageDocument] =
      loads [.load (.made 1) (itemsOf .string), .load (.made 2) pageDocument] := rfl
  refine ⟨same, (histories_alike (usual 0) .empty same).2 3 _ _ _ fun cell member _ => ?_⟩
  have entered : (Run.parseTraced ((usual 0).afterAll .empty
      [.load (.made 1) (itemsOf .string), decodeTea, .load (.made 2) pageDocument]).targets 3
      ⟨.sync, {}, .decode⟩ anItem (.string "milk")).2 = [.reference itemReference] := by
    decide +kernel
  rw [entered, List.mem_singleton] at member
  subst member
  have usedFirst : (usual 0).loadsBeforeUse itemReference .empty
      [.load (.made 1) (itemsOf .string), decodeTea, .load (.made 2) pageDocument] = 1 := by
    decide +kernel
  have usedSecond : (usual 0).loadsBeforeUse itemReference .empty
      [.load (.made 1) (itemsOf .string), .load (.made 2) pageDocument] = 2 := by
    decide +kernel
  change (usual 0).Undisturbed .empty _ "Item" ((usual 0).loadsBeforeUse itemReference _ _)
    ((usual 0).loadsBeforeUse itemReference _ _)
  rw [usedFirst, usedSecond]
  refine ⟨?_, trivial⟩
  rintro ⟨_, _, _, _, ⟨⟩, isName, _⟩
  exact absurd isName (by decide)

/-- A definition that is replaced stays for those who have used it: whether tea was decoded between the
two documents shows in what is decoded after them. -/
theorem earlier_use_shows : ¬∀ first second : List Event, loads first = loads second →
    ∀ id document root after,
      .load id document ∈ first → (usual 0).loadDocument .empty id document = (.ok (some root), after) →
      (∀ settings schema input, .run settings schema input ∈ first ++ second → schema = root) →
      ∀ settings input, (((usual 0).afterAll .empty first).parse settings root input).1 =
        (((usual 0).afterAll .empty second).parse settings root input).1 := by
  intro pure
  have alike := pure
    [.load (.made 1) (itemsOf .string), decodeTea, .load (.made 2) (itemsOf .null)]
    [.load (.made 1) (itemsOf .string), .load (.made 2) (itemsOf .null)] rfl (.made 1)
    (itemsOf .string) anItem _ List.mem_cons_self rfl (by
      intro settings schema input member
      simp [decodeTea] at member
      exact member.2.1) ⟨.sync, {}, .decode⟩ .null
  have isOk := congrArg (Option.map Except.isOk) alike
  revert isOk
  decide +kernel

end Loader

end SchemaCodec
