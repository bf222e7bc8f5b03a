import Mathlib.Data.List.Nodup
import SchemaCodec.Proofs.Run.Trace
import SchemaCodec.Proofs.Session
import SchemaCodec.Schema.Choice

/-!
Lazy nodes that keep what they stand for. A node of a reference asks the function behind the reference,
which may enter other lazy nodes, and a node of a side asks the node that it is a side of; each keeps
the answer. On whatever ways lazy nodes are entered, the function behind a reference is started once at
most. The runs of a session are such runs.
-/

namespace SchemaCodec

/-- What the function behind a reference does: it gives a schema, or it enters a lazy node and goes on
with what that one stands for. -/
inductive Thunk where
  | done (schema : Schema)
  | resolve (cell : LazyCell) (resume : Schema → Thunk)

structure LazyMemory where
  /-- What the nodes stand for that have their answer. -/
  resolved : List (LazyCell × Schema)
  /-- The nodes that wait for their answer. -/
  underWay : List LazyCell
  /-- Each start of the function behind a reference. -/
  started : List Reference

namespace LazyMemory

def empty : LazyMemory := ⟨[], [], []⟩

def ask (memory : LazyMemory) (cell : LazyCell) : LazyMemory :=
  { memory with underWay := cell :: memory.underWay }

def start (memory : LazyMemory) (reference : Reference) : LazyMemory :=
  { memory with started := memory.started ++ [reference] }

def keep (memory : LazyMemory) (cell : LazyCell) (schema : Schema) : LazyMemory :=
  { memory with
    resolved := memory.resolved ++ [(cell, schema)]
    underWay := memory.underWay.erase cell }

end LazyMemory

namespace Run

abbrev Remembering := OptionT (StateM LazyMemory)

def answered (cell : LazyCell) (compute : Remembering Schema) : Remembering Schema := do
  modify fun memory => memory.ask cell
  let schema ← compute
  modify fun memory => memory.keep cell schema
  return schema

/-- The answer that the lazy node keeps, or else the one that is computed now. A node that is asked
again before it has its answer has none. -/
def remembered (cell : LazyCell) (compute : Remembering Schema) : Remembering Schema := do
  let memory ← get
  match Table.find? cell memory.resolved with
  | some schema => return schema
  | none => if cell ∈ memory.underWay then failure else answered cell compute

/-- Enter a lazy node, given a way to run the functions behind references. -/
def enterWith (runThunk : Reference → Remembering Schema) : LazyCell → Remembering Schema
  | .reference reference => remembered (.reference reference) do
    modify fun memory => memory.start reference
    runThunk reference
  | .side side node inner => remembered (.side side node inner) do
    let schema ← enterWith runThunk inner
    return schema.sideOf side

def runThunk (enter : LazyCell → Remembering Schema) : Thunk → Remembering Schema
  | .done schema => return schema
  | .resolve cell resume => do
    let schema ← enter cell
    runThunk enter (resume schema)

/-- Enter a lazy node, with the functions that are behind the references now. They may run inside each
other only so often. -/
def enterRemembering (thunks : Reference → Thunk) : Nat → LazyCell → Remembering Schema
  | 0 => fun _ => failure
  | nesting + 1 =>
    enterWith fun reference => runThunk (enterRemembering thunks nesting) (thunks reference)

end Run

open Run

/-! ### Going on from a memory -/

namespace LazyMemory

variable {α β : Type} {memory : LazyMemory}

def go (memory : LazyMemory) (computation : Remembering α) : Option α × LazyMemory :=
  computation.run.run memory

private theorem go_bind (computation : Remembering α) (next : α → Remembering β) :
    memory.go (computation >>= next) =
      match memory.go computation with
      | (none, after) => (none, after)
      | (some value, after) => after.go (next value) := by
  unfold go
  rw [OptionT.run_bind, Option.elimM, StateT.run_bind]
  cases computation.run.run memory with
  | mk result after =>
      cases result with
      | none => rfl
      | some value => rfl

private theorem go_answered (cell : LazyCell) (compute : Remembering Schema) :
    memory.go (answered cell compute) =
      match (memory.ask cell).go compute with
      | (none, after) => (none, after)
      | (some schema, after) => (some schema, after.keep cell schema) := by
  have asked : memory.go (answered cell compute) = (memory.ask cell).go (do
      let schema ← compute
      modify fun memory => memory.keep cell schema
      return schema) := rfl
  rw [asked, go_bind]
  cases (memory.ask cell).go compute with
  | mk result after =>
      cases result with
      | none => rfl
      | some schema => rfl

private theorem go_remembered_of_known {cell : LazyCell} {compute : Remembering Schema}
    {schema : Schema}
    (known : Table.find? cell memory.resolved = some schema) :
    memory.go (remembered cell compute) = (some schema, memory) := by
  change memory.go (match Table.find? cell memory.resolved with
    | some schema => pure schema
    | none => if cell ∈ memory.underWay then failure else answered cell compute) = _
  rw [known]
  rfl

private theorem go_remembered_of_underWay {cell : LazyCell} {compute : Remembering Schema}
    (unknown : Table.find? cell memory.resolved = none) (underWay : cell ∈ memory.underWay) :
    memory.go (remembered cell compute) = (none, memory) := by
  change memory.go (match Table.find? cell memory.resolved with
    | some schema => pure schema
    | none => if cell ∈ memory.underWay then failure else answered cell compute) = _
  rw [unknown, if_pos underWay]
  rfl

private theorem go_remembered_of_new {cell : LazyCell} {compute : Remembering Schema}
    (unknown : Table.find? cell memory.resolved = none) (apart : cell ∉ memory.underWay) :
    memory.go (remembered cell compute) = memory.go (answered cell compute) := by
  change memory.go (match Table.find? cell memory.resolved with
    | some schema => pure schema
    | none => if cell ∈ memory.underWay then failure else answered cell compute) = _
  rw [unknown, if_neg apart]

/-! ### Starts -/

/-- Nothing is started twice, what is started has its answer or waits for it, and no node has an answer
that comes from a function that was not started. -/
structure Sound (memory : LazyMemory) : Prop where
  once : memory.started.Nodup
  begun : ∀ reference ∈ memory.started,
    .reference reference ∈ memory.underWay ∨ .reference reference ∈ Table.keys memory.resolved
  rooted : ∀ cell ∈ Table.keys memory.resolved, cell.root ∈ memory.started

theorem sound_empty : empty.Sound :=
  ⟨List.nodup_nil, nofun, nofun⟩

/-- The computation keeps a memory sound, and no start is forgotten. -/
def Keeps (computation : Remembering α) : Prop :=
  ∀ memory : LazyMemory, memory.Sound →
    (memory.go computation).2.Sound ∧ memory.started ⊆ (memory.go computation).2.started

/-- The memory is sound that is reached, no start is forgotten, and if there is an answer, the function
behind the reference was started. -/
structure Starts (memory : LazyMemory) (reference : Reference)
    (reached : Option Schema × LazyMemory) : Prop where
  sound : reached.2.Sound
  grows : memory.started ⊆ reached.2.started
  starts : reached.1.isSome → reference ∈ reached.2.started

namespace Sound

theorem ask (sound : memory.Sound) (cell : LazyCell) : (memory.ask cell).Sound := by
  refine ⟨sound.once, fun reference isStarted => ?_, sound.rooted⟩
  exact (sound.begun reference isStarted).imp_left (List.mem_cons_of_mem _)

theorem start (sound : memory.Sound) {reference : Reference} (isNew : reference ∉ memory.started)
    (underWay : .reference reference ∈ memory.underWay) : (memory.start reference).Sound := by
  refine ⟨?_, fun other isStarted => ?_, fun cell isKey => ?_⟩
  · refine List.nodup_append.mpr ⟨sound.once, List.pairwise_singleton _ _, ?_⟩
    intro other isStarted single isReference same
    cases List.mem_singleton.mp isReference
    exact isNew (same ▸ isStarted)
  · rcases List.mem_append.mp isStarted with before | here
    · exact sound.begun other before
    · cases List.mem_singleton.mp here
      exact Or.inl underWay
  · exact List.mem_append_left _ (sound.rooted cell isKey)

theorem keep (sound : memory.Sound) {cell : LazyCell} (isStarted : cell.root ∈ memory.started)
    (schema : Schema) : (memory.keep cell schema).Sound := by
  have keys : Table.keys (memory.keep cell schema).resolved = Table.keys memory.resolved ++ [cell] :=
    List.map_append
  refine ⟨sound.once, fun reference begun => ?_, fun other isKey => ?_⟩
  · rw [keys]
    by_cases same : .reference reference = cell
    · exact Or.inr (List.mem_append_right _ (List.mem_singleton.mpr same))
    · exact (sound.begun reference begun).imp (List.mem_erase_of_ne same).mpr
        (List.mem_append_left _)
  · rw [keys] at isKey
    rcases List.mem_append.mp isKey with before | here
    · exact sound.rooted other before
    · exact List.mem_singleton.mp here ▸ isStarted

/-- What is neither answered nor under way was not started. -/
private theorem not_started (sound : memory.Sound) {reference : Reference}
    (unknown : Table.find? (.reference reference) memory.resolved = none)
    (apart : .reference reference ∉ memory.underWay) : reference ∉ memory.started := by
  intro isStarted
  rcases sound.begun reference isStarted with waits | isKey
  · exact apart waits
  · exact Table.find?_eq_none_iff.mp unknown isKey

end Sound

/-- A node that has its answer gives it; else the answer is computed, and kept. -/
private theorem starts_remembered {cell : LazyCell} {compute : Remembering Schema}
    (sound : memory.Sound)
    (computes : Table.find? cell memory.resolved = none → cell ∉ memory.underWay →
      (memory.ask cell).Starts cell.root ((memory.ask cell).go compute)) :
    memory.Starts cell.root (memory.go (remembered cell compute)) := by
  cases known : Table.find? cell memory.resolved with
  | some schema =>
      have isKey : cell ∈ Table.keys memory.resolved := Table.mem_keys (Table.mem_of_find? known)
      rw [go_remembered_of_known known]
      exact ⟨sound, List.Subset.refl _, fun _ => sound.rooted cell isKey⟩
  | none =>
      by_cases underWay : cell ∈ memory.underWay
      · rw [go_remembered_of_underWay known underWay]
        exact ⟨sound, List.Subset.refl _, nofun⟩
      · have computed := computes known underWay
        rw [go_remembered_of_new known underWay, go_answered]
        cases reached : (memory.ask cell).go compute with
        | mk result after =>
            rw [reached] at computed
            cases result with
            | none => exact ⟨computed.sound, computed.grows, nofun⟩
            | some schema =>
                have isStarted := computed.starts rfl
                exact ⟨computed.sound.keep isStarted schema, computed.grows, fun _ => isStarted⟩

/-! ### Entering -/

theorem Keeps.pure (value : α) : Keeps (pure value : Remembering α) :=
  fun _ sound => ⟨sound, List.Subset.refl _⟩

theorem Keeps.failure : Keeps (failure : Remembering α) :=
  fun _ sound => ⟨sound, List.Subset.refl _⟩

theorem Keeps.bind {computation : Remembering α} {next : α → Remembering β}
    (first : Keeps computation) (later : ∀ value, Keeps (next value)) :
    Keeps (computation >>= next) := by
  intro memory sound
  obtain ⟨soundThen, grows⟩ := first memory sound
  rw [go_bind]
  cases reached : memory.go computation with
  | mk result after =>
      rw [reached] at soundThen grows
      cases result with
      | none => exact ⟨soundThen, grows⟩
      | some value =>
          obtain ⟨soundLast, growsLast⟩ := later value after soundThen
          exact ⟨soundLast, List.Subset.trans grows growsLast⟩

private theorem keeps_runThunk {enter : LazyCell → Remembering Schema}
    (entering : ∀ cell, Keeps (enter cell))
    (thunk : Thunk) : Keeps (runThunk enter thunk) := by
  induction thunk with
  | done schema => exact .pure schema
  | resolve cell resume ih => exact (entering cell).bind ih

private theorem starts_enterWith {run : Reference → Remembering Schema}
    (running : ∀ reference, Keeps (run reference)) (cell : LazyCell) (sound : memory.Sound) :
    memory.Starts cell.root (memory.go (enterWith run cell)) := by
  induction cell generalizing memory with
  | reference reference =>
      refine starts_remembered sound fun unknown apart => ?_
      have isNew := sound.not_started unknown apart
      have begun := (sound.ask (.reference reference)).start isNew List.mem_cons_self
      obtain ⟨soundThen, grows⟩ := running reference _ begun
      exact ⟨soundThen, List.Subset.trans (List.subset_append_left _ _) grows,
        fun _ => grows (List.mem_append_right _ (List.mem_singleton.mpr rfl))⟩
  | side side node inner ih =>
      refine starts_remembered sound fun _ _ => ?_
      have inside := ih (sound.ask (.side side node inner))
      rw [go_bind]
      cases reached : (memory.ask (.side side node inner)).go (enterWith run inner) with
      | mk result after =>
          rw [reached] at inside
          cases result with
          | none => exact ⟨inside.sound, inside.grows, nofun⟩
          | some schema => exact ⟨inside.sound, inside.grows, fun _ => inside.starts rfl⟩

private theorem keeps_enterRemembering (thunks : Reference → Thunk) (nesting : Nat)
    (cell : LazyCell) :
    Keeps (enterRemembering thunks nesting cell) := by
  induction nesting generalizing cell with
  | zero => exact .failure
  | succ nesting ih =>
      intro memory sound
      have entered :=
        starts_enterWith (fun reference => keeps_runThunk ih (thunks reference)) cell sound
      exact ⟨entered.sound, entered.grows⟩

def keeping : Alongside Remembering Remembering where
  rel computation _ := Keeps computation
  pure := .pure
  bind := .bind

private theorem keeps_parse (thunks : Reference → Thunk) (nesting depth : Nat) (settings : Settings)
    (schema : Schema) (input : Value) :
    Keeps (parseWith (enterRemembering thunks nesting) failure depth settings schema input) := by
  induction depth generalizing settings schema input with
  | zero => exact .failure
  | succ depth ih =>
      have level : ∀ enterToo runToo, keeping.rel
          (step (enterRemembering thunks nesting)
            (parseWith (enterRemembering thunks nesting) failure depth) settings schema input)
          (step enterToo runToo settings schema input) := by
        intro enterToo runToo
        refine keeping.rel_step (fun _ => Schema.never) (fun others part _ => ih others part) ?_ input
        exact fun cell _ input => (keeps_enterRemembering thunks nesting cell).bind fun target =>
          ih settings target input
      exact level (enterRemembering thunks nesting) fun _ _ _ => failure

end LazyMemory

/-! ### Working with schemas -/

structure Workspace where
  schemas : List Schema
  memory : LazyMemory

inductive Operation where
  | run (settings : Settings) (input : Value)
  | validate (options : Options) (value : Value)
  | side (side : Side)
  | annotate (id : NodeId) (key : AnnotationId) (note : Annotation)
  | annotateAll (id : NodeId) (annotations : Annotations)
  | resolve

/-- An operation on the schema at a place, with the functions that are behind references at the time. -/
structure Call where
  operation : Operation
  place : Nat
  thunks : Reference → Thunk
  nesting : Nat
  depth : Nat

namespace Workspace

def call (workspace : Workspace) (call : Call) : Workspace :=
  let ran (settings : Settings) (schema : Schema) (input : Value) : LazyMemory :=
    (workspace.memory.go (parseWith (enterRemembering call.thunks call.nesting) failure call.depth
      settings schema input)).2
  match workspace.schemas[call.place]? with
  | none => workspace
  | some schema =>
    match call.operation with
    | .run settings input => { workspace with memory := ran settings schema input }
    | .validate options value =>
      { workspace with memory := ran ⟨.sync, options, .decode⟩ schema.outputSide value }
    | .side side => { workspace with schemas := workspace.schemas ++ [schema.sideOf side] }
    | .annotate id key note =>
      { workspace with schemas := workspace.schemas ++ [schema.annotate id key note] }
    | .annotateAll id annotations =>
      { workspace with schemas := workspace.schemas ++ [schema.annotateAll id annotations] }
    | .resolve =>
      match schema.kind with
      | .lazy cell =>
        match workspace.memory.go (enterRemembering call.thunks call.nesting cell) with
        | (target, after) => ⟨workspace.schemas ++ target.toList, after⟩
      | _ => workspace

def after (family : List Schema) (calls : List Call) : Workspace :=
  calls.foldl Workspace.call ⟨family, .empty⟩

variable {workspace : Workspace}

private theorem sound_call (sound : workspace.memory.Sound) (call : Call) :
    (workspace.call call).memory.Sound := by
  unfold Workspace.call
  dsimp only
  cases workspace.schemas[call.place]? with
  | none => exact sound
  | some schema =>
      cases call.operation with
      | run settings input => exact (LazyMemory.keeps_parse _ _ _ _ _ _ _ sound).1
      | validate options value => exact (LazyMemory.keeps_parse _ _ _ _ _ _ _ sound).1
      | side side => exact sound
      | annotate id key note => exact sound
      | annotateAll id annotations => exact sound
      | resolve =>
          dsimp only
          cases schema.kind with
          | lazy cell => exact (LazyMemory.keeps_enterRemembering _ _ cell _ sound).1
          | _ => exact sound

private theorem sound_after (family : List Schema) (calls : List Call) :
    (after family calls).memory.Sound := by
  have going : ∀ workspace : Workspace, workspace.memory.Sound →
      (calls.foldl Workspace.call workspace).memory.Sound := by
    induction calls with
    | nil => exact fun _ sound => sound
    | cons call rest ih => exact fun workspace sound => ih _ (sound_call sound call)
  exact going _ LazyMemory.sound_empty

/-- Whatever is done with schemas, their sides and copies, no function behind a reference is started
twice, and the one at the bottom of a lazy node that has its answer was started once. -/
theorem started_once (family : List Schema) (calls : List Call) :
    (∀ reference, (after family calls).memory.started.count reference ≤ 1) ∧
      ∀ cell ∈ Table.keys (after family calls).memory.resolved,
        (after family calls).memory.started.count cell.root = 1 := by
  have sound := sound_after family calls
  constructor
  · exact List.nodup_iff_count_le_one.mp sound.once
  · intro cell isKey
    exact List.count_eq_one_of_mem sound.once (sound.rooted cell isKey)

def treeReference : Reference :=
  ⟨.made 1, 0, "Tree"⟩

def treeCalls : List Call :=
  let call (place : Nat) (operation : Operation) : Call :=
    ⟨operation, place, fun _ => .done .string, 1, 2⟩
  [call 0 (.annotate (.made 2) .title (.text "A tree")), call 1 (.side .output),
    call 2 (.side .input), call 3 (.run ⟨.sync, {}, .decode⟩ (.string "oak")),
    call 0 (.run ⟨.sync, {}, .encode⟩ (.string "elm"))]

/-- The side of the side of the copy has its answer, and the function behind the tree was started
once. -/
theorem tree_started :
    let copied : NodeId := .side .output (.made 2)
    let cell : LazyCell :=
      .side .input (.side .input copied) (.side .output copied (.reference treeReference))
    let reached := after [.lazyReference (.made 1) 0 "Tree"] treeCalls
    cell ∈ Table.keys reached.memory.resolved ∧ reached.memory.started.count treeReference = 1 := by
  refine ⟨?answered, (started_once _ _).2 _ ?answered⟩
  decide +kernel

end Workspace

/-! ### Runs of a session -/

namespace LazyMemory

/-- The memory keeps of lazy nodes what the session remembers of references. -/
structure Matches (memory : LazyMemory) (session : Session) : Prop where
  references : ∀ reference,
    Table.find? (.reference reference) memory.resolved = Table.find? reference session.resolved
  answers : ∀ {cell schema}, Table.find? cell memory.resolved = some schema →
    schema = cell.resolve session.targets ∧ Table.has cell.root session.resolved = true
  started : memory.started = Table.keys session.resolved

namespace Matches

variable {memory : LazyMemory} {session other : Session} {reference : Reference}

theorem congr (matching : memory.Matches session) (resolved : other.resolved = session.resolved)
    (targets : other.targets = session.targets) : memory.Matches other := by
  refine ⟨?_, ?_, ?_⟩
  · rw [resolved]
    exact matching.references
  · rw [resolved, targets]
    exact matching.answers
  · rw [resolved]
    exact matching.started

theorem ask (matching : memory.Matches session) (cell : LazyCell) :
    (memory.ask cell).Matches session :=
  ⟨matching.references, matching.answers, matching.started⟩

/-- The function behind a reference is run when the reference is used first. -/
private theorem keep_reference (matching : memory.Matches session)
    (unused : Table.find? reference session.resolved = none) :
    ((memory.start reference).keep (.reference reference) (session.lookUp reference)).Matches
      (session.resolve reference) := by
  have resolved := Session.resolved_of_unused unused
  have kept : ((memory.start reference).keep (.reference reference)
      (session.lookUp reference)).resolved =
      memory.resolved ++ [(.reference reference, session.lookUp reference)] := rfl
  refine ⟨fun wanted => ?_, fun {cell schema} found => ?_, ?_⟩
  · rw [resolved, kept, Table.find?_concat, Table.find?_concat, matching.references wanted]
    simp only [LazyCell.reference.injEq]
  · rw [Session.targets_resolve, resolved]
    rw [kept, Table.find?_concat, Option.or_eq_some_iff] at found
    rcases found with before | ⟨_, here⟩
    · obtain ⟨answers, used⟩ := matching.answers before
      refine ⟨answers, Table.has_eq_true_iff.mpr ?_⟩
      rw [Table.keys, List.map_append]
      exact List.mem_append_left _ (Table.has_eq_true_iff.mp used)
    · split at here
      · rename_i same
        cases here
        subst same
        exact ⟨(Session.targets_of_unused unused).symm, Table.has_eq_true_iff.mpr
          (Table.mem_keys (List.mem_append_right _ List.mem_cons_self))⟩
      · cases here
  · rw [resolved, Table.keys, List.map_append]
    exact congrArg (· ++ [reference]) matching.started

/-- The node of a side keeps a side of what the node below it stands for. -/
private theorem keep_side (matching : memory.Matches session) (side : Side) (node : NodeId)
    {inner : LazyCell} (used : Table.has inner.root session.resolved = true) :
    (memory.keep (.side side node inner)
      ((inner.resolve session.targets).sideOf side)).Matches session := by
  have kept : (memory.keep (.side side node inner)
      ((inner.resolve session.targets).sideOf side)).resolved =
      memory.resolved ++ [(.side side node inner, (inner.resolve session.targets).sideOf side)] := rfl
  refine ⟨fun wanted => ?_, fun {cell schema} found => ?_, matching.started⟩
  · rw [kept, Table.find?_concat, matching.references wanted, if_neg nofun, Option.or_none]
  · rw [kept, Table.find?_concat, Option.or_eq_some_iff] at found
    rcases found with before | ⟨_, here⟩
    · exact matching.answers before
    · split at here
      · rename_i same
        cases here
        subst same
        exact ⟨rfl, used⟩
      · cases here

end Matches

/-- Entering a lazy node gives what it stands for, and comes to what the session remembers after it. -/
private theorem enterWith_matches {memory : LazyMemory} {session : Session}
    {lookUp : Reference → Schema}
    (matching : memory.Matches session)
    (looksUp : ∀ reference, lookUp reference = session.lookUp reference) (cell : LazyCell)
    (inside : ∀ other ∈ memory.underWay, sizeOf cell < sizeOf other) :
    ∃ after, memory.go (enterWith (fun reference => pure (lookUp reference)) cell) =
        (some (cell.resolve session.targets), after) ∧
      after.Matches (session.mark cell) ∧ after.underWay = memory.underWay := by
  induction cell generalizing memory with
  | reference reference =>
      have targets := @Session.targets_mark session (.reference reference)
      have resolved := @Session.resolved_mark session (.reference reference)
      cases used : Table.find? reference session.resolved with
      | some schema =>
          have known := (matching.references reference).trans used
          obtain ⟨answer, has⟩ := matching.answers known
          rw [Session.resolve_of_used has] at resolved
          refine ⟨memory, ?_, matching.congr resolved targets, rfl⟩
          rw [enterWith, go_remembered_of_known known, answer]
      | none =>
          have unknown := (matching.references reference).trans used
          have apart : .reference reference ∉ memory.underWay :=
            fun waits => Nat.lt_irrefl _ (inside _ waits)
          have asked := matching.ask (.reference reference)
          refine ⟨((memory.ask (.reference reference)).start reference).keep (.reference reference)
            (lookUp reference), ?_, ?_, List.erase_cons_head _ _⟩
          · have answer : lookUp reference = (LazyCell.reference reference).resolve session.targets :=
              (looksUp reference).trans (Session.targets_of_unused used).symm
            rw [enterWith, go_remembered_of_new unknown apart, go_answered, ← answer]
            rfl
          · rw [looksUp]
            exact (asked.keep_reference used).congr resolved
              (targets.trans (Session.targets_resolve reference).symm)
  | side side node inner ih =>
      have targets := @Session.targets_mark session (.side side node inner)
      have resolved := @Session.resolved_mark session (.side side node inner)
      cases known : Table.find? (.side side node inner) memory.resolved with
      | some schema =>
          obtain ⟨answer, has⟩ := matching.answers known
          rw [Session.resolve_of_used has] at resolved
          refine ⟨memory, ?_, matching.congr resolved targets, rfl⟩
          rw [enterWith, go_remembered_of_known known, answer]
      | none =>
          have apart : .side side node inner ∉ memory.underWay :=
            fun waits => Nat.lt_irrefl _ (inside _ waits)
          have smaller : sizeOf inner < sizeOf (LazyCell.side side node inner) := by
            rw [LazyCell.side.sizeOf_spec]
            omega
          have below : ∀ other ∈ (memory.ask (.side side node inner)).underWay,
              sizeOf inner < sizeOf other := by
            intro other waits
            rcases List.mem_cons.mp waits with here | before
            · rw [here]
              exact smaller
            · exact Nat.lt_trans smaller (inside other before)
          obtain ⟨after, entered, matched, underWay⟩ := ih (matching.ask _) below
          have innerTargets := @Session.targets_mark session inner
          have innerResolved := @Session.resolved_mark session inner
          have used : Table.has inner.root (session.mark inner).resolved = true := by
            rw [innerResolved]
            exact Session.has_resolve inner.root
          have keeps := matched.keep_side side node used
          rw [innerTargets] at keeps
          refine ⟨_, ?_, keeps.congr (resolved.trans innerResolved.symm)
            (targets.trans innerTargets.symm), ?_⟩
          · rw [enterWith, go_remembered_of_new known apart, go_answered, go_bind, entered]
            rfl
          · change after.underWay.erase _ = _
            rw [underWay]
            exact List.erase_cons_head _ _

/-- The memory matches a session that comes from the first one by runs, and nothing is under way. -/
structure Recalls (first : Session) (memory : LazyMemory) (session : Session) : Prop where
  targets : session.targets = first.targets
  registries : session.registries = first.registries
  matching : memory.Matches session
  settled : memory.underWay = []

/-- The second computation gives the result of the first one, and remembers what that one records. -/
def recalling (first : Session) : Alongside Traced Remembering where
  rel traced computation := ∃ result cells, Notes traced result cells ∧
    ∀ memory session, Recalls first memory session → ∃ after,
      memory.go computation = (result, after) ∧
        Recalls first after (cells.reverse.foldl Session.mark session)
  pure value := ⟨some value, [], .pure value, fun memory session recalls => ⟨memory, rfl, recalls⟩⟩
  bind := by
    rintro α β traced computation next nextToo ⟨result, cells, enters, remembers⟩ later
    cases result with
    | none =>
        refine ⟨none, cells, enters.bind_none, fun memory session recalls => ?_⟩
        obtain ⟨after, gone, recallsThen⟩ := remembers memory session recalls
        refine ⟨after, ?_, recallsThen⟩
        rw [go_bind, gone]
    | some value =>
        obtain ⟨result, more, entersMore, remembersMore⟩ := later value
        refine ⟨result, more ++ cells, enters.bind_some entersMore, fun memory session recalls => ?_⟩
        obtain ⟨middle, gone, recallsThen⟩ := remembers memory session recalls
        obtain ⟨after, goneOn, recallsLast⟩ := remembersMore middle _ recallsThen
        refine ⟨after, ?_, ?_⟩
        · rw [go_bind, gone]
          exact goneOn
        · rw [List.reverse_append, List.foldl_append]
          exact recallsLast

private theorem recalls_enter {first session : Session} {memory : LazyMemory}
    (recalls : Recalls first memory session) (nesting : Nat) (cell : LazyCell) :
    ∃ after, memory.go (enterRemembering (fun reference => .done (first.lookUp reference))
        (nesting + 1) cell) = (some (cell.resolve first.targets), after) ∧
      Recalls first after (session.mark cell) := by
  have looksUp : ∀ reference, first.lookUp reference = session.lookUp reference := fun reference => by
    rw [Session.lookUp, Session.lookUp, recalls.registries]
  have inside : ∀ other ∈ memory.underWay, sizeOf cell < sizeOf other := by
    rw [recalls.settled]
    exact List.forall_mem_nil _
  obtain ⟨after, entered, matching, underWay⟩ :=
    enterWith_matches recalls.matching looksUp cell inside
  rw [recalls.targets] at entered
  exact ⟨after, entered, (Session.targets_mark cell).trans recalls.targets,
    (Session.registries_mark cell).trans recalls.registries, matching, underWay.trans recalls.settled⟩

private theorem parse_recalling (first : Session) (nesting depth : Nat) (settings : Settings)
    (schema : Schema) (input : Value) :
    (recalling first).rel
      (parseWith (enterTraced first.targets) (failure : Traced Outcome) depth settings schema input)
      (parseWith (enterRemembering (fun reference => .done (first.lookUp reference)) (nesting + 1))
        failure depth settings schema input) := by
  induction depth generalizing settings schema input with
  | zero => exact ⟨none, [], .failure, fun memory session recalls => ⟨memory, rfl, recalls⟩⟩
  | succ depth ih =>
      refine (recalling first).rel_step first.targets (fun others part _ => ih others part)
        (fun cell _ input => ?_) input
      obtain ⟨result, cells, enters, remembers⟩ := ih settings (cell.resolve first.targets) input
      refine ⟨result, cells ++ [cell], (notes_enter first.targets cell).bind_some enters,
        fun memory session recalls => ?_⟩
      obtain ⟨middle, entered, recallsThen⟩ := recalls_enter recalls nesting cell
      obtain ⟨after, gone, recallsLast⟩ := remembers middle _ recallsThen
      refine ⟨after, ?_, ?_⟩
      · rw [go_bind, entered]
        exact gone
      · rw [List.reverse_append]
        exact recallsLast

/-- A run of a session is a run in which lazy nodes keep what they stand for, and the functions behind
references look their names up: it gives the same, and what the session remembers is what was
started. -/
theorem parse_remembering {memory : LazyMemory} {session : Session} (matching : memory.Matches session)
    (settled : memory.underWay = []) (nesting : Nat) (settings : Settings) (schema : Schema)
    (input : Value) :
    ∃ after, memory.go (parseWith
        (enterRemembering (fun reference => .done (session.lookUp reference)) (nesting + 1)) failure
        Session.depthLimit settings schema input) = ((session.parse settings schema input).1, after) ∧
      after.Matches (session.parse settings schema input).2 ∧ after.underWay = [] := by
  obtain ⟨result, cells, enters, remembers⟩ :=
    parse_recalling session nesting Session.depthLimit settings schema input
  obtain ⟨after, gone, recalls⟩ := remembers memory session ⟨rfl, rfl, matching, settled⟩
  have traced : parseTraced session.targets Session.depthLimit settings schema input =
      (result, cells.reverse) := by
    rw [parseTraced, enters [], List.append_nil]
  have parsed : session.parse settings schema input =
      (result, cells.reverse.foldl Session.mark session) := by
    rw [Session.parse, traced]
  rw [parsed]
  exact ⟨after, gone, recalls.matching, recalls.settled⟩

end LazyMemory

end SchemaCodec
