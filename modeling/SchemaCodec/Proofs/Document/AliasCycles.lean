import Mathlib.Data.List.Chain
import Mathlib.Logic.Relation
import SchemaCodec.Proofs.Document.AliasSearch
import SchemaCodec.Proofs.Document.Definitions

/-!
What the search for aliases reports. The path of a visit is a way along the edges, so that a name that
closes it closes a cycle. Where nothing is reported, every way along the edges comes to an end, and no
way comes back to where it began. The search therefore reports a cycle exactly if there is one, and what
it reports is one.
-/

namespace SchemaCodec

/-! ### Ways that come back -/

/-- The names go round: a step leads from each to the next, and the first one stands again at the end.
No other name stands twice. -/
structure GoesRound (step : String → String → Prop) (names : List String) : Prop where
  steps : names.IsChain step
  closed : ∃ name between, names = name :: between ++ [name] ∧ (name :: between).Nodup

private theorem transGen_of_isChain {step : String → String → Prop} {first last : String}
    {between : List String} (steps : (first :: between ++ [last]).IsChain step) :
    Relation.TransGen step first last := by
  induction between generalizing first with
  | nil => exact .single (List.isChain_pair.mp steps)
  | cons next rest ih =>
      have here := List.isChain_cons_cons.mp steps
      exact .head here.1 (ih here.2)

private theorem GoesRound.exists_return {step : String → String → Prop} {names : List String}
    (round : GoesRound step names) : ∃ name, Relation.TransGen step name name := by
  obtain ⟨name, between, rfl, _⟩ := round.closed
  exact ⟨name, transGen_of_isChain round.steps⟩

namespace AliasGraph

variable {graph : AliasGraph} {path done cycle : List String} {name : String}

/-! ### The search -/

/-- A name that stands on the path closes what follows it. -/
private theorem closed?_eq_some (closed : closed? path name = some cycle) :
    ∃ front back, path = front ++ name :: back ∧ cycle = name :: back ++ [name] := by
  unfold closed? at closed
  split at closed
  case isFalse => cases closed
  case isTrue onPath =>
    cases closed
    obtain ⟨front, back, rfl, notBefore⟩ :=
      List.eq_append_cons_of_mem (List.contains_iff_mem.mp onPath)
    refine ⟨front, back, rfl, ?_⟩
    rw [List.dropWhile_append_of_pos, List.dropWhile_cons_of_neg (by simp)]
    intro other inFront
    have isOther : other ≠ name := fun same => notBefore (same ▸ inFront)
    exact decide_eq_true isOther

private theorem goesRound_of_closed? (isPath : graph.IsPath path)
    (way : Table.has name graph = true → (path ++ [name]).IsChain graph.Edge)
    (closed : closed? path name = some cycle) : GoesRound graph.Edge cycle := by
  obtain ⟨front, back, rfl, rfl⟩ := closed?_eq_some closed
  have known : name ∈ Table.keys graph := isPath.inGraph (List.mem_append_right _ List.mem_cons_self)
  have whole := way (Table.has_eq_true_iff.mpr known)
  rw [List.append_assoc] at whole
  exact ⟨whole.right_of_append, name, back, rfl, (List.nodup_append.mp isPath.nodup).2.1⟩

/-- A visit at the end of a way along the edges reports nothing but cycles. -/
private theorem goesRound_of_visit {fuel : Nat} (isPath : graph.IsPath path)
    (way : Table.has name graph = true → (path ++ [name]).IsChain graph.Edge)
    (visited : graph.visit fuel path done name = .error cycle) : GoesRound graph.Edge cycle := by
  induction fuel generalizing path done name with
  | zero => cases visited
  | succ fuel ih =>
      rw [visit] at visited
      split at visited
      · cases visited
      · split at visited
        · rename_i closed
          cases visited
          exact goesRound_of_closed? isPath way closed
        · rename_i opened
          split at visited
          · cases visited
          · rename_i targets found
            have known := Table.mem_keys (Table.mem_of_find? found)
            have longer := isPath.push (not_mem_of_closed? opened) known
            have wayHere := way (Table.has_eq_true_iff.mpr known)
            rcases error_of_bind visited with below | ⟨_, _, ⟨⟩⟩
            obtain ⟨target, isTarget, before, refused⟩ := exists_error_of_foldlM below
            refine ih longer (fun targetKnown => ?_) refused
            refine wayHere.append (List.isChain_singleton target) ?_
            intro last isLast first isFirst
            rw [List.getLast?_concat, Option.mem_some_iff] at isLast
            rw [List.head?_cons, Option.mem_some_iff] at isFirst
            subst isLast isFirst
            exact ⟨targets, found, isTarget, targetKnown⟩

private theorem goesRound_of_cycle? (reported : graph.cycle? = some cycle) :
    GoesRound graph.Edge cycle := by
  unfold cycle? at reported
  cases visited : graph.visitAll with
  | ok _ =>
      rw [visited] at reported
      cases reported
  | error found =>
      rw [visited] at reported
      cases reported
      obtain ⟨name, _, before, refused⟩ := exists_error_of_foldlM visited
      exact goesRound_of_visit isPath_nil (fun _ => List.isChain_singleton name) refused

/-- The search reports a cycle exactly if the edges have one. -/
private theorem exists_cycle?_iff :
    (∃ cycle, graph.cycle? = some cycle) ↔ ∃ name, Relation.TransGen graph.Edge name name := by
  constructor
  · rintro ⟨cycle, reported⟩
    exact (goesRound_of_cycle? reported).exists_return
  · rintro ⟨name, back⟩
    cases reported : graph.cycle? with
    | some cycle => exact ⟨cycle, rfl⟩
    | none => exact absurd back (not_transGen_of_acc (ending_of_cycle? reported) name)

end AliasGraph

/-! ### Documents -/

/-- The node comes to a reference to the name through unions and nullables alone. -/
inductive SchemaNode.OpensTo (name : String) : SchemaNode → Prop where
  | reference (notes : NodeNotes) : OpensTo name (.node (.reference name) notes)
  | member {members : List SchemaNode} {member : SchemaNode} (notes : NodeNotes)
      (isMember : member ∈ members) (opens : OpensTo name member) :
      OpensTo name (.node (.union members) notes)
  | nullable {inner : SchemaNode} (notes : NodeNotes) (opens : OpensTo name inner) :
      OpensTo name (.node (.nullable inner) notes)

private theorem SchemaNode.mem_openReferences {name : String} {node : SchemaNode} :
    name ∈ node.openReferences ↔ node.OpensTo name := by
  induction node using SchemaNode.childInduction with
  | step node ih =>
      obtain ⟨shape, notes⟩ := node
      cases shape with
      | reference target =>
          rw [openReferences, List.mem_singleton]
          constructor
          · rintro rfl
            exact .reference notes
          · rintro ⟨⟩
            rfl
      | union members =>
          rw [openReferences, mem_openReferencesAll]
          constructor
          · rintro ⟨member, isMember, inMember⟩
            exact .member notes isMember ((ih member isMember).mp inMember)
          · rintro (_ | ⟨_, isMember, opens⟩)
            exact ⟨_, isMember, (ih _ isMember).mpr opens⟩
      | nullable inner =>
          rw [openReferences, ih inner (List.mem_singleton.mpr rfl)]
          constructor
          · exact .nullable notes
          · rintro (_ | _ | ⟨_, opens⟩)
            exact opens
      | _ => exact ⟨nofun, nofun⟩

namespace SchemaDocument

/-- The definition of the first name comes to the definition of the second one in the same document
through references, unions and nullables alone. -/
def Alias (document : SchemaDocument) (source target : String) : Prop :=
  ∃ node, Table.find? source document.definitions = some node ∧ node.OpensTo target ∧
    target ∈ document.names

private theorem edge_ofDocument {document : SchemaDocument} :
    (AliasGraph.ofDocument document).Edge = document.Alias := by
  funext source target
  have names : Table.has target (AliasGraph.ofDocument document) = true ↔ target ∈ document.names := by
    rw [Table.has_eq_true_iff, AliasGraph.ofDocument, Table.keys, List.map_map]
    rfl
  have found : Table.find? source (AliasGraph.ofDocument document) =
      (Table.find? source document.definitions).map SchemaNode.openReferences :=
    Table.find?_map SchemaNode.openReferences source document.definitions
  apply propext
  constructor
  · rintro ⟨targets, isFound, isTarget, known⟩
    rw [found] at isFound
    obtain ⟨node, defined, rfl⟩ := Option.map_eq_some_iff.mp isFound
    exact ⟨node, defined, SchemaNode.mem_openReferences.mp isTarget, names.mp known⟩
  · rintro ⟨node, defined, opens, known⟩
    refine ⟨node.openReferences, ?_, SchemaNode.mem_openReferences.mpr opens, names.mpr known⟩
    rw [found, defined]
    rfl

/-- A document is searched for definitions that come back to themselves through references, unions and
nullables, and a cycle is reported exactly if there is one. The reported names go round along such
definitions, and the document is refused with them. -/
theorem alias_cycles_reported (document : SchemaDocument) :
    ((∃ cycle, (AliasGraph.ofDocument document).cycle? = some cycle) ↔
      ∃ name, Relation.TransGen document.Alias name name) ∧
    ∀ cycle, (AliasGraph.ofDocument document).cycle? = some cycle →
      GoesRound document.Alias cycle ∧
      ∀ id scope registry, document.load id scope registry = .error (aliasError cycle) := by
  rw [← edge_ofDocument]
  refine ⟨AliasGraph.exists_cycle?_iff, fun cycle reported => ⟨?_, fun id scope registry => ?_⟩⟩
  · exact AliasGraph.goesRound_of_cycle? reported
  · rw [load, reported]
    rfl

/-- Two names that stand for each other, below a third one; a name of another document, and a definition
that refers to itself behind a property. -/
def menu : SchemaDocument where
  definitions := [
    ("Start", .node (.reference "Item") {}),
    ("Item", .node (.union [.node (.word .string) {},
      .node (.nullable (.node (.reference "Entry") {})) {}]) {}),
    ("Entry", .node (.reference "Item") {}),
    ("Color", .node (.reference "Palette") {}),
    ("Page", .node (.struct [("next", .node (.reference "Page") {})] []) {})]
  root := none

theorem menu_cycle : (AliasGraph.ofDocument menu).cycle? = some ["Item", "Entry", "Item"] ∧
    GoesRound menu.Alias ["Item", "Entry", "Item"] := by
  have reported : (AliasGraph.ofDocument menu).cycle? = some ["Item", "Entry", "Item"] := by
    decide +kernel
  exact ⟨reported, ((alias_cycles_reported menu).2 _ reported).1⟩

end SchemaDocument

end SchemaCodec
