import Mathlib.Data.List.Chain
import Mathlib.Data.List.Forall2
import SchemaCodec.Proofs.Report.Leaves

/-!
Places on one line. The tree of a failed run is built from its leaves upwards, and each place looks at
the tree below it. Seen from the faults it is simpler: a place shares a node with the only place below
it, and so on down, as far as that goes. Here each node is given the faults that it stems from. Those of
a node of places are a chain that goes no further up or down.
-/

namespace SchemaCodec

/-! ### Chains of places -/

namespace Fault

/-- The place that a fault tells, in brackets. The members of a union are no places. -/
def bracketed? : Fault → Option String
  | .index position _ => some (bracketIndex position)
  | .key name _ => some (bracketKey name)
  | _ => none

def isPlace (fault : Fault) : Bool :=
  fault.bracketed?.isSome

def HasOnly (outer inner : Fault) : Prop :=
  outer.children? = some (.single inner)

private theorem isPlace_of_bracketed? {fault : Fault} {label : String}
    (isPlace : fault.bracketed? = some label) : fault.isPlace = true := by
  rw [Fault.isPlace, isPlace, Option.isSome_some]

end Fault

/-- A chain of places, where below each but the last there is only the next one. It goes no further
down, nor up to the fault that stands right above it. -/
structure MaximalChain (above : Option Fault) (chain : List Fault) : Prop where
  nonempty : chain ≠ []
  places : ∀ fault ∈ chain, fault.isPlace = true
  linked : chain.IsChain Fault.HasOnly
  outermost : ∀ outer ∈ above, ∀ first ∈ chain.head?, outer.isPlace = true → ¬outer.HasOnly first
  innermost : ∀ last ∈ chain.getLast?, ∀ inner, last.HasOnly inner → inner.isPlace = false

/-! ### Trees with their sources -/

/-- A tree in which each node has the faults that it stems from, the outermost first. -/
inductive SourcedTree where
  | node (sources : List Fault) (label : String) (children : List SourcedTree)

namespace SourcedTree

def sources : SourcedTree → List Fault
  | .node sources _ _ => sources

def label : SourcedTree → String
  | .node _ label _ => label

def children : SourcedTree → List SourcedTree
  | .node _ _ children => children

mutual

def tree : SourcedTree → Tree
  | .node _ label children => .node label (forest children)

def forest : List SourcedTree → List Tree
  | [] => []
  | first :: rest => first.tree :: forest rest

end

/-- The tree of a place, which shares the node of the only place below it. -/
def ofPlace (place : Fault) (label : String) : Faults → List SourcedTree → SourcedTree
  | .single inner, [.node sources innerLabel children] =>
    if inner.isPlace then .node (place :: sources) (label ++ innerLabel) children
    else .node [place] label [.node sources innerLabel children]
  | _, forest => .node [place] label forest

/-- Something holds at the node and at all nodes below it, each with the fault right above it. -/
inductive Throughout (holds : Option Fault → SourcedTree → Prop) :
    Option Fault → SourcedTree → Prop where
  | node {above : Option Fault} {node : SourcedTree} (here : holds above node)
      (below : ∀ child ∈ node.children, Throughout holds node.sources.getLast? child) :
      Throughout holds above node

/-- The trees stem from the faults, one from each. -/
def Follow (faults : Faults) (trees : List SourcedTree) : Prop :=
  List.Forall₂ (fun fault tree => tree.sources.head? = some fault) faults.toList trees

/-- A node that stems from places. -/
structure Collapsed (above : Option Fault) (node : SourcedTree) : Prop where
  chain : MaximalChain above node.sources
  label : node.label = String.join (node.sources.filterMap Fault.bracketed?)
  branches : 2 ≤ node.children.length ∨
    ∃ child, node.children = [child] ∧
      (child.children = [] ∨ ∃ faults, child.sources = [.unionMember faults])

/-- A node stems from one fault that is no place, or from a chain of places. What is below it stems from
the faults that are below its sources. -/
structure Faithful (above : Option Fault) (node : SourcedTree) : Prop where
  sources : (∃ fault, node.sources = [fault] ∧ fault.isPlace = false) ∨ node.Collapsed above
  children : ∀ last ∈ node.sources.getLast?,
    (∀ faults, last.children? = some faults → Follow faults node.children) ∧
      (last.children? = none → node.children = [])

end SourcedTree

mutual

def Fault.sourced : Fault → SourcedTree
  | .index position faults =>
    .ofPlace (.index position faults) (bracketIndex position) faults faults.sourced
  | .key key faults => .ofPlace (.key key faults) (bracketKey key) faults faults.sourced
  | .unionMember faults => .node [.unionMember faults] "union member" faults.sourced
  | leaf => .node [leaf] leaf.tree.label []

def Faults.sourced : Faults → List SourcedTree
  | .single fault => [fault.sourced]
  | .cons fault rest => fault.sourced :: rest.sourced

end

open SourcedTree

/-! ### The same tree -/

private theorem children_placeTree_ne_nil (label : String) (faults : Faults) :
    (placeTree label faults faults.forest).children ≠ [] := by
  rcases placeTree_cases label faults with own | ⟨_, _, child, rest, _, _, _, shared⟩
  · rw [own]
    exact faults.forest_ne_nil
  · rw [shared]
    exact List.cons_ne_nil child rest

private theorem placeTree_place {inner : Fault} (isPlace : inner.isPlace = true) (label : String) :
    placeTree label (.single inner) [inner.tree] =
      .node (label ++ inner.tree.label) inner.tree.children := by
  have parts : inner.tree.children ≠ [] := by
    cases inner with
    | index position faults => exact children_placeTree_ne_nil _ faults
    | key key faults => exact children_placeTree_ne_nil _ faults
    | _ => cases isPlace
  cases isTree : inner.tree with
  | node innerLabel below =>
      rw [isTree] at parts
      cases below with
      | nil => exact absurd rfl parts
      | cons child rest =>
          cases inner with
          | unionMember faults => cases isPlace
          | _ => rfl

private theorem placeTree_other {inner : Fault} (notPlace : inner.isPlace = false)
    (label : String) :
    placeTree label (.single inner) [inner.tree] = .node label [inner.tree] := by
  cases inner with
  | index position faults => cases notPlace
  | key key faults => cases notPlace
  | _ => rfl

/-- A place shares the node of the only place below it, or it has a node of its own. -/
private theorem ofPlace_cases (place : Fault) (label : String) (faults : Faults) :
    (∃ inner, faults = .single inner ∧ inner.isPlace = true ∧
      ofPlace place label faults faults.sourced =
        .node (place :: inner.sourced.sources) (label ++ inner.sourced.label)
          inner.sourced.children) ∨
    (∀ inner, faults = .single inner → inner.isPlace = false) ∧
      ofPlace place label faults faults.sourced = .node [place] label faults.sourced := by
  cases faults with
  | cons fault rest => exact Or.inr ⟨nofun, rfl⟩
  | single inner =>
      rw [Faults.sourced]
      cases isTree : inner.sourced with
      | node sources innerLabel children =>
          cases isPlace : inner.isPlace with
          | true =>
              refine Or.inl ⟨inner, rfl, isPlace, ?_⟩
              rw [ofPlace, if_pos isPlace, isTree]
              rfl
          | false =>
              refine Or.inr ⟨?_, ?_⟩
              · rintro _ ⟨⟩
                exact isPlace
              · rw [ofPlace, if_neg (by simp [isPlace])]

private theorem tree_ofPlace {faults : Faults} (same : forest faults.sourced = faults.forest)
    (place : Fault)
    (label : String) :
    (ofPlace place label faults faults.sourced).tree = placeTree label faults faults.forest := by
  rcases ofPlace_cases place label faults with ⟨inner, rfl, isPlace, shared⟩ | ⟨apart, own⟩
  · have innerTree : inner.sourced.tree = inner.tree := List.head_eq_of_cons_eq same
    rw [shared, Faults.forest, placeTree_place isPlace, ← innerTree]
    cases inner.sourced
    rfl
  · rw [own, tree, same]
    cases faults with
    | cons fault rest => rfl
    | single inner => rw [Faults.forest, placeTree_other (apart inner rfl)]

mutual

/-- Without the sources the trees are those of the report. -/
private theorem Fault.tree_sourced (fault : Fault) : fault.sourced.tree = fault.tree := by
  cases fault with
  | index position faults => exact tree_ofPlace faults.forest_sourced _ _
  | key key faults => exact tree_ofPlace faults.forest_sourced _ _
  | unionMember faults =>
      rw [Fault.sourced, SourcedTree.tree, faults.forest_sourced, Fault.tree]
  | _ => rfl

private theorem Faults.forest_sourced (faults : Faults) :
    SourcedTree.forest faults.sourced = faults.forest := by
  cases faults with
  | single fault => rw [Faults.sourced, forest, forest, fault.tree_sourced, Faults.forest]
  | cons fault rest =>
      rw [Faults.sourced, forest, fault.tree_sourced, rest.forest_sourced, Faults.forest]

end

/-! ### Where nodes stem from -/

private theorem Fault.head?_sourced (fault : Fault) : fault.sourced.sources.head? = some fault := by
  have ofPlace (place : Fault) (label : String) (faults : Faults) :
      (SourcedTree.ofPlace place label faults faults.sourced).sources.head? = some place := by
    rcases ofPlace_cases place label faults with ⟨_, _, _, shared⟩ | ⟨_, own⟩
    · rw [shared]
      rfl
    · rw [own]
      rfl
  cases fault with
  | index position faults => exact ofPlace _ _ faults
  | key key faults => exact ofPlace _ _ faults
  | _ => rfl

private theorem Faults.follow_sourced (faults : Faults) : Follow faults faults.sourced := by
  cases faults with
  | single fault => exact .cons fault.head?_sourced .nil
  | cons fault rest => exact .cons fault.head?_sourced rest.follow_sourced

/-- The only tree below a place of its own is a leaf or the member of a union. -/
private theorem branches_sourced {faults : Faults}
    (apart : ∀ inner, faults = .single inner → inner.isPlace = false) :
    2 ≤ faults.sourced.length ∨ ∃ child, faults.sourced = [child] ∧
      (child.children = [] ∨ ∃ below, child.sources = [.unionMember below]) := by
  cases faults with
  | cons fault rest =>
      left
      have more : rest.sourced.length ≠ 0 := by cases rest <;> exact Nat.succ_ne_zero _
      rw [Faults.sourced, List.length_cons]
      omega
  | single inner =>
      right
      have notPlace := apart inner rfl
      refine ⟨inner.sourced, rfl, ?_⟩
      cases inner with
      | index position faults => cases notPlace
      | key key faults => cases notPlace
      | unionMember below => exact Or.inr ⟨below, rfl⟩
      | _ => exact Or.inl rfl

/-- A fault that is put under another one is not to share its node. -/
def Fault.StandsApart (fault : Fault) (above : Option Fault) : Prop :=
  ∀ outer ∈ above, outer.isPlace = true → outer.HasOnly fault → fault.isPlace = false

/-! ### Chains grow upwards -/

section Chains

variable {place : Fault} {above : Option Fault} (isPlace : place.isPlace = true)
  (apart : place.StandsApart above)

include isPlace apart

private theorem Fault.StandsApart.outermost :
    ∀ outer ∈ above, ∀ first ∈ some place, outer.isPlace = true →
    ¬outer.HasOnly first := by
  rintro outer isAbove _ ⟨⟩ outerPlace only
  rw [apart outer isAbove outerPlace only] at isPlace
  cases isPlace

private theorem maximalChain_single
    (ownLine : ∀ inner, place.HasOnly inner → inner.isPlace = false) :
    MaximalChain above [place] where
  nonempty := List.cons_ne_nil _ _
  places := List.forall_mem_singleton.mpr isPlace
  linked := List.isChain_singleton place
  outermost := apart.outermost isPlace
  innermost := by
    rintro _ ⟨⟩ inner only
    exact ownLine inner only

/-- A place goes in front of the chain of the only fault below it. -/
theorem MaximalChain.cons {inner : Fault} {chain : List Fault} (below : MaximalChain none chain)
    (first : chain.head? = some inner) (only : place.HasOnly inner) :
    MaximalChain above (place :: chain) where
  nonempty := List.cons_ne_nil _ _
  places := List.forall_mem_cons.mpr ⟨isPlace, below.places⟩
  linked := by
    refine List.isChain_cons.mpr ⟨fun next isNext => ?_, below.linked⟩
    rw [first] at isNext
    cases isNext
    exact only
  outermost := apart.outermost isPlace
  innermost := by
    rw [List.getLast?_cons_of_ne_nil below.nonempty]
    exact below.innermost

end Chains

private theorem collapsed_of_place {inner : Fault} (isPlace : inner.isPlace = true)
    (faithful : Faithful none inner.sourced) : inner.sourced.Collapsed none := by
  rcases faithful.sources with ⟨fault, single, notPlace⟩ | collapsed
  · have head := inner.head?_sourced
    rw [single, List.head?_cons, Option.some.injEq] at head
    rw [head, isPlace] at notPlace
    cases notPlace
  · exact collapsed

private theorem throughout_ofPlace {place : Fault} {label : String} {faults : Faults}
    (isPlace : place.bracketed? = some label) (below : place.children? = some faults)
    (each : ∀ above, (∀ fault ∈ faults.toList, fault.StandsApart above) →
      ∀ tree ∈ faults.sourced, tree.Throughout Faithful above)
    {above : Option Fault} (apart : place.StandsApart above) :
    (ofPlace place label faults faults.sourced).Throughout Faithful above := by
  have here : place.isPlace = true := Fault.isPlace_of_bracketed? isPlace
  rcases ofPlace_cases place label faults with ⟨inner, rfl, innerPlace, shared⟩ | ⟨ownLine, own⟩
  · obtain ⟨faithful, belowInner⟩ :=
      each none (fun _ _ => nofun) inner.sourced (List.mem_singleton_self _)
    have collapsed := collapsed_of_place innerPlace faithful
    have chain := collapsed.chain.cons here apart inner.head?_sourced below
    have sameLast : (place :: inner.sourced.sources).getLast? = inner.sourced.sources.getLast? :=
      List.getLast?_cons_of_ne_nil collapsed.chain.nonempty
    rw [shared]
    refine .node ⟨Or.inr ⟨chain, ?_, collapsed.branches⟩, ?_⟩ ?_
    · change label ++ inner.sourced.label = String.join ((place :: inner.sourced.sources).filterMap _)
      rw [collapsed.label, List.filterMap_cons, isPlace, String.join_cons]
    · exact sameLast ▸ faithful.children
    · exact sameLast ▸ belowInner
  · have alone : ∀ inner, place.HasOnly inner → inner.isPlace = false := fun inner only =>
      ownLine inner (Option.some.inj (below.symm.trans only))
    have chain := maximalChain_single here apart alone
    have label : label = String.join ([place].filterMap Fault.bracketed?) := by
      rw [List.filterMap_cons, isPlace]
      simp [String.join_cons]
    rw [own]
    refine .node ⟨Or.inr ⟨chain, label, branches_sourced ownLine⟩, ?_⟩ ?_
    · change ∀ last ∈ some place, _
      rintro _ ⟨⟩
      rw [below]
      refine ⟨?_, nofun⟩
      rintro _ ⟨⟩
      exact faults.follow_sourced
    · refine each (some place) ?_
      rintro fault _ _ ⟨⟩ _ only
      exact alone fault only

mutual

private theorem Fault.throughout_sourced (fault : Fault) {above : Option Fault}
    (apart : fault.StandsApart above) : fault.sourced.Throughout Faithful above := by
  cases fault with
  | index position faults =>
      exact throughout_ofPlace rfl rfl (fun _ => faults.throughout_sourced) apart
  | key key faults =>
      exact throughout_ofPlace rfl rfl (fun _ => faults.throughout_sourced) apart
  | unionMember faults =>
      refine .node ⟨Or.inl ⟨_, rfl, rfl⟩, ?_⟩ ?_
      · rintro _ ⟨⟩
        refine ⟨?_, nofun⟩
        rintro _ ⟨⟩
        exact faults.follow_sourced
      · refine faults.throughout_sourced ?_
        rintro _ _ _ ⟨⟩ ⟨⟩
  | _ =>
      refine .node ⟨Or.inl ⟨_, rfl, rfl⟩, ?_⟩ nofun
      rintro _ ⟨⟩
      exact ⟨nofun, fun _ => rfl⟩

private theorem Faults.throughout_sourced (faults : Faults) {above : Option Fault}
    (apart : ∀ fault ∈ faults.toList, fault.StandsApart above) :
    ∀ tree ∈ faults.sourced, tree.Throughout Faithful above := by
  cases faults with
  | single fault =>
      have here : fault.StandsApart above := apart fault (List.mem_singleton_self fault)
      exact List.forall_mem_singleton.mpr (fault.throughout_sourced here)
  | cons fault rest =>
      obtain ⟨here, later⟩ := List.forall_mem_cons.mp apart
      exact List.forall_mem_cons.mpr
        ⟨fault.throughout_sourced here, rest.throughout_sourced later⟩

end

/-- Each node of the tree of a failed run stems from faults: the nodes below the root from the faults of
the run, the nodes below another node from the faults below its last source. A node that stems from
places has two children or more, or one that is a leaf or stems from the member of a union; it stems
from a maximal chain of places, each the only fault below the one before it, and its label is theirs,
the outermost first. -/
theorem Faults.places_collapse (faults : Faults) :
    faults.tree = .node "error(s) found" (SourcedTree.forest faults.sourced) ∧
    Follow faults faults.sourced ∧
    ∀ tree ∈ faults.sourced, tree.Throughout Faithful none := by
  refine ⟨?_, faults.follow_sourced, faults.throughout_sourced fun _ _ => nofun⟩
  rw [Faults.tree, faults.forest_sourced]

end SchemaCodec
