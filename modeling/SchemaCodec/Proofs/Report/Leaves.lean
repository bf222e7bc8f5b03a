import SchemaCodec.Report.Issue

/-!
The tree report and the flat report tell the same. From left to right the leaves of the tree are the
issues: the label of a leaf is the message of its issue, and the places above the leaf, joined, are
the path of its issue. Places that are drawn on one line are joined there already.
-/

namespace SchemaCodec

/-! ### Leaves of trees -/

structure Tree.Leaf where
  above : List String
  label : String

def Tree.Leaf.under (label : String) (leaf : Tree.Leaf) : Tree.Leaf where
  above := label :: leaf.above
  label := leaf.label

mutual

def Tree.leaves : Tree → List Tree.Leaf
  | .node label [] => [⟨[], label⟩]
  | .node label (child :: rest) =>
    (child.leaves ++ Tree.forestLeaves rest).map (Tree.Leaf.under label)

def Tree.forestLeaves : List Tree → List Tree.Leaf
  | [] => []
  | tree :: rest => tree.leaves ++ Tree.forestLeaves rest

end

private theorem Tree.leaves_node {label : String} {forest : List Tree} (inner : forest ≠ []) :
    (Tree.node label forest).leaves = (Tree.forestLeaves forest).map (Tree.Leaf.under label) := by
  cases forest with
  | nil => exact absurd rfl inner
  | cons child rest => rw [Tree.leaves, Tree.forestLeaves]

theorem Faults.forest_ne_nil (faults : Faults) : faults.forest ≠ [] := by
  cases faults <;> exact List.cons_ne_nil _ _

/-! ### Places -/

/-- The place that labels tell together. The members of a union are no places. -/
def placeOf (labels : List String) : String :=
  String.join (labels.filter fun label => label ≠ "union member")

def Tree.Leaf.between (leaf : Tree.Leaf) : List String :=
  leaf.above.tail

def PathStep.bracketed : PathStep → String
  | .index position => bracketIndex position
  | .key name => bracketKey name

def bracketedPath (path : List PathStep) : String :=
  String.join (path.map PathStep.bracketed)

/-- Labels of places start with a bracket, those of union members do not. -/
def IsPlaceLabel (label : String) : Prop :=
  ∃ rest, label = "[" ++ rest

theorem IsPlaceLabel.append {label : String} (place : IsPlaceLabel label) (inner : String) :
    IsPlaceLabel (label ++ inner) := by
  obtain ⟨rest, rfl⟩ := place
  exact ⟨rest ++ inner, String.append_assoc⟩

private theorem IsPlaceLabel.ne_unionMember {label : String} (place : IsPlaceLabel label) :
    label ≠ "union member" := by
  obtain ⟨rest, rfl⟩ := place
  intro same
  have heads := congrArg (fun text => text.toList.head?) same
  rw [String.toList_append] at heads
  cases heads

private theorem isPlaceLabel_bracketIndex (position : Nat) : IsPlaceLabel (bracketIndex position) :=
  ⟨Number.integerText position ++ "]", String.append_assoc⟩

private theorem isPlaceLabel_bracketKey (key : PropertyKey) : IsPlaceLabel (bracketKey key) :=
  ⟨key.toValue.shown ++ "]", String.append_assoc⟩

private theorem placeOf_cons_place {label : String} (place : IsPlaceLabel label)
    (labels : List String) :
    placeOf (label :: labels) = label ++ placeOf labels := by
  rw [placeOf, List.filter_cons_of_pos (by simpa using place.ne_unionMember), String.join_cons]
  rfl

private theorem placeOf_cons_unionMember (labels : List String) :
    placeOf ("union member" :: labels) = placeOf labels := by
  rw [placeOf, List.filter_cons_of_neg (by simp)]
  rfl

private theorem bracketedPath_concat (path : List PathStep) (step : PathStep) :
    bracketedPath (path ++ [step]) = bracketedPath path ++ step.bracketed := by
  simp [bracketedPath, String.join_append, String.join_cons]

/-! ### Faults -/

/-- A place has a node of its own, or it shares one with the only place below it. -/
theorem placeTree_cases (label : String) (faults : Faults) :
    placeTree label faults faults.forest = .node label faults.forest ∨
    ∃ fault inner child rest, faults = .single fault ∧ (∀ below, fault ≠ .unionMember below) ∧
      fault.tree = .node inner (child :: rest) ∧
      placeTree label faults faults.forest = .node (label ++ inner) (child :: rest) := by
  cases faults with
  | cons fault rest => exact Or.inl rfl
  | single fault =>
      rw [Faults.forest]
      cases isTree : fault.tree with
      | node inner below =>
          cases below with
          | nil => cases fault <;> exact Or.inl rfl
          | cons child rest =>
              cases fault with
              | unionMember _ => exact Or.inl rfl
              | _ => exact Or.inr ⟨_, inner, child, rest, rfl, nofun, isTree, rfl⟩

private theorem isPlaceLabel_placeTree {label : String} (place : IsPlaceLabel label)
    (faults : Faults) :
    IsPlaceLabel (placeTree label faults faults.forest).label := by
  rcases placeTree_cases label faults with own | ⟨_, inner, _, _, _, _, _, shared⟩
  · rw [own]
    exact place
  · rw [shared]
    exact place.append inner

/-- A fault with parts is a place or the member of a union. -/
private theorem Fault.isPlaceLabel_tree {fault : Fault}
    (notMember : ∀ below, fault ≠ .unionMember below)
    (parts : fault.tree.children ≠ []) : IsPlaceLabel fault.tree.label := by
  cases fault with
  | index position faults =>
      exact isPlaceLabel_placeTree (isPlaceLabel_bracketIndex position) faults
  | key key faults => exact isPlaceLabel_placeTree (isPlaceLabel_bracketKey key) faults
  | unionMember faults => exact absurd rfl (notMember faults)
  | _ => exact absurd rfl parts

def Tree.Leaf.said (above : String) (leaf : Tree.Leaf) : String × String :=
  (above ++ placeOf leaf.above, leaf.label)

def Issue.said (issue : Issue) : String × String :=
  (bracketedPath issue.path, issue.message)

private theorem Tree.Leaf.said_under_place {label : String} (place : IsPlaceLabel label)
    (above : String) :
    Tree.Leaf.said above ∘ Tree.Leaf.under label = Tree.Leaf.said (above ++ label) := by
  funext leaf
  simp only [Function.comp_apply, said, under, placeOf_cons_place place, String.append_assoc]

private theorem Tree.Leaf.said_under_unionMember (above : String) :
    Tree.Leaf.said above ∘ Tree.Leaf.under "union member" = Tree.Leaf.said above := by
  funext leaf
  simp only [Function.comp_apply, said, under, placeOf_cons_unionMember]

/-- The leaves of a place tell its label and then what the leaves below tell. -/
private theorem said_leaves_placeTree {label : String} (place : IsPlaceLabel label)
    (faults : Faults)
    (above : String) :
    (placeTree label faults faults.forest).leaves.map (Tree.Leaf.said above) =
      (Tree.forestLeaves faults.forest).map (Tree.Leaf.said (above ++ label)) := by
  rcases placeTree_cases label faults with
    own | ⟨fault, inner, child, rest, rfl, notMember, isTree, shared⟩
  · rw [own, Tree.leaves_node faults.forest_ne_nil, List.map_map, Tree.Leaf.said_under_place place]
  · have innerPlace : IsPlaceLabel inner := by
      have labelled := Fault.isPlaceLabel_tree notMember
      rw [isTree] at labelled
      exact labelled (List.cons_ne_nil _ _)
    rw [shared, Faults.forest, isTree, Tree.forestLeaves, Tree.forestLeaves, List.append_nil,
      Tree.leaves_node (List.cons_ne_nil _ _), Tree.leaves_node (List.cons_ne_nil _ _),
      List.map_map, List.map_map, Tree.Leaf.said_under_place (place.append inner),
      Tree.Leaf.said_under_place innerPlace, String.append_assoc]

mutual

/-- At any path the issues tell what the leaves tell. -/
private theorem Fault.said_issuesAt (path : List PathStep) (fault : Fault) :
    (fault.issuesAt path).map Issue.said =
      fault.tree.leaves.map (Tree.Leaf.said (bracketedPath path)) := by
  cases fault with
  | index position faults =>
      rw [Fault.issuesAt, Fault.tree, faults.said_issuesAt, bracketedPath_concat]
      exact (said_leaves_placeTree (isPlaceLabel_bracketIndex position) faults _).symm
  | key key faults =>
      rw [Fault.issuesAt, Fault.tree, faults.said_issuesAt, bracketedPath_concat]
      exact (said_leaves_placeTree (isPlaceLabel_bracketKey key) faults _).symm
  | unionMember faults =>
      rw [Fault.issuesAt, Fault.tree, faults.said_issuesAt, Tree.leaves_node faults.forest_ne_nil,
        List.map_map, Tree.Leaf.said_under_unionMember]
  | _ =>
      simp [Fault.issuesAt, Fault.tree, Tree.leaf, Tree.leaves, Issue.said, Tree.Leaf.said, placeOf]

private theorem Faults.said_issuesAt (path : List PathStep) (faults : Faults) :
    (faults.issuesAt path).map Issue.said =
      (Tree.forestLeaves faults.forest).map (Tree.Leaf.said (bracketedPath path)) := by
  cases faults with
  | single fault =>
      rw [Faults.issuesAt, Faults.forest, Tree.forestLeaves, Tree.forestLeaves, List.append_nil]
      exact fault.said_issuesAt path
  | cons fault rest =>
      rw [Faults.issuesAt, Faults.forest, Tree.forestLeaves, List.map_append, List.map_append,
        fault.said_issuesAt, rest.said_issuesAt]

end

mutual

private theorem Fault.length_issuesAt (path : List PathStep) (fault : Fault) :
    (fault.issuesAt path).length = fault.leafCount := by
  cases fault with
  | index position faults => exact faults.length_issuesAt _
  | key key faults => exact faults.length_issuesAt _
  | unionMember faults => exact faults.length_issuesAt path
  | _ => rfl

private theorem Faults.length_issuesAt (path : List PathStep) (faults : Faults) :
    (faults.issuesAt path).length = faults.leafCount := by
  cases faults with
  | single fault => exact fault.length_issuesAt path
  | cons fault rest =>
      rw [Faults.issuesAt, Faults.leafCount, List.length_append, fault.length_issuesAt,
        rest.length_issuesAt]

end

/-- The tree of a failed run has as many leaves as the run has issues, one for each leaf of its
faults. In order, the label of a leaf is the message of its issue, and the places strictly between
the root and the leaf are the path of its issue. -/
theorem Faults.leaves_tell_issues (faults : Faults) :
    faults.tree.leaves.length = faults.leafCount ∧ faults.issues.length = faults.leafCount ∧
    faults.tree.leaves.map (fun leaf => (placeOf leaf.between, leaf.label)) =
      faults.issues.map fun issue => (bracketedPath issue.path, issue.message) := by
  have told : faults.tree.leaves.map (fun leaf => (placeOf leaf.between, leaf.label)) =
      faults.issues.map Issue.said := by
    rw [Faults.issues, faults.said_issuesAt, Faults.tree, Tree.leaves_node faults.forest_ne_nil,
      List.map_map]
    refine List.map_congr_left fun leaf _ => ?_
    simp only [Function.comp_apply, Tree.Leaf.said, Tree.Leaf.between, Tree.Leaf.under,
      List.tail_cons, bracketedPath, List.map_nil, String.join_nil, String.empty_append]
  have counted : faults.issues.length = faults.leafCount := faults.length_issuesAt []
  have lengths := congrArg List.length told
  rw [List.length_map, List.length_map, counted] at lengths
  exact ⟨lengths, counted, told⟩

end SchemaCodec
