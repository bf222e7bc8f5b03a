import SchemaCodec.Proofs.Text.Pieces
import SchemaCodec.Report.Tree

/-!
What a drawing shows. Where no label goes over the end of a line, the lines of a drawing are known from
its text. On each level a line begins with a mark that is kept for it: a tree begins with a branch, the
lines below it go on with a bar or with blanks, and the branch of the last tree is of its own kind.
Labels come after all marks of a line, so that they may hold anything, marks as well.
-/

namespace SchemaCodec.Tree

mutual

def labels : Tree → List String
  | .node label children => label :: forestLabels children

def forestLabels : List Tree → List String
  | [] => []
  | tree :: rest => tree.labels ++ forestLabels rest

end

/-- No label goes over the end of a line. -/
def OneLined (tree : Tree) : Prop :=
  ∀ label ∈ tree.labels, '\n' ∉ label.toList

/-! ### Lines -/

/-- Lines behind a branch; those after the first are behind a continuation of it. -/
def hang (branch continuation : String) : List (List Char) → List (List Char)
  | [] => []
  | first :: rest => (branch.toList ++ first) :: rest.map (continuation.toList ++ ·)

mutual

def lines : Tree → List (List Char)
  | .node label children => label.toList :: forestLines children

/-- The lines of the trees below a node, without the indentation of the node. -/
def forestLines : List Tree → List (List Char)
  | [] => []
  | [last] => hang "└─ " "   " last.lines
  | tree :: next :: rest => hang "├─ " "│  " tree.lines ++ forestLines (next :: rest)

end

private theorem flatMap_hang (indentation branch continuation : String) (label : List Char)
    (below : List (List Char)) :
    (hang branch continuation (label :: below)).flatMap (indentation.toList ++ ·) =
      (indentation ++ branch).toList ++
        (label ++ below.flatMap ((indentation ++ continuation).toList ++ ·)) := by
  simp only [hang, List.flatMap_cons, List.flatMap_map, String.toList_append, List.append_assoc]

mutual

/-- A tree is drawn as its label and the lines below it, each behind the indentation. -/
private theorem toList_drawAt (tree : Tree) (indentation : String) :
    (tree.drawAt indentation).toList =
      tree.label.toList ++ (forestLines tree.children).flatMap (indentation.toList ++ ·) := by
  match tree with
  | .node text children =>
      rw [drawAt, String.toList_append, toList_drawForest children indentation]
      rfl

private theorem toList_drawForest (forest : List Tree) (indentation : String) :
    (drawForest indentation forest).toList =
      (forestLines forest).flatMap (indentation.toList ++ ·) := by
  match forest with
  | [] => rfl
  | [.node text children] =>
      rw [drawForest, forestLines, lines, flatMap_hang, String.toList_append, toList_drawAt]
      rfl
  | .node text children :: next :: rest =>
      rw [drawForest, forestLines, lines, List.flatMap_append, flatMap_hang, String.toList_append,
        String.toList_append, toList_drawAt, toList_drawForest (next :: rest) indentation]
      rfl

end

private theorem toList_draw (tree : Tree) : tree.draw.toList = ['\n'].intercalate tree.lines := by
  cases tree with
  | node label children =>
      rw [draw, toList_drawAt, lines, Text.intercalate_cons]
      rfl

/-! ### Lines end where the text says -/

private theorem not_mem_hang {branch continuation : String} (branchEnds : '\n' ∉ branch.toList)
    (continuationEnds : '\n' ∉ continuation.toList) {block : List (List Char)}
    (each : ∀ line ∈ block, '\n' ∉ line) : ∀ line ∈ hang branch continuation block, '\n' ∉ line := by
  cases block with
  | nil => exact nofun
  | cons first rest =>
      obtain ⟨here, later⟩ := List.forall_mem_cons.mp each
      refine List.forall_mem_cons.mpr ⟨?_, List.forall_mem_map.mpr fun line inRest => ?_⟩
      · exact fun member => (List.mem_append.mp member).elim branchEnds here
      · exact fun member => (List.mem_append.mp member).elim continuationEnds (later line inRest)

mutual

theorem OneLined.lines {tree : Tree} (oneLined : tree.OneLined) : ∀ line ∈ tree.lines, '\n' ∉ line := by
  match tree with
  | .node label children =>
      obtain ⟨here, below⟩ := List.forall_mem_cons.mp oneLined
      exact List.forall_mem_cons.mpr ⟨here, not_mem_forestLines below⟩

private theorem not_mem_forestLines {forest : List Tree}
    (oneLined : ∀ label ∈ forestLabels forest, '\n' ∉ label.toList) :
    ∀ line ∈ forestLines forest, '\n' ∉ line := by
  match forest with
  | [] => exact nofun
  | [last] =>
      obtain ⟨here, _⟩ := List.forall_mem_append.mp oneLined
      exact not_mem_hang (by decide) (by decide) (OneLined.lines here)
  | tree :: next :: rest =>
      obtain ⟨here, later⟩ := List.forall_mem_append.mp oneLined
      exact List.forall_mem_append.mpr
        ⟨not_mem_hang (by decide) (by decide) (OneLined.lines here), not_mem_forestLines later⟩

end

/-! ### Lines show the tree -/

/-- Two blocks behind one mark end at the same line if the lines after them do not begin with the
mark. -/
private theorem eq_of_marked {mark : List Char} {block other after afterToo : List (List Char)}
    (ends : ∀ line ∈ after.head?, ¬mark <+: line)
    (endsToo : ∀ line ∈ afterToo.head?, ¬mark <+: line)
    (same : block.map (mark ++ ·) ++ after = other.map (mark ++ ·) ++ afterToo) :
    block = other ∧ after = afterToo := by
  induction block generalizing other with
  | nil =>
      cases other with
      | nil => exact ⟨rfl, same⟩
      | cons line rest =>
          have begins : after = _ := same
          exact absurd (List.prefix_append mark line) (ends _ (by rw [begins]; rfl))
  | cons line rest ih =>
      cases other with
      | nil =>
          have begins : afterToo = _ := same.symm
          exact absurd (List.prefix_append mark line) (endsToo _ (by rw [begins]; rfl))
      | cons lineToo restToo =>
          obtain ⟨sameLine, later⟩ := List.cons_eq_cons.mp same
          obtain ⟨sameRest, sameAfter⟩ := ih later
          exact ⟨by rw [List.append_cancel_left sameLine, sameRest], sameAfter⟩

/-- The first line of a forest begins with a branch. -/
private theorem head?_forestLines {forest : List Tree} :
    ∀ line ∈ (forestLines forest).head?, '├' ∈ line.head? ∨ '└' ∈ line.head? := by
  match forest with
  | [] => exact nofun
  | [.node label children] =>
      rintro _ ⟨⟩
      exact Or.inr rfl
  | .node label children :: next :: rest =>
      rintro _ ⟨⟩
      exact Or.inl rfl

private theorem not_bar_of_forestLines {forest : List Tree} :
    ∀ line ∈ (forestLines forest).head?, ¬"│  ".toList <+: line := by
  rintro line isFirst ⟨rest, rfl⟩
  rcases head?_forestLines _ isFirst with branch | branch <;> cases branch

private theorem branch_ne (label labelToo : List Char) :
    "└─ ".toList ++ label ≠ "├─ ".toList ++ labelToo := by
  intro same
  have marks : some '└' = some '├' := congrArg List.head? same
  exact absurd marks (by decide)

/-- The lines of a forest show where its first tree ends. -/
private theorem eq_of_first {tree treeToo : Tree} {rest restToo : List Tree}
    (same : forestLines (tree :: rest) = forestLines (treeToo :: restToo)) :
    tree.lines = treeToo.lines ∧ forestLines rest = forestLines restToo := by
  obtain ⟨label, children⟩ := tree
  obtain ⟨labelToo, childrenToo⟩ := treeToo
  rw [lines, lines, List.cons_eq_cons]
  cases rest with
  | nil =>
      cases restToo with
      | nil =>
          obtain ⟨sameLabel, marked⟩ := List.cons_eq_cons.mp same
          have below : forestLines children = forestLines childrenToo :=
            List.map_injective_iff.mpr (List.append_right_injective _) marked
          exact ⟨⟨List.append_cancel_left sameLabel, below⟩, rfl⟩
      | cons next others => exact absurd (List.cons_eq_cons.mp same).1 (branch_ne _ _)
  | cons next others =>
      cases restToo with
      | nil => exact absurd (List.cons_eq_cons.mp same).1.symm (branch_ne _ _)
      | cons nextToo othersToo =>
          obtain ⟨sameLabel, marked⟩ := List.cons_eq_cons.mp same
          obtain ⟨below, later⟩ := eq_of_marked not_bar_of_forestLines not_bar_of_forestLines marked
          exact ⟨⟨List.append_cancel_left sameLabel, below⟩, later⟩

private theorem forestLines_ne_nil (tree : Tree) (rest : List Tree) : forestLines (tree :: rest) ≠
    [] := by
  obtain ⟨label, children⟩ := tree
  cases rest <;> exact List.cons_ne_nil _ _

mutual

private theorem eq_of_lines {first second : Tree} (same : first.lines = second.lines) :
    first = second := by
  match first, second with
  | .node label children, .node labelToo childrenToo =>
      obtain ⟨sameLabel, below⟩ := List.cons_eq_cons.mp same
      rw [String.toList_inj.mp sameLabel, eq_of_forestLines below]

private theorem eq_of_forestLines {first second : List Tree}
    (same : forestLines first = forestLines second) :
    first = second := by
  match first, second with
  | [], [] => rfl
  | [], tree :: rest => exact absurd same.symm (forestLines_ne_nil tree rest)
  | tree :: rest, [] => exact absurd same (forestLines_ne_nil tree rest)
  | tree :: rest, treeToo :: restToo =>
      obtain ⟨here, later⟩ := eq_of_first same
      rw [eq_of_lines here, eq_of_forestLines later]

end

/-- Two trees without line ends in their labels are equal if their drawings are. -/
theorem eq_of_draw {first second : Tree} (oneLined : first.OneLined) (oneLinedToo : second.OneLined)
    (same : first.draw = second.draw) : first = second := by
  have texts : ['\n'].intercalate first.lines = ['\n'].intercalate second.lines := by
    rw [← toList_draw, ← toList_draw, same]
  have some (tree : Tree) : tree.lines ≠ [] := by
    cases tree
    exact List.cons_ne_nil _ _
  have lines : first.lines = second.lines := by
    rw [← List.splitOn_intercalate '\n' oneLined.lines (some first), texts,
      List.splitOn_intercalate '\n' oneLinedToo.lines (some second)]
  exact eq_of_lines lines

/-- What a run reports that fails twice in a list under the key `└─ `. -/
def branchFaults : Faults :=
  .single (.key (.string "└─ ") (.single (.index 0 (.cons .missing (.single .forbidden)))))

def branchTree : Tree :=
  .node "error(s) found" [.node "[\"└─ \"][0]" [.leaf "is missing", .leaf "is forbidden"]]

theorem branchTree_drawn : branchFaults.tree.OneLined ∧ branchTree.OneLined ∧
    branchFaults.tree.draw = branchTree.draw ∧ branchFaults.tree = branchTree := by
  have faultsOneLined : branchFaults.tree.OneLined := by
    unfold OneLined
    decide
  have treeOneLined : branchTree.OneLined := by
    unfold OneLined
    decide
  have drawn : branchFaults.tree.draw = branchTree.draw := by cbv
  exact ⟨faultsOneLined, treeOneLined, drawn, eq_of_draw faultsOneLined treeOneLined drawn⟩

end SchemaCodec.Tree
