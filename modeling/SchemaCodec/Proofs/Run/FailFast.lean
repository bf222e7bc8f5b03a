import SchemaCodec.Proofs.Run.FaultMode
import SchemaCodec.Schema.Refine

/-!
What a run that stops at the first fault reports: the first issues of the run that collects all
faults. The order of the phases of a level is the same in both runs, so that the one fault of the
stopped run leads the faults of the other.
-/

namespace SchemaCodec

mutual

/-- Every fault is reported by an issue. -/
private theorem Fault.issuesAt_ne_nil (path : List PathStep) (fault : Fault) :
    fault.issuesAt path ≠ [] := by
  cases fault with
  | type expected actual message => exact List.cons_ne_nil _ _
  | forbidden => exact List.cons_ne_nil _ _
  | missing => exact List.cons_ne_nil _ _
  | unexpected actual => exact List.cons_ne_nil _ _
  | index position faults => exact faults.issuesAt_ne_nil _
  | key key faults => exact faults.issuesAt_ne_nil _
  | unionMember faults => exact faults.issuesAt_ne_nil _

private theorem Faults.issuesAt_ne_nil (path : List PathStep) (faults : Faults) :
    faults.issuesAt path ≠ [] := by
  cases faults with
  | single fault => exact fault.issuesAt_ne_nil path
  | cons fault rest =>
      rw [Faults.issuesAt]
      exact List.append_ne_nil_of_left_ne_nil (fault.issuesAt_ne_nil path) _

end

/-- The issues of the first fault come first. -/
private theorem Faults.issuesAt_ofCons (path : List PathStep) (fault : Fault) (rest : List Fault) :
    fault.issuesAt path <+: (Faults.ofCons fault rest).issuesAt path := by
  cases rest with
  | nil => exact List.prefix_refl _
  | cons next rest =>
      rw [Faults.ofCons, Faults.issuesAt]
      exact List.prefix_append _ _

namespace Run

/-- The issues of one run are the first issues of the other, wherever the schema stands. -/
def Abridgement.leadingIssues : Abridgement where
  loose := False
  fault fault other := ∀ path, fault.issuesAt path <+: other.issuesAt path
  faults faults others := ∀ path, faults.issuesAt path <+: others.issuesAt path
  fault_refl _ _ := List.prefix_refl _
  faults_refl _ _ := List.prefix_refl _
  index position _ _ leads path := by
    simpa only [Fault.issuesAt] using leads (path ++ [.index position])
  key key _ _ leads path := by
    simpa only [Fault.issuesAt] using leads (path ++ [.key key])
  lead _ other rest leads path := (leads path).trans (Faults.issuesAt_ofCons path other rest)
  total := False.elim

variable {targets : Targets}

/-- Runs that stop at the first fault and runs that collect all faults succeed alike, with the same
value. Where both fail, the issues of the first are a prefix of the issues of the second that is not
empty; and where the second fails, so does the first. -/
theorem stopping_agrees_with_collecting (settings : Settings) (schema : Schema) (input : Value)
    (regular : schema.Throughout targets fun node =>
      node.kind.WellFormed ∧ node.kind.IgnoresFaultMode ∧ ¬node.kind.IsDeclaration) :
    (∀ value, Yields targets (settings.withFaults .first) schema input (.ok value) ↔
      Yields targets (settings.withFaults .all) schema input (.ok value)) ∧
    (∀ all, Yields targets (settings.withFaults .all) schema input (.error all) →
      ∃ first, Yields targets (settings.withFaults .first) schema input (.error first)) ∧
    ∀ first all, Yields targets (settings.withFaults .first) schema input (.error first) →
      Yields targets (settings.withFaults .all) schema input (.error all) →
      first.issues ≠ [] ∧ first.issues <+: all.issues := by
  have follows : ∀ depth, Abridgement.leadingIssues.Level
      (parse targets depth (settings.withFaults .first) schema input)
      (parse targets depth (settings.withFaults .all) schema input) := fun depth =>
    parse_follows Abridgement.leadingIssues
      (fun node reached => (regular node reached).imp_right (And.imp_right Or.inr)) depth settings
      input
  have fails : ∀ all, Yields targets (settings.withFaults .all) schema input (.error all) →
      ∃ first, Yields targets (settings.withFaults .first) schema input (.error first) ∧
        first.issues <+: all.issues := by
    rintro all ⟨depth, found⟩
    have here := follows depth
    rw [found] at here
    generalize stopped : parse targets depth (settings.withFaults .first) schema input = result at here
    cases here with
    | fault related => exact ⟨_, ⟨depth, stopped⟩, related []⟩
  refine ⟨fun value => ?_, fun all yields => ?_, fun first all yields yieldsToo => ?_⟩
  · exact exists_congr fun depth => (follows depth).ok_iff not_false value
  · obtain ⟨first, stopped, _⟩ := fails all yields
    exact ⟨first, stopped⟩
  · refine ⟨first.issuesAt_ne_nil [], ?_⟩
    obtain ⟨other, stopped, leads⟩ := fails all yieldsToo
    cases yields.unique stopped
    exact leads

def customerName : Schema :=
  .satisfying (.made 1) .string fun value => value.string?.any fun text => text ≠ ""

def orderMarks : Schema := .plain (.made 2) (.tuple [] [.boolean])

def orderForm : Schema :=
  .plain (.made 3) (.struct
    [⟨.string "customer", customerName, false⟩, ⟨.string "marks", orderMarks, false⟩]
    [⟨.string, .string⟩])

def faultyOrder : Value :=
  .object [(.string "customer", .string ""), (.string "marks", .array [.null]),
    (.string "remark", .boolean true)]

private theorem orderForm_throughout {targets : Targets} :
    orderForm.Throughout targets fun node =>
      node.kind.WellFormed ∧ node.kind.IgnoresFaultMode ∧ ¬node.kind.IsDeclaration := by
  refine .of_closed [orderForm, customerName, orderMarks, .string, .boolean] ?_ ?_ (by simp)
  · change [customerName, orderMarks, .string, .string, .string, .boolean] ⊆ _
    simp
  · have wellFormed : orderForm.kind.WellFormed := by
      refine ⟨by decide, fun index member => ?_⟩
      cases List.mem_singleton.mp member
      rfl
    simp only [List.forall_mem_cons]
    exact ⟨⟨nofun, wellFormed, trivial, id⟩, ⟨nofun, trivial, fun _ _ _ _ => rfl, id⟩,
      ⟨nofun, trivial, trivial, id⟩, ⟨nofun, trivial, trivial, id⟩,
      ⟨nofun, trivial, trivial, id⟩, nofun⟩

/-- Of the three issues of an order the stopped run reports the first one. -/
theorem stopping_reports_first_of_three :
    ∃ first all,
      Yields (fun _ => Schema.never) ⟨.sync, { faults := .first }, .decode⟩ orderForm faultyOrder
        (.error first) ∧
      Yields (fun _ => Schema.never) ⟨.sync, { faults := .all }, .decode⟩ orderForm faultyOrder
        (.error all) ∧
      first.issues.length = 1 ∧ all.issues.length = 3 ∧ first.issues <+: all.issues := by
  have agrees := @stopping_agrees_with_collecting (fun _ => Schema.never) ⟨.sync, {}, .decode⟩
    orderForm faultyOrder orderForm_throughout
  have stopped : Yields (fun _ => Schema.never) ⟨.sync, { faults := .first }, .decode⟩ orderForm
      faultyOrder (.error _) := ⟨4, rfl⟩
  have collected : Yields (fun _ => Schema.never) ⟨.sync, { faults := .all }, .decode⟩ orderForm
      faultyOrder (.error _) := ⟨4, rfl⟩
  exact ⟨_, _, stopped, collected, rfl, rfl, (agrees.2.2 _ _ stopped collected).2⟩

end Run

end SchemaCodec
