import SchemaCodec.Proofs.Run.Notes

/-!
The lazy nodes that a run enters. Keeping a record of them does not change a run, every recorded node
lies in a schema that the run comes to, and a run depends on the targets of the nodes it records alone.
-/

namespace SchemaCodec.Run

/-! ### What is recorded -/

theorem notes_enter (targets : Targets) (cell : LazyCell) :
    Notes (enterTraced targets cell) (some (cell.resolve targets)) [cell] :=
  fun _ => rfl

theorem lazy_projects {holds : LazyCell → Prop}
    (sides : ∀ side node cell, holds cell → holds (.side side node cell)) (side : Side) :
    Kind.Projects side (fun kind => ∀ cell, kind = .lazy cell → holds cell)
      (fun kind => ∀ cell, kind = .lazy cell → holds cell) where
  leaf _ _ here := here
  tuple _ _ _ := nofun
  struct _ _ _ := nofun
  union _ _ _ := ⟨nofun, nofun⟩
  lazy := by
    rintro cell id here _ ⟨⟩
    exact sides side id cell (here cell rfl)
  refinement _ _ _ := nofun
  declaration _ _ _ _ := nofun

variable {targets : Targets} {holds : LazyCell → Prop}

private theorem parse_recorded (sides : ∀ side node cell, holds cell → holds (.side side node cell))
    (depth : Nat) {settings : Settings} {schema : Schema}
    (throughout : schema.Throughout targets fun node => ∀ cell, node.kind = .lazy cell → holds cell)
    (input : Value) :
    (noting holds).rel
      (parseWith (enterTraced targets) (failure : Traced Outcome) depth settings schema input)
      (parse targets depth settings schema input) := by
  induction depth generalizing settings schema input with
  | zero => exact ⟨[], .failure, nofun⟩
  | succ depth ih =>
      refine (noting holds).rel_step targets (fun others part runs input => ?_)
        (fun cell isLazy input => ?_) input
      · exact ih (runs.throughout (lazy_projects sides .output) nofun throughout) input
      · obtain ⟨cells, enters, there⟩ := ih (throughout.enter isLazy) input
        refine ⟨cells ++ [cell], (notes_enter targets cell).bind_some enters, fun other member => ?_⟩
        rcases List.mem_append.mp member with behind | here
        · exact there other behind
        · exact List.mem_singleton.mp here ▸ throughout.here cell isLazy

/-- A traced run gives the outcome of the run, and every lazy node that it enters lies in a schema that
it comes to. -/
theorem parseTraced_recorded (sides : ∀ side node cell, holds cell → holds (.side side node cell))
    (depth : Nat) {settings : Settings} {schema : Schema}
    (throughout : schema.Throughout targets fun node => ∀ cell, node.kind = .lazy cell → holds cell)
    (input : Value) :
    (parseTraced targets depth settings schema input).1 = parse targets depth settings schema input ∧
      ∀ cell ∈ (parseTraced targets depth settings schema input).2, holds cell := by
  obtain ⟨cells, enters, each⟩ := parse_recorded sides depth throughout input
  have traced : parseTraced targets depth settings schema input =
      (parse targets depth settings schema input, cells.reverse) := by
    rw [parseTraced, enters [], List.append_nil]
  rw [traced]
  exact ⟨rfl, fun cell member => each cell (List.mem_reverse.mp member)⟩

/-! ### What a run depends on -/

/-- What a lazy node stands for depends on the reference at its bottom alone. -/
private theorem resolve_congr {cell : LazyCell} {others : Targets}
    (same : targets cell.root = others cell.root) : cell.resolve targets = cell.resolve others := by
  induction cell with
  | reference reference => exact same
  | side side node inner ih => exact congrArg (Schema.sideOf side) (ih same)

/-- The second computation goes like the first one, if the targets agree at all that is recorded. -/
def agreeing (targets others : Targets) : Alongside Traced Traced where
  rel first second := ∃ result cells, Notes first result cells ∧
    ((∀ cell ∈ cells, targets cell.root = others cell.root) → Notes second result cells)
  pure value := ⟨some value, [], .pure value, fun _ => .pure value⟩
  bind := by
    rintro α β first second next nextToo ⟨result, cells, enters, entersToo⟩ later
    cases result with
    | none => exact ⟨none, cells, enters.bind_none, fun same => (entersToo same).bind_none⟩
    | some value =>
        obtain ⟨result, more, goesOn, goesOnToo⟩ := later value
        refine ⟨result, more ++ cells, enters.bind_some goesOn, fun same => ?_⟩
        have here := entersToo fun cell member => same cell (List.mem_append_right _ member)
        exact here.bind_some (goesOnToo fun cell member => same cell (List.mem_append_left _ member))

private theorem parse_agreeing (targets others : Targets) (depth : Nat) (settings : Settings)
    (schema : Schema)
    (input : Value) :
    (agreeing targets others).rel
      (parseWith (enterTraced targets) (failure : Traced Outcome) depth settings schema input)
      (parseWith (enterTraced others) (failure : Traced Outcome) depth settings schema input) := by
  induction depth generalizing settings schema input with
  | zero => exact ⟨none, [], .failure, fun _ => .failure⟩
  | succ depth ih =>
      refine (agreeing targets others).rel_step targets (fun other part _ => ih other part)
        (fun cell _ input => ?_) input
      obtain ⟨result, cells, enters, entersToo⟩ := ih settings (cell.resolve targets) input
      refine ⟨result, cells ++ [cell], (notes_enter targets cell).bind_some enters, fun same => ?_⟩
      have atCell := resolve_congr (same cell (List.mem_append_right _ List.mem_cons_self))
      refine Notes.bind_some (atCell ▸ notes_enter others cell) (entersToo fun other member => ?_)
      exact same other (List.mem_append_left _ member)

/-- Runs give the same and enter the same lazy nodes, if the targets agree at all that one of them
enters. -/
theorem parseTraced_congr {others : Targets} {depth : Nat} {settings : Settings} {schema : Schema}
    {input : Value} (same : ∀ cell ∈ (parseTraced targets depth settings schema input).2,
      targets cell.root = others cell.root) :
    parseTraced others depth settings schema input =
      parseTraced targets depth settings schema input := by
  obtain ⟨result, cells, enters, entersToo⟩ :=
    parse_agreeing targets others depth settings schema input
  have traced : parseTraced targets depth settings schema input = (result, cells.reverse) := by
    rw [parseTraced, enters [], List.append_nil]
  rw [traced] at same ⊢
  rw [parseTraced, entersToo (fun cell member => same cell (List.mem_reverse.mpr member)) [],
    List.append_nil]

end SchemaCodec.Run
