import SchemaCodec.Proofs.Table
import SchemaCodec.Session

/-!
What runs leave of a session. A run remembers what the references it entered stood for, and that does
not change what any reference stands for: as long as nothing is registered, all runs of a session go by
the same targets.
-/

namespace SchemaCodec.Session

variable {session : Session}

theorem registry_setRegistry (scope : Nat) (registry : Registry) :
    (session.setRegistry scope registry).registry scope = registry := by
  change (Table.find? scope (Table.insert scope registry session.registries)).getD .empty = registry
  rw [Table.find?_insert, if_pos rfl]
  rfl

theorem registry_setRegistry_of_ne {scope other : Nat} (apart : other ≠ scope)
    (registry : Registry) : (session.setRegistry scope registry).registry other =
      session.registry other := by
  change (Table.find? other (Table.insert scope registry session.registries)).getD .empty = _
  rw [Table.find?_insert, if_neg apart.symm]
  rfl

theorem targets_resolve (reference : Reference) :
    (session.resolve reference).targets = session.targets := by
  funext other
  unfold resolve
  split
  · rfl
  · rename_i isNew
    have notFound : Table.find? reference session.resolved = none := by
      rwa [Table.has, Bool.not_eq_true, Option.isSome_eq_false_iff, Option.isNone_iff_eq_none]
        at isNew
    change (Table.find? other (session.resolved ++ [(reference, session.lookUp reference)])).getD
      (session.lookUp other) = session.targets other
    rw [Table.find?_append, targets]
    by_cases same : reference = other
    · subst same
      rw [notFound, Option.none_or, Table.find?, if_pos rfl]
      rfl
    · rw [Table.find?, if_neg same, Table.find?, Option.or_none]

theorem targets_mark (cell : LazyCell) : (session.mark cell).targets = session.targets := by
  induction cell with
  | reference reference =>
      rw [mark]
      split
      · exact targets_resolve reference
      · exact targets_resolve reference
  | side side node inner ih =>
      rw [mark]
      split
      · exact ih
      · exact ih

private theorem targets_marks (cells : List LazyCell) :
    (cells.foldl mark session).targets = session.targets := by
  induction cells generalizing session with
  | nil => rfl
  | cons cell rest ih => exact ih.trans (targets_mark cell)

/-- A run leaves all references where they point. -/
theorem targets_parse (settings : Run.Settings) (schema : Schema) (input : Value) :
    (session.parse settings schema input).2.targets = session.targets :=
  targets_marks _

/-! ### What is remembered -/

theorem lookUp_eq (reference : Reference) :
    session.lookUp reference =
      ((session.registry reference.scope).get? reference.name).getD .never := by
  unfold lookUp registry
  cases Table.find? reference.scope session.registries with
  | none => rfl
  | some registry => rfl

theorem resolve_of_used {reference : Reference}
    (used : Table.has reference session.resolved = true) : session.resolve reference = session :=
  if_pos used

theorem resolved_of_unused {reference : Reference}
    (unused : Table.find? reference session.resolved = none) :
    (session.resolve reference).resolved =
      session.resolved ++ [(reference, session.lookUp reference)] := by
  rw [resolve, if_neg]
  rw [Table.has, unused]
  exact Bool.false_ne_true

theorem has_resolve (reference : Reference) :
    Table.has reference (session.resolve reference).resolved = true := by
  by_cases used : Table.has reference session.resolved = true
  · rwa [resolve_of_used used]
  · have unused : Table.find? reference session.resolved = none :=
      Option.not_isSome_iff_eq_none.mp used
    rw [resolved_of_unused unused]
    exact Table.has_eq_true_iff.mpr (Table.mem_keys (List.mem_append_right _ List.mem_cons_self))

theorem targets_of_unused {reference : Reference}
    (unused : Table.find? reference session.resolved = none) :
    session.targets reference = session.lookUp reference := by
  rw [targets, unused]
  rfl

private theorem registries_resolve (reference : Reference) :
    (session.resolve reference).registries = session.registries := by
  unfold resolve
  split
  · rfl
  · rfl

theorem registries_mark (cell : LazyCell) :
    (session.mark cell).registries = session.registries := by
  induction cell with
  | reference reference =>
      rw [mark]
      split
      · exact registries_resolve reference
      · exact registries_resolve reference
  | side side node inner ih =>
      rw [mark]
      split
      · exact ih
      · exact ih

theorem registries_marks (cells : List LazyCell) :
    (cells.foldl mark session).registries = session.registries := by
  induction cells generalizing session with
  | nil => rfl
  | cons cell rest ih => exact ih.trans (registries_mark cell)

/-- A run registers nothing. -/
theorem registries_parse (settings : Run.Settings) (schema : Schema) (input : Value) :
    (session.parse settings schema input).2.registries = session.registries :=
  registries_marks _

/-- What is remembered of a lazy node is what its reference stands for. -/
theorem resolved_mark (cell : LazyCell) :
    (session.mark cell).resolved = (session.resolve cell.root).resolved := by
  induction cell with
  | reference reference =>
      rw [mark]
      split
      · rfl
      · rfl
  | side side node inner ih =>
      rw [mark]
      split
      · exact ih
      · exact ih

/-- What is remembered stays. -/
private theorem find?_resolved_mark {cell : LazyCell} {reference : Reference} {schema : Schema}
    (known : Table.find? reference session.resolved = some schema) :
    Table.find? reference (session.mark cell).resolved = some schema := by
  rw [resolved_mark, resolve]
  split
  · exact known
  · exact (Table.find?_append _ _ _).trans (by rw [known, Option.some_or])

theorem find?_resolved_parse {settings : Run.Settings} {schema target : Schema} {input : Value}
    {reference : Reference} (known : Table.find? reference session.resolved = some target) :
    Table.find? reference (session.parse settings schema input).2.resolved = some target := by
  have kept : ∀ cells : List LazyCell,
      Table.find? reference (cells.foldl mark session).resolved = some target := by
    intro cells
    induction cells generalizing session with
    | nil => exact known
    | cons cell rest ih => exact ih (find?_resolved_mark known)
  exact kept _

private theorem mem_resolved_mark {cell : LazyCell} {entry : Reference × Schema}
    (member : entry ∈ (session.mark cell).resolved) :
    entry ∈ session.resolved ∨ entry = (cell.root, session.lookUp cell.root) := by
  rw [resolved_mark, resolve] at member
  split at member
  · exact Or.inl member
  · exact (List.mem_append.mp member).imp_right List.mem_singleton.mp

theorem mem_resolved_marks {cells : List LazyCell} {entry : Reference × Schema}
    (member : entry ∈ (cells.foldl mark session).resolved) :
    entry ∈ session.resolved ∨
      ∃ cell ∈ cells, entry = (cell.root, session.lookUp cell.root) := by
  induction cells generalizing session with
  | nil => exact Or.inl member
  | cons cell rest ih =>
      rcases ih member with before | ⟨later, inRest, same⟩
      · refine (mem_resolved_mark before).imp_right fun here => ?_
        exact ⟨cell, List.mem_cons_self, here⟩
      · refine Or.inr ⟨later, List.mem_cons_of_mem _ inRest, ?_⟩
        rw [same, lookUp, lookUp, registries_mark]

/-- The second session comes from the first by runs, and nothing is registered in between. -/
inductive ComesTo (session : Session) : Session → Prop where
  | here : ComesTo session session
  | run {later : Session} (before : ComesTo session later) (settings : Run.Settings)
      (schema : Schema) (input : Value) : ComesTo session (later.parse settings schema input).2

theorem ComesTo.targets_eq {later : Session} (comes : session.ComesTo later) :
    later.targets = session.targets := by
  induction comes with
  | here => rfl
  | run _ settings schema input ih => exact (targets_parse settings schema input).trans ih

/-- Nothing is registered in the scope, and no reference into it was used. -/
structure Unused (session : Session) (scope : Nat) : Prop where
  registry : session.registry scope = .empty
  resolved : ∀ entry ∈ session.resolved, entry.1.scope ≠ scope

/-- The first use of a reference looks its name up. -/
theorem Unused.targets_setRegistry {scope : Nat} (unused : session.Unused scope)
    (registry : Registry) (node : NodeId) (name : String) :
    (session.setRegistry scope registry).targets ⟨node, scope, name⟩ =
      (registry.get? name).getD .never := by
  have notFound : Table.find? ⟨node, scope, name⟩ session.resolved = none := by
    rw [Table.find?_eq_none_iff]
    intro used
    obtain ⟨entry, member, same⟩ := List.mem_map.mp used
    exact unused.resolved entry member (congrArg Reference.scope same)
  change (Table.find? _ session.resolved).getD (((Table.find? scope
    (Table.insert scope registry session.registries)).bind (·.get? name)).getD .never) = _
  rw [notFound, Table.find?_insert, if_pos rfl]
  rfl

end SchemaCodec.Session
