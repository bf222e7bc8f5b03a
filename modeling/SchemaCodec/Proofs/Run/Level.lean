import SchemaCodec.Proofs.Run.Alongside
import SchemaCodec.Proofs.Schema.SideView

/-!
The runs that one level makes. A level depends on nothing else of the runs below it, and what holds
throughout a schema, and passes to the output side, holds throughout every schema that is run.
-/

namespace SchemaCodec.Run

/-- The settings and the schemas that a level runs. -/
inductive Runs (targets : Targets) (settings : Settings) (schema : Schema) :
    Settings → Schema → Prop where
  | child {child : Schema} (below : child ∈ schema.kind.children) :
      Runs targets settings schema settings child
  | key {fields : List (Field Schema)} {indexes : List (IndexSignature Schema)}
      {index : IndexSignature Schema} (isStruct : schema.kind = .struct fields indexes)
      (inIndexes : index ∈ indexes) : Runs targets settings schema settings.decoding index.parameter
  | member {members : List Schema} {member : Schema} (isUnion : schema.kind = .union members)
      (inMembers : member ∈ members) : Runs targets settings schema settings.failingFast member
  | target {cell : LazyCell} (isLazy : schema.kind = .lazy cell) :
      Runs targets settings schema settings (cell.resolve targets)
  | outputSide {source : Schema} {filter : Filter}
      (isRefinement : schema.kind = .refinement source filter) :
      Runs targets settings schema settings.decoding schema.outputSide
  | withoutRefinements {source : Schema} {filter : Filter}
      (isRefinement : schema.kind = .refinement source filter) :
      Runs targets settings schema settings source.withoutRefinements
  | parameter {parameters : List Schema} {decode encode : Hook} {parameter : Schema}
      (isDeclaration : schema.kind = .declaration parameters decode encode)
      (inParameters : parameter ∈ parameters) :
      Runs targets settings schema settings.withoutWaiting parameter
  | asked {other : Schema} (asks : schema.kind.Asks other) :
      Runs targets settings schema settings.withoutWaiting other
  | never : Runs targets settings schema settings.withoutWaiting Schema.never

/-- What holds throughout a schema holds throughout what a level of it runs. -/
theorem Runs.throughout {targets : Targets} {holds : Kind Schema → Prop}
    (projects : Kind.Projects .output holds holds) (atNever : holds (.keyword .never))
    {settings others : Settings} {schema part : Schema}
    (runs : Runs targets settings schema others part)
    (throughout : schema.Throughout targets (holds ·.kind)) :
    part.Throughout targets (holds ·.kind) := by
  cases runs with
  | child below => exact throughout.child below
  | key isStruct inIndexes => exact throughout.child (Schema.index_mem_children isStruct inIndexes).1
  | member isUnion inMembers => exact throughout.child (Schema.member_mem_children isUnion inMembers)
  | target isLazy => exact throughout.enter isLazy
  | outputSide _ => exact throughout.sideOf projects
  | withoutRefinements isRefinement =>
      exact (throughout.child (Schema.refined_mem_children isRefinement)).withoutRefinements
  | parameter isDeclaration inParameters =>
      apply throughout.child
      rw [isDeclaration]
      exact inParameters
  | asked asks => exact throughout.asked asks
  | never => exact .of_keyword rfl atNever

/-! ### Levels side by side -/

/-- A level goes alongside another one, if the runs below it do, and if the two go on alongside when
they enter a lazy node. -/
theorem Alongside.rel_step {m n : Type → Type} [Monad m] [Monad n] (along : Alongside m n)
    (targets : Targets) {enter : LazyCell → m Schema} {enterToo : LazyCell → n Schema}
    {run : Settings → Schema → Value → m Outcome} {runToo : Settings → Schema → Value → n Outcome}
    {settings : Settings} {schema : Schema}
    (below : ∀ others part, Runs targets settings schema others part →
      along.On (run others) (runToo others) part)
    (behind : ∀ cell, schema.kind = .lazy cell → ∀ input,
      along.rel (enter cell >>= fun target => run settings target input)
        (enterToo cell >>= fun target => runToo settings target input)) (input : Value) :
    along.rel (step enter run settings schema input) (step enterToo runToo settings schema input) := by
  have children : ∀ child ∈ schema.kind.children, along.On (run settings) (runToo settings) child :=
    fun child inKind => below settings child (.child inKind)
  unfold step
  cases kindAt : schema.kind with
  | tuple elements rest =>
      rw [kindAt] at children
      cases input with
      | array items => exact along.rel_tuple children _ items
      | _ => exact along.pure _
  | struct fields indexes =>
      rw [kindAt] at children
      dsimp only
      split
      · exact along.pure _
      · cases input with
        | object members =>
            exact along.rel_struct children (fun _ inIndexes => below _ _ (.key kindAt inIndexes)) _
              members
        | _ => exact along.pure _
  | union members =>
      exact along.rel_union (fun _ inMembers => below _ _ (.member kindAt inMembers)) _ input
  | lazy cell => exact behind cell kindAt input
  | refinement source filter =>
      have onSource := children source (Schema.refined_mem_children kindAt)
      dsimp only
      split
      · refine along.rel_of_outcome onSource input (fun value => ?_) fun _ => along.pure _
        dsimp only
        split
        · exact along.pure _
        · exact along.pure _
      · refine along.rel_of_outcome (below _ _ (.outputSide kindAt)) input (fun value => ?_)
          fun _ => along.pure _
        exact below _ _ (.withoutRefinements kindAt) value
  | transform source target decode encode strict =>
      have onSource := children source (Schema.source_mem_children kindAt)
      have onTarget := children target (Schema.target_mem_children kindAt)
      dsimp only
      split
      · exact along.rel_transform onSource onTarget _ _ _ _ input
      · exact along.rel_transform onTarget onSource _ _ _ _ input
  | declaration parameters decode encode =>
      refine along.rel_hook (fun _ inParameters => below _ _ (.parameter kindAt inParameters))
        (below _ _ .never) _ fun other asks => below _ _ (.asked ?_)
      rw [kindAt]
      exact Kind.asks_of_chosen asks
  | _ => exact along.pure _

/-- A level depends only on the runs that it makes. -/
theorem step_congr {targets : Targets} {run other : Settings → Schema → Value → Option Outcome}
    {settings : Settings} {schema : Schema}
    (same : ∀ others part, Runs targets settings schema others part →
      run others part = other others part) (input : Value) :
    step (fun cell => some (cell.resolve targets)) run settings schema input =
      step (fun cell => some (cell.resolve targets)) other settings schema input :=
  (Alongside.same Option).rel_step targets (fun others part runs => congrFun (same others part runs))
    (fun _ isLazy => congrFun (same settings _ (.target isLazy))) input

end SchemaCodec.Run
