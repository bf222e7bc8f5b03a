import Mathlib.Data.List.Forall2
import SchemaCodec.Proofs.Schema.Tree

/-!
Runs in two monads side by side. The walkers of a level do not know the monad they run in, so that a
relation between computations which holds of equal results, and passes along binds, holds of whole
levels as soon as it holds of the runs below them.
-/

namespace SchemaCodec.Run

theorem mem_slots {elements : List (Element Schema)} {rest : List Schema} {count : Nat}
    {schema : Schema} (member : schema ∈ slots elements rest count) :
    schema ∈ (Kind.tuple elements rest).children := by
  cases rest with
  | nil => exact List.mem_append_left _ member
  | cons repeated trailing =>
      rcases List.mem_append.mp member with front | last
      · rcases List.mem_append.mp front with leading | middle
        · exact List.mem_append_left _ leading
        · rw [List.eq_of_mem_replicate middle]
          exact List.mem_append_right _ List.mem_cons_self
      · exact List.mem_append_right _ (List.mem_cons_of_mem _ last)

/-- A relation between computations in two monads that holds of equal results and passes along binds. -/
structure Alongside (m n : Type → Type) [Monad m] [Monad n] where
  rel : {α : Type} → m α → n α → Prop
  pure : ∀ {α : Type} (value : α), rel (pure value) (pure value)
  bind : ∀ {α β : Type} {first : m α} {second : n α} {next : α → m β} {nextToo : α → n β},
    rel first second → (∀ value, rel (next value) (nextToo value)) →
      rel (first >>= next) (second >>= nextToo)

def Alongside.same (m : Type → Type) [Monad m] : Alongside m m where
  rel first second := first = second
  pure _ := rfl
  bind := by
    rintro _ _ first _ next nextToo rfl same
    rw [funext same]

namespace Alongside

variable {m n : Type → Type} [Monad m] [Monad n] (along : Alongside m n)

def On (run : Schema → Value → m Outcome) (runToo : Schema → Value → n Outcome) (schema : Schema) :
    Prop :=
  ∀ input, along.rel (run schema input) (runToo schema input)

variable {run : Schema → Value → m Outcome} {runToo : Schema → Value → n Outcome}

/-! ### Collecting -/

private theorem rel_results {α : Type} (mode : FaultMode) {steps : List (m (Except Fault α))}
    {stepsToo : List (n (Except Fault α))} (each : List.Forall₂ along.rel steps stepsToo) :
    along.rel (results mode steps) (results mode stepsToo) := by
  induction each with
  | nil => exact along.pure _
  | cons head _ later =>
      refine along.bind head fun result => ?_
      cases result with
      | error fault =>
          cases mode with
          | first => exact along.pure _
          | all => exact along.bind later fun _ => along.pure _
      | ok value => exact along.bind later fun _ => along.pure _

private theorem rel_collect {α : Type} (mode : FaultMode) {steps : List (m (Except Fault α))}
    {stepsToo : List (n (Except Fault α))} (each : List.Forall₂ along.rel steps stepsToo) :
    along.rel (collect mode steps) (collect mode stepsToo) :=
  along.bind (along.rel_results mode each) fun _ => along.pure _

/-- A step that goes by the outcome of one run. -/
theorem rel_of_outcome {α : Type} {schema : Schema} (on : along.On run runToo schema) (input : Value)
    {next : Outcome → m α} {nextToo : Outcome → n α}
    (ok : ∀ value, along.rel (next (.ok value)) (nextToo (.ok value)))
    (error : ∀ faults, along.rel (next (.error faults)) (nextToo (.error faults))) :
    along.rel (run schema input >>= next) (runToo schema input >>= nextToo) := by
  refine along.bind (on input) fun outcome => ?_
  cases outcome with
  | ok value => exact ok value
  | error faults => exact error faults

/-! ### Tuples -/

private theorem rel_excessItems (first : Nat) (items : List Value) :
    List.Forall₂ along.rel (excessItems first items) (excessItems first items) := by
  induction items generalizing first with
  | nil => exact .nil
  | cons item rest ih => exact .cons (along.pure _) (ih (first + 1))

private theorem rel_itemSteps {schemas : List Schema}
    (on : ∀ schema ∈ schemas, along.On run runToo schema)
    (first : Nat) (items : List Value) :
    List.Forall₂ along.rel (itemSteps run first schemas items)
      (itemSteps runToo first schemas items) := by
  induction schemas generalizing first items with
  | nil => exact .nil
  | cons schema rest ih =>
      cases items with
      | nil => exact .nil
      | cons item items =>
          refine .cons ?_ (ih (fun other inRest => on other (List.mem_cons_of_mem _ inRest)) _ items)
          exact along.rel_of_outcome (on schema List.mem_cons_self) item (fun _ => along.pure _)
            fun _ => along.pure _

theorem rel_tuple {elements : List (Element Schema)} {rest : List Schema}
    (on : ∀ child ∈ (Kind.tuple elements rest).children, along.On run runToo child)
    (mode : FaultMode) (items : List Value) :
    along.rel (tuple run mode elements rest items) (tuple runToo mode elements rest items) := by
  refine along.bind (along.rel_collect mode ?_) fun _ => along.pure _
  refine List.rel_append (List.rel_append ?_ ?_) ?_
  · exact List.forall₂_map_left_iff.mpr (List.forall₂_map_right_iff.mpr
      (List.forall₂_same.mpr fun _ _ => along.pure _))
  · split
    · exact along.rel_excessItems _ _
    · exact .nil
  · exact along.rel_itemSteps (fun schema inSlots => on schema (mem_slots inSlots)) 0 items

/-! ### Structs -/

section Structs

variable {decodeKey : Schema → Value → m Outcome} {decodeKeyToo : Schema → Value → n Outcome}
  {fields : List (Field Schema)} {indexes : List (IndexSignature Schema)}

theorem rel_takesKey
    (keys : ∀ index ∈ indexes, along.On decodeKey decodeKeyToo index.parameter) (key : PropertyKey) :
    along.rel (takesKey decodeKey key indexes) (takesKey decodeKeyToo key indexes) := by
  induction indexes with
  | nil => exact along.pure _
  | cons index rest ih =>
      have later := ih fun other inRest => keys other (List.mem_cons_of_mem _ inRest)
      rw [takesKey, takesKey]
      split
      · exact along.rel_of_outcome (keys index List.mem_cons_self) _ (fun _ => along.pure _)
          fun _ => later
      · exact later

private theorem rel_excessStep
    (keys : ∀ index ∈ indexes, along.On decodeKey decodeKeyToo index.parameter)
    (member : PropertyKey × Value) :
    along.rel (excessStep decodeKey fields indexes member)
      (excessStep decodeKeyToo fields indexes member) := by
  unfold excessStep
  split
  · exact along.pure _
  · refine along.bind (along.rel_takesKey keys _) fun taken => ?_
    cases taken with
    | true => exact along.pure _
    | false => exact along.pure _

private theorem rel_fieldSteps (on : ∀ field ∈ fields, along.On run runToo field.schema)
    (exact : Bool)
    (members : Members) :
    List.Forall₂ along.rel (fields.filterMap (fieldStep? run exact members))
      (fields.filterMap (fieldStep? runToo exact members)) := by
  induction fields with
  | nil => exact .nil
  | cons field rest ih =>
      have later := ih fun other inRest => on other (List.mem_cons_of_mem _ inRest)
      have here := on field List.mem_cons_self
      simp only [List.filterMap_cons, fieldStep?]
      cases Table.find? field.name members with
      | some value =>
          refine .cons (along.rel_of_outcome here value (fun _ => ?_) fun _ => ?_) later
          · exact along.pure _
          · exact along.pure _
      | none =>
          cases field.optional with
          | true => exact later
          | false =>
              cases exact with
              | true => exact .cons (along.pure _) later
              | false =>
                  refine .cons (along.rel_of_outcome here .undefined (fun _ => ?_) fun _ => ?_) later
                  · exact along.pure _
                  · exact along.pure _

private theorem rel_indexStep {index : IndexSignature Schema}
    (ofKey : along.On run runToo index.parameter)
    (ofValue : along.On run runToo index.schema) (member : PropertyKey × Value) :
    along.rel (indexStep run index member) (indexStep runToo index member) := by
  refine along.rel_of_outcome ofKey _ (fun _ => ?_) fun _ => along.pure _
  exact along.rel_of_outcome ofValue _ (fun _ => along.pure _) fun _ => along.pure _

private theorem rel_indexSteps (on : ∀ index ∈ indexes,
      along.On run runToo index.parameter ∧ along.On run runToo index.schema)
    (among : IndexSignature Schema → Members) :
    List.Forall₂ along.rel (indexes.flatMap fun index => (among index).map (indexStep run index))
      (indexes.flatMap fun index => (among index).map (indexStep runToo index)) := by
  induction indexes with
  | nil => exact .nil
  | cons index rest ih =>
      obtain ⟨ofKey, ofValue⟩ := on index List.mem_cons_self
      refine List.rel_append ?_ (ih fun other inRest => on other (List.mem_cons_of_mem _ inRest))
      exact List.forall₂_map_left_iff.mpr (List.forall₂_map_right_iff.mpr
        (List.forall₂_same.mpr fun member _ => along.rel_indexStep ofKey ofValue member))

theorem rel_struct (on : ∀ child ∈ (Kind.struct fields indexes).children, along.On run runToo child)
    (keys : ∀ index ∈ indexes, along.On decodeKey decodeKeyToo index.parameter) (options : Options)
    (members : Members) :
    along.rel (struct run decodeKey options fields indexes members)
      (struct runToo decodeKeyToo options fields indexes members) := by
  refine along.bind (along.rel_collect options.faults ?_) fun _ => along.pure _
  refine List.rel_append (List.rel_append ?_ ?_) ?_
  · split
    · exact List.forall₂_map_left_iff.mpr (List.forall₂_map_right_iff.mpr
        (List.forall₂_same.mpr fun member _ => along.rel_excessStep keys member))
    · exact .nil
  · exact along.rel_fieldSteps (fun _ inFields => on _ (Schema.field_mem_struct inFields)) _ _
  · exact along.rel_indexSteps (fun _ inIndexes => ⟨on _ (Schema.index_mem_struct inIndexes).1,
      on _ (Schema.index_mem_struct inIndexes).2⟩) _

end Structs

/-! ### Unions, transformations, hooks -/

private theorem rel_firstOf {schemas : List Schema}
    (on : ∀ schema ∈ schemas, along.On run runToo schema)
    (input : Value) (faults : List Fault) :
    along.rel (firstOf run input faults schemas) (firstOf runToo input faults schemas) := by
  induction schemas generalizing faults with
  | nil => exact along.pure _
  | cons schema rest ih =>
      refine along.rel_of_outcome (on schema List.mem_cons_self) input (fun _ => along.pure _)
        fun _ => ?_
      exact ih (fun other inRest => on other (List.mem_cons_of_mem _ inRest)) _

theorem rel_union {members : List Schema} (on : ∀ member ∈ members, along.On run runToo member)
    (direction : Direction) (input : Value) :
    along.rel (union run direction members input) (union runToo direction members input) := by
  refine along.rel_firstOf (fun schema inOrder => ?_) input _
  obtain ⟨position, _, atPosition⟩ := List.mem_filterMap.mp inOrder
  exact on schema (List.mem_of_getElem? atPosition)

theorem rel_transform {near far : Schema} (onNear : along.On run runToo near)
    (onFar : along.On run runToo far) (settings : Settings) (expected : Expected)
    (function : Transformer) (strict : Bool) (input : Value) :
    along.rel (transform run settings expected near far function strict input)
      (transform runToo settings expected near far function strict input) := by
  refine along.rel_of_outcome onNear input (fun value => ?_) fun _ => along.pure _
  dsimp only
  cases transformer settings function expected value with
  | error faults => exact along.pure _
  | ok result =>
      cases strict with
      | true => exact onFar result
      | false => exact along.pure _

theorem rel_hook {parameters : List Schema}
    (on : ∀ parameter ∈ parameters, along.On run runToo parameter)
    (never : along.On run runToo Schema.never) (first : HookStep)
    (asked : ∀ schema, first.Asks schema → along.On run runToo schema) :
    along.rel (hook run parameters first) (hook runToo parameters first) := by
  induction first with
  | done outcome => exact along.pure _
  | parse parameter input resume ih =>
      refine along.bind ?_ fun outcome => ih outcome fun schema asks => asked schema ⟨outcome, asks⟩
      cases known : parameters[parameter]? with
      | none => exact never input
      | some schema => exact on schema (List.mem_of_getElem? known) input
  | parseBy schema input resume ih =>
      refine along.bind (asked schema (Or.inl rfl) input) fun outcome => ?_
      exact ih outcome fun other asks => asked other (Or.inr ⟨outcome, asks⟩)

end Alongside

end SchemaCodec.Run
