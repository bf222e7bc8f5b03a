import SchemaCodec.Proofs.Run.Awaiting
import SchemaCodec.Proofs.Run.Ending
import SchemaCodec.Proofs.Run.Endless
import SchemaCodec.Proofs.Run.Level
import SchemaCodec.Proofs.Run.Rejection
import SchemaCodec.Proofs.Run.Upheld

/-!
Options only tighten. Where a schema looks at nothing but the shape of values, a run that rejects
members it does not expect, or that takes absent members for missing, succeeds on nothing that the
run without these options rejects; and whether members are preserved decides about nothing at all.
Without unions the values are the same as well; a union may come to an earlier member under the
looser options.
-/

namespace SchemaCodec

/-- The node looks at the shape of values alone; what tells keys may also check the key itself. -/
def Kind.ReadsShape : Kind Schema → Prop
  | .struct _ indexes => ∀ index ∈ indexes, index.parameter.isParameter = true
  | .refinement source filter => source.isParameter = true ∧ filter.ReadsValue
  | .transform _ _ _ _ _ => False
  | .declaration _ _ _ => False
  | _ => True

namespace Run

open Schema

def Settings.withExcess (settings : Settings) (excess : ExcessPolicy) : Settings :=
  { settings with options := { settings.options with excess := excess } }

def Settings.withExact (settings : Settings) (exact : Bool) : Settings :=
  { settings with options := { settings.options with exact := exact } }

structure Settings.Tighter (strict loose : Settings) : Prop where
  direction : strict.direction = loose.direction
  options : Options.Tighter strict.options loose.options

namespace Settings.Tighter

variable {strict loose : Settings}

theorem decoding (tighter : Tighter strict loose) : Tighter strict.decoding loose.decoding :=
  ⟨rfl, tighter.options⟩

theorem failingFast (tighter : Tighter strict loose) :
    Tighter strict.failingFast loose.failingFast :=
  ⟨tighter.direction, tighter.options.excess, tighter.options.exact⟩

end Settings.Tighter

/-! ### Runs abreast -/

inductive Abreast {ε η α β : Type} (relates : α → β → Prop) :
    Option (Except ε α) → Option (Except η β) → Prop where
  | exhausted : Abreast relates none none
  | value {value : α} {other : β} (related : relates value other) :
      Abreast relates (some (.ok value)) (some (.ok other))
  | fault (fault : ε) (other : η) : Abreast relates (some (.error fault)) (some (.error other))

abbrev SameVerdict {ε η α β : Type} : Option (Except ε α) → Option (Except η β) → Prop :=
  Abreast fun _ _ => True

namespace Abreast

variable {ε η ζ ξ α β γ δ : Type} {relates : α → β → Prop} {relatesToo : γ → δ → Prop}

theorem bind {first : Option (Except ε α)} {second : Option (Except η β)}
    {next : Except ε α → Option (Except ζ γ)} {nextToo : Except η β → Option (Except ξ δ)}
    (abreast : Abreast relates first second)
    (values : ∀ value other, relates value other →
      Abreast relatesToo (next (.ok value)) (nextToo (.ok other)))
    (faults : ∀ fault other, Abreast relatesToo (next (.error fault)) (nextToo (.error other))) :
    Abreast relatesToo (first >>= next) (second >>= nextToo) := by
  cases abreast with
  | exhausted => exact .exhausted
  | value related => exact values _ _ related
  | fault fault other => exact faults fault other

theorem verdict {first : Option (Except ε α)} {second : Option (Except η β)}
    (abreast : Abreast relates first second) : SameVerdict first second := by
  cases abreast with
  | exhausted => exact .exhausted
  | value _ => exact .value trivial
  | fault fault other => exact .fault fault other

theorem refl (result : Option (Except ε α)) : Abreast Eq result result := by
  rcases result with _ | fault | value
  · exact .exhausted
  · exact .fault fault fault
  · exact .value rfl

theorem swap {first : Option (Except ε α)} {second : Option (Except η β)}
    (abreast : Abreast relates first second) : SameVerdict second first := by
  cases abreast with
  | exhausted => exact .exhausted
  | value _ => exact .value trivial
  | fault fault other => exact .fault other fault

private theorem exists_ok {first : Option (Except ε α)} {second : Option (Except η β)}
    (abreast : Abreast relates first second) {value : α} (found : first = some (.ok value)) :
    ∃ other, second = some (.ok other) ∧ relates value other := by
  cases abreast <;> cases found
  exact ⟨_, rfl, ‹_›⟩

end Abreast

section Walkers

variable {run other : Schema → Value → Option Outcome}

private def faultless {α : Type} (all : List (Except Fault α)) : Bool :=
  (faultsOf all).isEmpty

private theorem results_verdict {α : Type} {mode : FaultMode}
    {steps others : List (Option (Except Fault α))}
    (abreast : List.Forall₂ SameVerdict steps others) :
    (results mode steps).map faultless = (results mode others).map faultless := by
  induction abreast with
  | nil => rfl
  | @cons _ _ steps others head _ ih =>
      cases head with
      | exhausted => rfl
      | value _ =>
          simp only [results, bind, Option.bind_some, pure]
          cases first : results mode steps <;> cases second : results mode others <;>
            rw [first, second] at ih
          · rfl
          · cases ih
          · cases ih
          · exact ih
      | fault _ _ =>
          cases mode with
          | first => rfl
          | all =>
              simp only [results, bind, Option.bind_some, pure]
              cases first : results .all steps <;> cases second : results .all others <;>
                rw [first, second] at ih
              · rfl
              · cases ih
              · cases ih
              · rfl

private theorem collect_verdict {α β : Type} {mode : FaultMode}
    {steps others : List (Option (Except Fault α))}
    (abreast : List.Forall₂ SameVerdict steps others) (function otherFunction : List α → β) :
    SameVerdict (do return (← collect mode steps).map function)
      (do return (← collect mode others).map otherFunction) := by
  have same : (results mode steps).map faultless = (results mode others).map faultless :=
    results_verdict abreast
  unfold collect
  simp only [bind, pure]
  cases first : results mode steps <;> cases second : results mode others <;>
    rw [first, second] at same
  · exact .exhausted
  · cases same
  · cases same
  · rename_i all allToo
    have alike : faultless all = faultless allToo := Option.some.inj same
    unfold faultless at alike
    simp only [Option.bind_some, settle]
    cases firstFaults : faultsOf all <;> cases secondFaults : faultsOf allToo <;>
      rw [firstFaults, secondFaults] at alike
    · exact .value trivial
    · cases alike
    · cases alike
    · exact .fault _ _

private theorem itemSteps_verdict {schemas : List Schema}
    (each : ∀ schema ∈ schemas, ∀ input, SameVerdict (run schema input) (other schema input))
    (first : Nat) (items : List Value) :
    List.Forall₂ SameVerdict (itemSteps run first schemas items)
      (itemSteps other first schemas items) := by
  induction schemas generalizing first items with
  | nil => exact .nil
  | cons schema rest ih =>
      cases items with
      | nil => exact .nil
      | cons item items =>
          have later := ih fun child inRest => each child (List.mem_cons_of_mem _ inRest)
          refine .cons ?_ (later _ items)
          exact (each schema List.mem_cons_self item).bind (fun _ _ _ => .value trivial)
            fun _ _ => .fault _ _

private theorem tuple_verdict {elements : List (Element Schema)} {rest : List Schema}
    (each : ∀ child ∈ (Kind.tuple elements rest).children, ∀ input,
      SameVerdict (run child input) (other child input)) (mode : FaultMode) (items : List Value) :
    SameVerdict (tuple run mode elements rest items) (tuple other mode elements rest items) := by
  apply collect_verdict
  refine List.rel_append ?_ (itemSteps_verdict (fun child inSlots => ?_) 0 items)
  · exact List.forall₂_same.mpr fun step _ => (Abreast.refl step).verdict
  · exact each child (mem_slots inSlots)

private theorem fieldSteps_verdict {fields : List (Field Schema)}
    (each : ∀ field ∈ fields, ∀ input,
      SameVerdict (run field.schema input) (other field.schema input))
    (exact : Bool) (members : Members) :
    List.Forall₂ SameVerdict (fields.filterMap (fieldStep? run exact members))
      (fields.filterMap (fieldStep? other exact members)) := by
  induction fields with
  | nil => exact .nil
  | cons field rest ih =>
      have later := ih fun next inRest => each next (List.mem_cons_of_mem _ inRest)
      have here := each field List.mem_cons_self
      simp only [List.filterMap_cons, fieldStep?]
      cases Table.find? field.name members with
      | some value =>
          refine .cons ?_ later
          exact (here value).bind (fun _ _ _ => .value trivial) fun _ _ => .fault _ _
      | none =>
          by_cases optional : field.optional = true
          · simpa only [if_pos optional] using later
          · simp only [if_neg optional]
            by_cases needed : exact = true
            · simp only [if_pos needed]
              exact .cons (.fault _ _) later
            · simp only [if_neg needed]
              refine .cons ?_ later
              exact (here .undefined).bind (fun _ _ _ => .value trivial) fun _ _ => .fault _ _

private theorem indexSteps_verdict {indexes : List (IndexSignature Schema)}
    (each : ∀ index ∈ indexes, ∀ input,
      SameVerdict (run index.parameter input) (other index.parameter input) ∧
        SameVerdict (run index.schema input) (other index.schema input))
    (among : IndexSignature Schema → Members) :
    List.Forall₂ SameVerdict
      (indexes.flatMap fun index => (among index).map (indexStep run index))
      (indexes.flatMap fun index => (among index).map (indexStep other index)) := by
  induction indexes with
  | nil => exact .nil
  | cons index rest ih =>
      have later := ih fun next inRest => each next (List.mem_cons_of_mem _ inRest)
      have here := each index List.mem_cons_self
      rw [List.flatMap_cons, List.flatMap_cons]
      refine List.rel_append ?_ later
      rw [List.forall₂_map_left_iff, List.forall₂_map_right_iff, List.forall₂_same]
      intro member _
      refine (here member.1.toValue).1.bind (fun _ _ _ => ?_) fun _ _ => .fault _ _
      exact (here member.2).2.bind (fun _ _ _ => .value trivial) fun _ _ => .fault _ _

private theorem struct_verdict {decodeKey otherKey : Schema → Value → Option Outcome}
    {options others : Options} {fields : List (Field Schema)} {indexes : List (IndexSignature Schema)}
    (each : ∀ child ∈ (Kind.struct fields indexes).children, ∀ input,
      SameVerdict (run child input) (other child input))
    (accepts : options.excess ≠ .error) (acceptsToo : others.excess ≠ .error)
    (faults : options.faults = others.faults) (exact : options.exact = others.exact)
    (members : Members) :
    SameVerdict (struct run decodeKey options fields indexes members)
      (struct other otherKey others fields indexes members) := by
  unfold struct
  rw [if_neg accepts, if_neg acceptsToo, faults, exact]
  apply collect_verdict
  refine List.rel_append (List.rel_append .nil ?_) ?_
  · exact fieldSteps_verdict (fun field inFields => each _ (Schema.field_mem_struct inFields)) _ _
  · exact indexSteps_verdict (fun index inIndexes input =>
      ⟨each _ (Schema.index_mem_struct inIndexes).1 input,
        each _ (Schema.index_mem_struct inIndexes).2 input⟩) _

private theorem firstOf_verdict {schemas : List Schema} {input : Value}
    (each : ∀ schema ∈ schemas, SameVerdict (run schema input) (other schema input))
    (faults otherFaults : List Fault) :
    SameVerdict (firstOf run input faults schemas) (firstOf other input otherFaults schemas) := by
  induction schemas generalizing faults otherFaults with
  | nil =>
      have fails : ∀ list : List Fault, ∃ failure : Faults,
          firstOf run input list [] = some (.error failure) ∧
            firstOf other input list [] = some (.error failure) := by
        intro list
        unfold firstOf
        cases Faults.ofList? list.reverse with
        | none => exact ⟨_, rfl, rfl⟩
        | some failure => exact ⟨failure, rfl, rfl⟩
      obtain ⟨failure, failed, _⟩ := fails faults
      obtain ⟨otherFailure, _, otherFailed⟩ := fails otherFaults
      rw [failed, otherFailed]
      exact .fault failure otherFailure
  | cons schema rest ih =>
      have later := ih fun child inRest => each child (List.mem_cons_of_mem _ inRest)
      refine (each schema List.mem_cons_self).bind (fun _ _ _ => .value trivial) fun _ _ => ?_
      exact later _ _

private theorem union_verdict {members : List Schema} {input : Value}
    (each : ∀ member ∈ members, SameVerdict (run member input) (other member input))
    (direction : Direction) :
    SameVerdict (union run direction members input) (union other direction members input) := by
  apply firstOf_verdict
  intro schema inOrder
  obtain ⟨position, _, atPosition⟩ := List.mem_filterMap.mp inOrder
  exact each schema (List.mem_of_getElem? atPosition)

end Walkers

/-! ### What tells keys -/

variable {targets : Targets} {schema : Schema}

private theorem isParameter_withoutRefinements (parameter : schema.isParameter = true) :
    schema.withoutRefinements.isParameter = true := by
  have parameters : schema.Throughout (fun _ => schema) fun node => node.isParameter = true :=
    throughout_of_isParameter (fun _ => id) parameter
  exact parameters.withoutRefinements.here

/-- A check is only made of what may tell keys. -/
private theorem isParameter_of_check (reads : schema.kind.ReadsShape)
    (check : ¬schema.kind.IsShape) :
    schema.isParameter = true := by
  obtain ⟨id, annotations, kind⟩ := schema
  cases kind with
  | refinement source filter => exact reads.1
  | transform _ _ _ _ _ => exact reads.elim
  | declaration _ _ _ => exact reads.elim
  | _ => exact absurd trivial check

/-- What tells keys does not look at the options. -/
private theorem parameter_abreast (parameter : schema.isParameter = true)
    (reads : schema.Throughout targets (·.kind.ReadsShape)) (depth : Nat)
    {settings others : Settings} (direction : settings.direction = others.direction)
    (input : Value) :
    Abreast Eq (parse targets depth settings schema input)
      (parse targets depth others schema input) := by
  induction depth generalizing schema settings others input with
  | zero => exact .exhausted
  | succ depth ih =>
      have viewed : schema.outputSide = schema := sideOf_output_of_isParameter parameter
      rw [parse_succ, parse_succ]
      cases kindAt : schema.kind with
      | refinement source filter =>
          have below := refined_mem_children kindAt
          have here := reads.here
          rw [kindAt] at here
          obtain ⟨sourceParameter, readsValue⟩ := here
          obtain ⟨execution, options, way⟩ := settings
          obtain ⟨otherExecution, otherOptions, _⟩ := others
          cases direction
          unfold step
          rw [kindAt]
          -- A parameter is its own output side, so encoding decodes by the same schema first.
          cases way with
          | decode =>
              have atSource : Abreast Eq
                  (parse targets depth ⟨execution, options, .decode⟩ source input)
                  (parse targets depth ⟨otherExecution, otherOptions, .decode⟩ source input) :=
                ih sourceParameter (reads.child below) (by rfl) input
              refine atSource.bind (fun value other same => ?_) fun _ _ => .fault _ _
              cases same
              simp only
              cases passes : filter options schema.expected value with
              | none =>
                  rw [readsValue _ otherOptions _ schema.expected _ passes]
                  exact .value rfl
              | some fault =>
                  cases passesToo : filter otherOptions schema.expected value with
                  | none =>
                      rw [readsValue _ options _ schema.expected _ passesToo] at passes
                      cases passes
                  | some otherFault => exact .fault _ _
          | encode =>
              have decoded : Abreast Eq
                  (parse targets depth ⟨execution, options, .decode⟩ schema.outputSide input)
                  (parse targets depth ⟨otherExecution, otherOptions, .decode⟩ schema.outputSide
                    input) := by
                rw [viewed]
                exact ih parameter reads (by rfl) input
              refine decoded.bind (fun value other same => ?_) fun _ _ => .fault _ _
              cases same
              exact ih (isParameter_withoutRefinements sourceParameter)
                (reads.child below).withoutRefinements (by rfl) value
      | keyword _ =>
          unfold step
          rw [kindAt]
          exact .refl _
      | template _ =>
          unfold step
          rw [kindAt]
          exact .refl _
      | _ =>
          obtain ⟨id, annotations, kind⟩ := schema
          cases kindAt
          cases parameter

/-! ### Verdicts -/

/-- Whether excess members are ignored or preserved decides about no verdict. -/
private theorem parse_verdict (reads : schema.Throughout targets (·.kind.ReadsShape)) (depth : Nat)
    (settings : Settings) {excess other : ExcessPolicy} (accepts : excess ≠ .error)
    (acceptsToo : other ≠ .error) (input : Value) :
    SameVerdict (parse targets depth (settings.withExcess excess) schema input)
      (parse targets depth (settings.withExcess other) schema input) := by
  induction depth generalizing schema settings input with
  | zero => exact .exhausted
  | succ depth ih =>
      have children : ∀ settings : Settings, ∀ child ∈ schema.kind.children, ∀ input,
          SameVerdict (parse targets depth (settings.withExcess excess) child input)
            (parse targets depth (settings.withExcess other) child input) :=
        fun settings child below input => ih (reads.child below) settings input
      have here := reads.here
      cases kindAt : schema.kind with
      | refinement source filter =>
          have parameter := isParameter_of_check here (by rw [kindAt]; exact id)
          exact (parameter_abreast parameter reads (depth + 1) (by rfl) input).verdict
      | tuple elements rest =>
          rw [kindAt] at children
          rw [parse_succ, parse_succ]
          unfold step
          rw [kindAt]
          cases input with
          | array items => exact tuple_verdict (children settings) _ items
          | _ => exact (Abreast.refl _).verdict
      | struct fields indexes =>
          rw [kindAt] at children
          rw [parse_succ, parse_succ]
          unfold step
          rw [kindAt]
          by_cases bare : (fields.isEmpty && indexes.isEmpty) = true
          · simp only [if_pos bare]
            exact (Abreast.refl _).verdict
          · simp only [if_neg bare]
            cases input with
            | object members =>
                have ignores : (settings.withExcess excess).options.excess ≠ .error := accepts
                have ignoresToo : (settings.withExcess other).options.excess ≠ .error := acceptsToo
                exact struct_verdict (children settings) ignores ignoresToo rfl rfl members
            | _ => exact (Abreast.refl _).verdict
      | union members =>
          rw [kindAt] at children
          rw [parse_succ, parse_succ]
          unfold step
          rw [kindAt]
          exact union_verdict (fun member inMembers =>
            children settings.failingFast member inMembers input) settings.direction
      | lazy cell =>
          rw [parse_succ, parse_succ, step_lazy kindAt, step_lazy kindAt]
          exact ih (reads.enter kindAt) settings input
      | transform source target decode encode strict =>
          rw [kindAt] at here
          exact here.elim
      | declaration parameters decode encode =>
          rw [kindAt] at here
          exact here.elim
      | _ =>
          rw [parse_succ, parse_succ]
          unfold step
          rw [kindAt]
          exact (Abreast.refl _).verdict

/-- Under looser options a run does not fail where it succeeds under tighter ones. -/
private theorem parse_upheld (reads : schema.Throughout targets (·.kind.ReadsShape)) (depth : Nat)
    {strict loose : Settings} (tighter : Settings.Tighter strict loose) :
    Upheld Eq (parse targets depth strict) (parse targets depth loose) schema := by
  induction depth generalizing schema strict loose with
  | zero => exact nofun
  | succ depth ih =>
      by_cases isShape : schema.kind.IsShape
      · apply upheld_step .same isShape tighter.direction tighter.options
        · exact fun child below => ih (reads.child below) tighter
        · exact fun fields indexes isStruct index inIndexes =>
            ih (reads.child (index_mem_children isStruct inIndexes).1) tighter.decoding
        · exact fun members isUnion member inMembers =>
            ih (reads.child (member_mem_children isUnion inMembers)) tighter.failingFast
        · exact fun cell isLazy => ih (reads.enter isLazy) tighter
      · have parameter := isParameter_of_check reads.here isShape
        rintro value _ rfl result faults ran failed
        have abreast := parameter_abreast parameter reads (depth + 1) tighter.direction value
        obtain ⟨_, ranToo, _⟩ := abreast.exists_ok ran
        rw [failed] at ranToo
        cases ranToo

/-! ### Values -/

private theorem takesKey_verdict {decodeKey otherKey : Schema → Value → Option Outcome}
    {key : PropertyKey}
    {indexes : List (IndexSignature Schema)}
    (each : ∀ index ∈ indexes, SameVerdict (decodeKey index.parameter key.toValue)
      (otherKey index.parameter key.toValue)) :
    takesKey decodeKey key indexes = takesKey otherKey key indexes := by
  induction indexes with
  | nil => rfl
  | cons index rest ih =>
      have later := ih fun next inRest => each next (List.mem_cons_of_mem _ inRest)
      rw [takesKey, takesKey, later]
      have here := each index List.mem_cons_self
      generalize decodeKey index.parameter key.toValue = first,
        otherKey index.parameter key.toValue = second at here ⊢
      cases here <;> rfl

private theorem FieldsYield.relax {run : Schema → Value → Option Outcome} {exact other : Bool}
    {members entries : Members} {fields : List (Field Schema)} (looser : other = true → exact = true)
    (yields : FieldsYield run exact members fields entries) :
    FieldsYield run other members fields entries := by
  induction yields with
  | nil => exact .nil
  | present found ran _ ih => exact .present found ran ih
  | leftOut absent optional _ ih => exact .leftOut absent optional ih
  | supplied absent required loose ran _ ih =>
      refine .supplied absent required (Bool.eq_false_iff.mpr fun strict => ?_) ran ih
      rw [looser strict] at loose
      cases loose

/-- Where every member is expected, none is left to be preserved. -/
private theorem preserve_of_expected {run decodeKey : Schema → Value → Option Outcome}
    {exact : Bool}
    {fields : List (Field Schema)} {indexes : List (IndexSignature Schema)}
    {members declared indexed : Members}
    (expected : ∀ member ∈ members, Expects decodeKey fields indexes member.1)
    (fieldsYield : FieldsYield run exact members fields declared)
    (indexesYield : IndexesYield run fields members indexes indexed) :
    preserve (Table.ofEntries (declared ++ indexed)) members =
      Table.ofEntries (declared ++ indexed) := by
  suffices there : ∀ member ∈ members, member.1 ∈ Table.keys (declared ++ indexed) by
    unfold preserve
    rw [List.filter_eq_nil_iff.mpr, List.append_nil]
    intro member inMembers
    have present := Table.mem_keys_ofEntries.mpr (there member inMembers)
    simp [Table.has_eq_true_iff.mpr present]
  intro member inMembers
  rw [Table.keys, List.map_append, List.mem_append]
  by_cases named : member.1 ∈ fields.map Field.name
  · exact Or.inl (fieldsYield.mem_keys named (List.mem_map_of_mem inMembers))
  · rcases expected member inMembers with known | taken
    · exact absurd (isDeclared_eq_true_iff.mp known) named
    · obtain ⟨index, inIndexes, fits, _⟩ := exists_index_of_takesKey taken
      obtain ⟨entry, inIndexed, made⟩ :=
        indexesYield.exists_entry inIndexes (mem_indexMembers.mpr ⟨inMembers, fits, named⟩)
      rw [← made.key]
      exact Or.inr (List.mem_map_of_mem inIndexed)

private theorem structOutput_kept {run decodeKey : Schema → Value → Option Outcome} {exact : Bool}
    {fields : List (Field Schema)} {indexes : List (IndexSignature Schema)}
    {members declared indexed : Members} {excess other : ExcessPolicy}
    (same : excess = .error ∨ excess = other)
    (expected : excess = .error → ∀ member ∈ members, Expects decodeKey fields indexes member.1)
    (fieldsYield : FieldsYield run exact members fields declared)
    (indexesYield : IndexesYield run fields members indexes indexed) :
    structOutput other members (declared ++ indexed) =
      structOutput excess members (declared ++ indexed) := by
  rcases same with isStrict | rfl
  · have kept := preserve_of_expected (expected isStrict) fieldsYield indexesYield
    unfold structOutput
    rw [kept, ite_self, ite_self]
  · rfl

private theorem parse_kept_struct {fields : List (Field Schema)}
    {indexes : List (IndexSignature Schema)} (isStruct : schema.kind = .struct fields indexes)
    (reads : schema.Throughout targets (·.kind.ReadsShape)) {depth : Nat}
    {strict loose : Settings} (tighter : Settings.Tighter strict loose)
    (excess : strict.options.excess = .error ∨ strict.options.excess = loose.options.excess)
    (children : ∀ child ∈ schema.kind.children, ∀ input value,
      parse targets depth strict child input = some (.ok value) →
      parse targets depth loose child input = some (.ok value))
    {input value : Value} (ran : parse targets (depth + 1) strict schema input = some (.ok value)) :
    parse targets (depth + 1) loose schema input = some (.ok value) := by
  have here := reads.here
  rw [isStruct] at here
  rw [parse_succ] at ran ⊢
  by_cases parts : fields = [] ∧ indexes = []
  · obtain ⟨rfl, rfl⟩ := parts
    rw [step_struct_empty isStruct] at ran ⊢
    exact ran
  rw [step_struct isStruct parts] at ran ⊢
  obtain ⟨members, isObject, expected, declared, indexed, fieldsYield, indexesYield, made⟩ := ran
  have keys : ∀ key, takesKey (parse targets depth strict.decoding) key indexes =
      takesKey (parse targets depth loose.decoding) key indexes := by
    intro key
    apply takesKey_verdict
    intro index inIndexes
    have below := (index_mem_children isStruct inIndexes).1
    exact (parameter_abreast (here index inIndexes) (reads.child below) depth (by rfl)
      key.toValue).verdict
  have sameOutput := structOutput_kept excess expected fieldsYield indexesYield
  have fieldsYieldToo := fieldsYield.imp fun field inFields =>
    children _ (field_mem_children isStruct inFields)
  refine ⟨members, isObject, fun isStrict member inMembers => ?_, declared, indexed,
    fieldsYieldToo.relax tighter.options.exact,
    indexesYield.imp fun index inIndexes child among => ?_,
    (congrArg Value.object sameOutput).trans made⟩
  · unfold Expects
    rw [← keys]
    exact expected (tighter.options.excess isStrict) member inMembers
  · apply children
    rw [isStruct]
    exact List.mem_append_right _ (List.mem_flatMap.mpr ⟨index, inIndexes, among⟩)

/-- Without unions, a run gives under looser options the value that it gives under tighter ones: as
long as what happens to excess members stays the same, or there are none. -/
private theorem parse_kept (reads : schema.Throughout targets (·.kind.ReadsShape))
    (unionFree : schema.Throughout targets (·.kind.isUnion = false)) {depth : Nat}
    {strict loose : Settings} (tighter : Settings.Tighter strict loose)
    (excess : strict.options.excess = .error ∨ strict.options.excess = loose.options.excess)
    {input value : Value} (ran : parse targets depth strict schema input = some (.ok value)) :
    parse targets depth loose schema input = some (.ok value) := by
  induction depth generalizing schema strict loose input value with
  | zero => cases ran
  | succ depth ih =>
      have children : ∀ child ∈ schema.kind.children, ∀ input value,
          parse targets depth strict child input = some (.ok value) →
          parse targets depth loose child input = some (.ok value) :=
        fun child below input value => ih (reads.child below) (unionFree.child below) tighter excess
      have here := reads.here
      cases kindAt : schema.kind with
      | refinement source filter =>
          have parameter := isParameter_of_check here (by rw [kindAt]; exact id)
          have abreast := parameter_abreast parameter reads (depth + 1) tighter.direction input
          obtain ⟨_, ranToo, rfl⟩ := abreast.exists_ok ran
          exact ranToo
      | tuple elements rest =>
          rw [kindAt] at children
          rw [parse_succ, step_tuple kindAt] at ran ⊢
          obtain ⟨items, isArray, required, bounded, results, yields, made⟩ := ran
          refine ⟨items, isArray, required, bounded, results, ?_, made⟩
          exact yields.imp fun child inSlots => children child (mem_slots inSlots)
      | struct fields indexes =>
          exact parse_kept_struct kindAt reads tighter excess children ran
      | union members =>
          have none := unionFree.here
          rw [kindAt] at none
          cases none
      | lazy cell =>
          rw [parse_succ, step_lazy kindAt] at ran ⊢
          exact ih (reads.enter kindAt) (unionFree.enter kindAt) tighter excess ran
      | transform source target decode encode strict =>
          rw [kindAt] at here
          exact here.elim
      | declaration parameters decode encode =>
          rw [kindAt] at here
          exact here.elim
      | _ =>
          have leaf := isLeaf_of_kind kindAt trivial
          rw [parse_succ, step_leaf leaf] at ran ⊢
          exact ran

/-! ### Whole runs -/

private theorem succeeds_of_verdict (reads : schema.Throughout targets (·.kind.ReadsShape))
    {settings : Settings} {excess other : ExcessPolicy} (accepts : excess ≠ .error)
    (acceptsToo : other ≠ .error) {input value : Value}
    (ran : Yields targets (settings.withExcess excess) schema input (.ok value)) :
    ∃ value, Yields targets (settings.withExcess other) schema input (.ok value) := by
  obtain ⟨depth, found⟩ := ran
  obtain ⟨value, foundToo, _⟩ :=
    (parse_verdict reads depth settings accepts acceptsToo input).exists_ok found
  exact ⟨value, depth, foundToo⟩

/-- Under looser options a run does not fail, and where recursion is guarded it comes to an end. -/
private theorem succeeds_of_tighter (reads : schema.Throughout targets (·.kind.ReadsShape))
    {strict loose : Settings} (tighter : Settings.Tighter strict loose) {input value : Value}
    (ran : Yields targets strict schema input (.ok value)) :
    (∀ faults, ¬Yields targets loose schema input (.error faults)) ∧
    (schema.Throughout targets (fun node => ∀ side, node.Guarded targets side) →
      ∃ other, Yields targets loose schema input (.ok other)) := by
  have accepts : ∀ faults, ¬Yields targets loose schema input (.error faults) := by
    rintro faults ⟨deeper, failed⟩
    obtain ⟨depth, found⟩ := ran
    exact parse_upheld reads (max depth deeper) tighter input input rfl value faults
      (parse_le targets (Nat.le_max_left depth deeper) found)
      (parse_le targets (Nat.le_max_right depth deeper) failed)
  refine ⟨accepts, fun guarded => ?_⟩
  refine ok_of_not_rejects (fun ⟨faults, failed⟩ => accepts faults failed) ?_
  refine ends_of_guarded (fun node reached => ⟨guarded node reached, ?_⟩) loose input
  have here : node.kind.ReadsShape := reads node reached
  cases kindAt : node.kind with
  | transform source target decode encode strict =>
      rw [kindAt] at here
      exact here.elim
  | declaration parameters decode encode =>
      rw [kindAt] at here
      exact here.elim
  | _ => trivial

/-- Whether a run succeeds is the same for ignored and for preserved members, and it does not fail
under looser options where it succeeds under tighter ones. Without unions its value stays. -/
theorem options_only_tighten (settings : Settings) (input : Value)
    (reads : schema.Throughout targets (·.kind.ReadsShape)) :
    ((∃ value, Yields targets (settings.withExcess .ignore) schema input (.ok value)) ↔
      ∃ value, Yields targets (settings.withExcess .preserve) schema input (.ok value)) ∧
    (∀ value, Yields targets (settings.withExcess .error) schema input (.ok value) →
      (∀ faults, ¬Yields targets (settings.withExcess .ignore) schema input (.error faults)) ∧
      (schema.Throughout targets (fun node => ∀ side, node.Guarded targets side) →
        ∃ other, Yields targets (settings.withExcess .ignore) schema input (.ok other))) ∧
    (∀ value, Yields targets (settings.withExact true) schema input (.ok value) →
      (∀ faults, ¬Yields targets (settings.withExact false) schema input (.error faults)) ∧
      (schema.Throughout targets (fun node => ∀ side, node.Guarded targets side) →
        ∃ other, Yields targets (settings.withExact false) schema input (.ok other))) ∧
    (schema.Throughout targets (·.kind.isUnion = false) → ∀ value,
      (Yields targets (settings.withExcess .error) schema input (.ok value) →
        Yields targets (settings.withExcess .ignore) schema input (.ok value) ∧
        Yields targets (settings.withExcess .preserve) schema input (.ok value)) ∧
      (Yields targets (settings.withExact true) schema input (.ok value) →
        Yields targets (settings.withExact false) schema input (.ok value))) := by
  have ignores : Settings.Tighter (settings.withExcess .error) (settings.withExcess .ignore) :=
    ⟨rfl, nofun, id⟩
  have preserves : Settings.Tighter (settings.withExcess .error) (settings.withExcess .preserve) :=
    ⟨rfl, nofun, id⟩
  have supplies : Settings.Tighter (settings.withExact true) (settings.withExact false) :=
    ⟨rfl, id, nofun⟩
  refine ⟨⟨?_, ?_⟩, fun _ => succeeds_of_tighter reads ignores,
    fun _ => succeeds_of_tighter reads supplies, fun unionFree value => ⟨?_, ?_⟩⟩
  · exact fun ⟨_, ran⟩ => succeeds_of_verdict reads (by decide) (by decide) ran
  · exact fun ⟨_, ran⟩ => succeeds_of_verdict reads (by decide) (by decide) ran
  · rintro ⟨depth, ran⟩
    exact ⟨⟨depth, parse_kept reads unionFree ignores (.inl rfl) ran⟩,
      ⟨depth, parse_kept reads unionFree preserves (.inl rfl) ran⟩⟩
  · rintro ⟨depth, ran⟩
    exact ⟨depth, parse_kept reads unionFree supplies (.inr rfl) ran⟩

def headerName : Schema :=
  .satisfying (.made 1) .string fun value => value.string?.any fun text => text ≠ ""

def requestForm : Schema :=
  .plain (.made 2) (.struct
    [⟨.string "path", .string, false⟩, ⟨.string "body", .undefined, false⟩]
    [⟨headerName, .number⟩])

def requestNodes : List Schema := [requestForm, headerName, .string, .undefined, .number]

private theorem requestForm_throughout {holds : Schema → Prop}
    (each : ∀ node ∈ requestNodes, holds node) :
    requestForm.Throughout targets holds := by
  refine .of_closed requestNodes ?_ ?_ List.mem_cons_self
  · change [Schema.string, .undefined, headerName, .number, .string] ⊆ _
    simp [requestNodes]
  · simp only [requestNodes, List.forall_mem_cons] at each ⊢
    obtain ⟨form, name, text, absent, number, _⟩ := each
    exact ⟨⟨nofun, form⟩, ⟨nofun, name⟩, ⟨nofun, text⟩, ⟨nofun, absent⟩, ⟨nofun, number⟩, nofun⟩

private theorem requestNodes_readShape : ∀ node ∈ requestNodes, node.kind.ReadsShape := by
  simp only [requestNodes, List.forall_mem_cons]
  refine ⟨fun index inIndexes => ?_, ⟨rfl, propertyFilter_readsValue _⟩, trivial, trivial, trivial,
    nofun⟩
  cases List.mem_singleton.mp inIndexes
  rfl

def sentRequest : Value :=
  .object [(.string "path", .string "/"), (.string "body", .undefined), (.string "age", .number 1)]

/-- A request that passes under the tightest options comes out the same under looser ones. -/
theorem requestForm_kept :
    ∃ value,
      Yields (fun _ => requestForm) ⟨.sync, ⟨.all, .error, true⟩, .decode⟩ requestForm sentRequest
        (.ok value) ∧
      Yields (fun _ => requestForm) ⟨.sync, ⟨.all, .ignore, true⟩, .decode⟩ requestForm sentRequest
        (.ok value) ∧
      Yields (fun _ => requestForm) ⟨.sync, ⟨.all, .preserve, true⟩, .decode⟩ requestForm sentRequest
        (.ok value) ∧
      Yields (fun _ => requestForm) ⟨.sync, ⟨.all, .error, false⟩, .decode⟩ requestForm sentRequest
        (.ok value) := by
  have kept := (@options_only_tighten (fun _ => requestForm) requestForm
    ⟨.sync, ⟨.all, .error, true⟩, .decode⟩ sentRequest
    (requestForm_throughout requestNodes_readShape)).2.2.2 (requestForm_throughout (by decide))
  have ran : Yields (fun _ => requestForm) ⟨.sync, ⟨.all, .error, true⟩, .decode⟩ requestForm
      sentRequest (.ok _) := ⟨4, rfl⟩
  exact ⟨_, ran, ((kept _).1 ran).1, ((kept _).1 ran).2, (kept _).2 ran⟩

def spared : Schema := .plain (.made 6) (.struct [⟨.string "spare", .any, true⟩] [])

def linkedOrSpared : Schema := .plain (.made 7) (.union [linked, spared])

/-- Where nothing absent is supplied, the member that has no end fails before it gets there. -/
theorem looser_run_may_not_end :
    (linkedOrSpared.Throughout (fun _ => circular) (·.kind.ReadsShape)) ∧
    Yields (fun _ => circular) (Settings.withExact ⟨.sync, {}, .decode⟩ true) linkedOrSpared
      (.object []) (.ok (.object [])) ∧
    ¬Ends (fun _ => circular) (Settings.withExact ⟨.sync, {}, .decode⟩ false) linkedOrSpared
      (.object []) := by
  refine ⟨?_, ⟨4, rfl⟩, ?_⟩
  · refine circular_throughout [linkedOrSpared, linked, spared, circular, .any] ?_ (by simp) ?_
      (by simp)
    · change [linked, spared, circular, .any] ⊆ _
      simp
    · simp only [List.forall_mem_cons]
      exact ⟨⟨nofun, trivial⟩, ⟨nofun, nofun⟩, ⟨nofun, nofun⟩, ⟨fun _ entered => entered, trivial⟩,
        ⟨nofun, trivial⟩, nofun⟩
  · refine not_ends_of_member rfl rfl ?_
    exact not_ends_of_absent_field rfl (by decide) rfl rfl rfl circular_endless

end Run

end SchemaCodec
