import SchemaCodec.Proofs.Run.Ending
import SchemaCodec.Proofs.Run.Endless
import SchemaCodec.Proofs.Run.Level
import SchemaCodec.Proofs.Run.Upheld
import SchemaCodec.Proofs.Value.Reordering

/-!
The order of members does not matter. Where filters and functions treat values alike that differ only
by the order of object members, so does a run: of two such inputs both are accepted, with results
that differ only by the order of members, or both are rejected.
-/

namespace SchemaCodec

open Value (Reordered)

def Filter.IgnoresOrder (filter : Filter) : Prop :=
  ∀ options expected value other, Reordered value other →
    (filter options expected value = none ↔ filter options expected other = none)

/-- Both are successes, with values that differ only by the order of members, or both are failures. -/
inductive Outcome.Reordered : Outcome → Outcome → Prop where
  | ok {value other : Value} (reordered : value.Reordered other) : Reordered (.ok value) (.ok other)
  | error (faults others : Faults) : Reordered (.error faults) (.error others)

def Transformer.IgnoresOrder (function : Transformer) : Prop :=
  ∀ options expected value other, Reordered value other →
    Outcome.Reordered (function.apply options expected value) (function.apply options expected other)

/-- What is checked and what is applied does not tell orders apart. -/
def Kind.IgnoresOrder : Kind Schema → Prop :=
  Kind.EachFunction Filter.IgnoresOrder
    (fun decode encode => decode.IgnoresOrder ∧ encode.IgnoresOrder) fun _ _ => False

private theorem Schema.propertyFilter_ignoresOrder {property : Value → Bool}
    (ignores : ∀ value other, Reordered value other → property value = property other) :
    (propertyFilter property).IgnoresOrder := by
  intro options expected value other reordered
  unfold propertyFilter
  rw [ignores value other reordered]
  split <;> simp

/-! ### Values of one shape -/

private theorem admits_reordered (kind : Kind Schema) {value other : Value}
    (reordered : value.Reordered other) : kind.admits value = kind.admits other := by
  cases reordered with
  | scalar _ _ => rfl
  | array _ _ =>
      cases kind with
      | keyword word => cases word <;> rfl
      | literal single => cases single <;> rfl
      | enums members =>
          exact congrArg members.any (funext fun member => by cases member.value <;> rfl)
      | _ => rfl
  | object _ _ _ _ =>
      cases kind with
      | keyword word => cases word <;> rfl
      | literal single => cases single <;> rfl
      | enums members =>
          exact congrArg members.any (funext fun member => by cases member.value <;> rfl)
      | _ => rfl

namespace Run

open Schema

private theorem tagCandidates_reordered {members others : Members}
    (alike : Table.Alike Reordered members others) (groups : List (PropertyKey × TagGroup)) :
    (tagCandidates members groups).2 = (tagCandidates others groups).2 := by
  induction groups with
  | nil => rfl
  | cons entry rest ih =>
      have same := alike entry.1
      rw [tagCandidates, tagCandidates, groupCandidates, groupCandidates]
      generalize Table.find? entry.1 members = found, Table.find? entry.1 others = foundToo at same ⊢
      cases same with
      | none => exact ih
      | @some value other reordered =>
          simp only [reordered.display_eq]
          cases Table.find? other.display entry.2.buckets with
          | none => exact ih
          | some bucket => exact congrArg (bucket ++ ·) ih

/-- The same members of a union are tried, in the same order. -/
private theorem candidates_reordered (index : TagIndex) {value other : Value}
    (reordered : value.Reordered other) :
    (candidates index value).2 = (candidates index other).2 := by
  unfold candidates
  split
  · rfl
  · cases reordered with
    | scalar _ _ => rfl
    | array _ _ => rfl
    | object distinct distinctToo sameKeys each =>
        have alike := Table.alike_iff.mpr ⟨sameKeys, each⟩
        exact congrArg (· ++ index.untagged) (tagCandidates_reordered alike index.groups)

end Run

theorem KeepsShape.reordered : KeepsShape Reordered where
  undefined := .scalar rfl rfl
  key name := .of_proper (.key name)
  array _ _ reordered := reordered.exists_items
  object members other reordered := by
    obtain ⟨others, rfl, distinct, distinctToo, alike⟩ := reordered.exists_members
    refine ⟨others, rfl, alike, fun other inOthers => ?_⟩
    have related := alike other.1
    rw [Table.find?_of_mem distinctToo inOthers] at related
    cases found : Table.find? other.1 members with
    | none =>
        rw [found] at related
        cases related
    | some value =>
        rw [found] at related
        cases related with
        | some below => exact ⟨(other.1, value), Table.mem_of_find? found, rfl, below⟩
  nullish _ _ reordered := reordered.isNullish_eq
  admits kind _ _ reordered := admits_reordered kind reordered
  candidates index _ _ reordered := Run.candidates_reordered index reordered

namespace Run

/-! ### Two runs -/

/-- Where both runs have an outcome, the outcomes are alike. -/
def Agree (result other : Option Outcome) : Prop :=
  ∀ outcome outcomeToo, result = some outcome → other = some outcomeToo →
    Outcome.Reordered outcome outcomeToo

def AgreeOn (run : Schema → Value → Option Outcome) (schema : Schema) : Prop :=
  ∀ value other, Reordered value other → Agree (run schema value) (run schema other)

private theorem Agree.of_reordered {outcome other : Outcome}
    (reordered : Outcome.Reordered outcome other) :
    Agree (some outcome) (some other) := by
  intro _ _ found foundToo
  cases found
  cases foundToo
  exact reordered

theorem Agree.bind {result other : Option Outcome} {next nextToo : Outcome → Option Outcome}
    (agree : Agree result other)
    (after : ∀ outcome outcomeToo, Outcome.Reordered outcome outcomeToo →
      Agree (next outcome) (nextToo outcomeToo)) :
    Agree (result >>= next) (other >>= nextToo) := by
  intro _ _ found foundToo
  obtain ⟨outcome, ran, reached⟩ := Option.bind_eq_some_iff.mp found
  obtain ⟨outcomeToo, ranToo, reachedToo⟩ := Option.bind_eq_some_iff.mp foundToo
  exact after outcome outcomeToo (agree _ _ ran ranToo) _ _ reached reachedToo

section Level

variable {run : Schema → Value → Option Outcome}

theorem AgreeOn.reordered {schema : Schema} (agree : AgreeOn run schema) {value other : Value}
    (reordered : Reordered value other) {result resultToo : Value}
    (ran : run schema value = some (.ok result)) (ranToo : run schema other = some (.ok resultToo)) :
    Reordered result resultToo := by
  cases agree value other reordered _ _ ran ranToo with
  | ok same => exact same

private theorem AgreeOn.upheld {schema : Schema} (agree : AgreeOn run schema) :
    Upheld Reordered run run schema := by
  intro value other reordered result faults ran failed
  cases agree value other reordered _ _ ran failed

private theorem items_reordered {schemas : List Schema}
    (each : ∀ schema ∈ schemas, AgreeOn run schema)
    {items others results resultsToo : List Value} (reordered : List.Forall₂ Reordered items others)
    (yields : ItemsYield run schemas items results)
    (yieldsToo : ItemsYield run schemas others resultsToo) :
    List.Forall₂ Reordered results resultsToo := by
  induction reordered generalizing schemas results resultsToo with
  | nil =>
      cases yields
      cases yieldsToo
      exact .nil
  | cons head _ ih =>
      cases yields with
      | cons ran tail =>
          cases yieldsToo with
          | cons ranToo tailToo =>
              exact .cons ((each _ List.mem_cons_self).reordered head ran ranToo)
                (ih (fun schema later => each schema (List.mem_cons_of_mem _ later)) tail tailToo)

private theorem declared_reordered {exact : Bool} {fields : List (Field Schema)}
    (each : ∀ field ∈ fields, AgreeOn run field.schema) {members others : Members}
    (alike : Table.Alike Reordered members others) {entries entriesToo : Members}
    (yields : FieldsYield run exact members fields entries)
    (yieldsToo : FieldsYield run exact others fields entriesToo) :
    List.Forall₂ (fun entry other => entry.1 = other.1 ∧ Reordered entry.2 other.2) entries
      entriesToo := by
  induction yields generalizing entriesToo with
  | nil =>
      cases yieldsToo
      exact .nil
  | @present field fields _ _ _ found ran _ ih =>
      have same := alike field.name
      have here := each field List.mem_cons_self
      have later := fun next inRest => each next (List.mem_cons_of_mem field inRest)
      cases yieldsToo with
      | present foundToo ranToo tailToo =>
          rw [found, foundToo] at same
          cases same with
          | some reordered =>
              exact .cons ⟨rfl, here.reordered reordered ran ranToo⟩ (ih later tailToo)
      | leftOut absent _ _ => rw [found, absent] at same; cases same
      | supplied absent _ _ _ _ => rw [found, absent] at same; cases same
  | @leftOut field fields _ absent optional _ ih =>
      have same := alike field.name
      have later := fun next inRest => each next (List.mem_cons_of_mem field inRest)
      cases yieldsToo with
      | present foundToo _ _ => rw [absent, foundToo] at same; cases same
      | leftOut _ _ tailToo => exact ih later tailToo
      | supplied _ required _ _ _ => rw [optional] at required; cases required
  | @supplied field fields _ _ absent required _ ran _ ih =>
      have same := alike field.name
      have here := each field List.mem_cons_self
      have later := fun next inRest => each next (List.mem_cons_of_mem field inRest)
      cases yieldsToo with
      | present foundToo _ _ => rw [absent, foundToo] at same; cases same
      | leftOut _ optional _ => rw [optional] at required; cases required
      | supplied _ _ _ ranToo tailToo =>
          exact .cons ⟨rfl, here.reordered (.scalar rfl rfl) ran ranToo⟩ (ih later tailToo)

/-- What a block has under a key is made of what the members have there. -/
private theorem block_alike {index : IndexSignature Schema} {members block : Members}
    (yields : List.Forall₂ (EntryYields run index) members block) :
    Table.Alike (fun value result => run index.schema value = some (.ok result)) members block :=
  .of_forall₂ (yields.imp fun _ _ made => ⟨made.key.symm, made.ran⟩)

private theorem block_reordered {index : IndexSignature Schema} (agree : AgreeOn run index.schema)
    {members others block blockToo : Members} (alike : Table.Alike Reordered members others)
    (yields : List.Forall₂ (EntryYields run index) members block)
    (yieldsToo : List.Forall₂ (EntryYields run index) others blockToo) :
    Table.Alike Reordered block blockToo := by
  intro key
  have same := alike key
  have made := block_alike yields key
  have madeToo := block_alike yieldsToo key
  generalize Table.find? key members = value, Table.find? key others = other,
    Table.find? key block = result, Table.find? key blockToo = resultToo at same made madeToo ⊢
  cases same with
  | none =>
      cases made
      cases madeToo
      exact .none
  | some reordered =>
      cases made with
      | some ran =>
          cases madeToo with
          | some ranToo => exact .some (agree.reordered reordered ran ranToo)

/-- A later signature overwrites what an earlier one has made under a key, whatever the order of the
members is. -/
private theorem indexed_reordered {fields : List (Field Schema)}
    {indexes : List (IndexSignature Schema)}
    (each : ∀ index ∈ indexes, AgreeOn run index.schema) {members others : Members}
    (distinct : (Table.keys members).Nodup) (distinctToo : (Table.keys others).Nodup)
    (alike : Table.Alike Reordered members others) {entries entriesToo : Members}
    (yields : IndexesYield run fields members indexes entries)
    (yieldsToo : IndexesYield run fields others indexes entriesToo) :
    Table.Alike Reordered (Table.ofEntries entries) (Table.ofEntries entriesToo) := by
  induction yields generalizing entriesToo with
  | nil =>
      cases yieldsToo
      exact fun _ => .none
  | @cons index _ block _ head _ ih =>
      cases yieldsToo with
      | @cons _ _ blockToo _ headToo tailToo =>
          have about := alike.filter fun key => keyFits key index.parameter && !isDeclared fields key
          have blocks : Table.Alike Reordered (Table.ofEntries block) (Table.ofEntries blockToo) := by
            rw [Table.ofEntries_of_nodup (nodup_block distinct head),
              Table.ofEntries_of_nodup (nodup_block distinctToo headToo)]
            exact block_reordered (each index List.mem_cons_self) about head headToo
          have later := ih (fun next inRest => each next (List.mem_cons_of_mem _ inRest)) tailToo
          rw [Table.ofEntries, Table.ofEntries, Table.insertAll_append, Table.insertAll_append]
          exact blocks.insertAll later

private theorem structOutput_reordered {members others : Members}
    (distinct : (Table.keys members).Nodup)
    (distinctToo : (Table.keys others).Nodup) (alike : Table.Alike Reordered members others)
    (excess : ExcessPolicy) {entries entriesToo : Members}
    (made : Table.Alike Reordered (Table.ofEntries entries) (Table.ofEntries entriesToo)) :
    Reordered (.object (structOutput excess members entries))
      (.object (structOutput excess others entriesToo)) := by
  refine Value.reordered_object_iff.mpr ⟨nodup_structOutput distinct _ _,
    nodup_structOutput distinctToo _ _, ?_⟩
  unfold structOutput
  split
  · have sameHas : ∀ key, Table.has key (Table.ofEntries entries) =
        Table.has key (Table.ofEntries entriesToo) := by
      intro key
      have sameKeys := (Table.alike_iff.mp made).1 key
      rw [← Table.has_eq_true_iff, ← Table.has_eq_true_iff] at sameKeys
      exact Bool.eq_iff_iff.mpr sameKeys
    have rest := alike.filter fun key => !Table.has key (Table.ofEntries entriesToo)
    unfold preserve
    simp only [sameHas]
    exact made.append rest
  · exact made

private theorem firstOf_agree {schemas : List Schema}
    (each : ∀ schema ∈ schemas, AgreeOn run schema)
    {value other : Value} (reordered : Reordered value other) (faults faultsToo : List Fault) :
    Agree (firstOf run value faults schemas) (firstOf run other faultsToo schemas) := by
  induction schemas generalizing faults faultsToo with
  | nil =>
      unfold firstOf
      cases Faults.ofList? faults.reverse <;> cases Faults.ofList? faultsToo.reverse <;>
        exact .of_reordered (.error _ _)
  | cons schema rest ih =>
      refine (each schema List.mem_cons_self value other reordered).bind fun _ _ alike => ?_
      cases alike with
      | ok same => exact .of_reordered (.ok same)
      | error _ _ => exact ih (fun next later => each next (List.mem_cons_of_mem _ later)) _ _

private theorem transform_agree {near far : Schema} (nearAgree : AgreeOn run near)
    (farAgree : AgreeOn run far)
    {function : Transformer} (ignores : function.IgnoresOrder) (settings : Settings)
    (expected : Expected) (strict : Bool) {value other : Value} (reordered : Reordered value other) :
    Agree (transform run settings expected near far function strict value)
      (transform run settings expected near far function strict other) := by
  refine (nearAgree value other reordered).bind fun _ _ given => ?_
  cases given with
  | error faults others => exact .of_reordered (.error faults others)
  | @ok value other reordered =>
      have applied : Outcome.Reordered (transformer settings function expected value)
          (transformer settings function expected other) := by
        unfold transformer
        split
        · exact .error _ _
        · exact ignores _ _ _ _ reordered
      simp only
      generalize transformer settings function expected value = result,
        transformer settings function expected other = resultToo at applied ⊢
      cases applied with
      | error faults others => exact .of_reordered (.error faults others)
      | ok made =>
          cases strict with
          | true => exact farAgree _ _ made
          | false => exact .of_reordered (.ok made)

end Level

open Schema

variable {targets : Targets}

/-- At a node that only looks at the shape of values, successes have results that differ only by the
order of members. -/
private theorem result_reordered {run : Settings → Schema → Value → Option Outcome}
    {settings : Settings}
    {schema : Schema} (isShape : schema.kind.IsShape)
    (each : ∀ others part, Runs targets settings schema others part → AgreeOn (run others) part)
    {value other result resultToo : Value} (reordered : Reordered value other)
    (ran : step (fun cell => some (cell.resolve targets)) run settings schema value =
      some (.ok result))
    (ranToo : step (fun cell => some (cell.resolve targets)) run settings schema other =
      some (.ok resultToo)) : Reordered result resultToo := by
  have children : ∀ child ∈ schema.kind.children, AgreeOn (run settings) child :=
    fun child below => each settings child (.child below)
  cases kindAt : schema.kind with
  | tuple elements rest =>
      rw [kindAt] at children
      obtain ⟨items, rfl, _, _, results, yields, rfl⟩ := (step_tuple kindAt).mp ran
      obtain ⟨others, rfl, _, _, resultsToo, yieldsToo, rfl⟩ := (step_tuple kindAt).mp ranToo
      have related := Value.reordered_array_iff.mp reordered
      rw [← related.length_eq] at yieldsToo
      exact Value.reordered_array_iff.mpr (items_reordered
        (fun child inSlots => children child (mem_slots inSlots)) related yields yieldsToo)
  | struct fields indexes =>
      by_cases parts : fields = [] ∧ indexes = []
      · obtain ⟨rfl, rfl⟩ := parts
        obtain ⟨_, rfl⟩ := (step_struct_empty kindAt).mp ran
        obtain ⟨_, rfl⟩ := (step_struct_empty kindAt).mp ranToo
        exact reordered
      · obtain ⟨members, rfl, _, declared, indexed, fieldsYield, indexesYield, rfl⟩ :=
          (step_struct kindAt parts).mp ran
        obtain ⟨others, rfl, _, declaredToo, indexedToo, fieldsToo, indexesToo, rfl⟩ :=
          (step_struct kindAt parts).mp ranToo
        obtain ⟨distinct, distinctToo, alike⟩ := Value.reordered_object_iff.mp reordered
        have fieldsMade := declared_reordered
          (fun field inFields => children _ (field_mem_children kindAt inFields)) alike fieldsYield
          fieldsToo
        have indexesMade := indexed_reordered
          (fun index inIndexes => children _ (index_mem_children kindAt inIndexes).2) distinct
          distinctToo alike indexesYield indexesToo
        refine structOutput_reordered distinct distinctToo alike _ ?_
        have start : Table.Alike Reordered ([] : Members) [] := fun _ => .none
        rw [Table.ofEntries, Table.ofEntries, Table.insertAll_append, Table.insertAll_append]
        exact (start.insertAll_of_forall₂ fieldsMade).insertAll indexesMade
  | union members =>
      unfold step at ran ranToo
      rw [kindAt] at ran ranToo
      simp only [union, candidates_reordered _ reordered] at ran ranToo
      have tried : ∀ member ∈ (candidates (TagIndex.ofMembers settings.direction members)
          other).2.filterMap fun position => members[position]?,
          AgreeOn (run settings.failingFast) member := by
        intro member inOrder
        obtain ⟨position, _, atPosition⟩ := List.mem_filterMap.mp inOrder
        exact each _ member (.member kindAt (List.mem_of_getElem? atPosition))
      cases firstOf_agree tried reordered _ _ _ _ ran ranToo with
      | ok made => exact made
  | lazy cell =>
      rw [step_lazy kindAt] at ran ranToo
      exact (each settings _ (.target kindAt)).reordered reordered ran ranToo
  | refinement source filter =>
      rw [kindAt] at isShape
      exact isShape.elim
  | transform source target decode encode strict =>
      rw [kindAt] at isShape
      exact isShape.elim
  | declaration parameters decode encode =>
      rw [kindAt] at isShape
      exact isShape.elim
  | _ =>
      have leaf := isLeaf_of_kind kindAt trivial
      obtain ⟨_, rfl⟩ := (step_leaf leaf).mp ran
      obtain ⟨_, rfl⟩ := (step_leaf leaf).mp ranToo
      exact reordered

private theorem agree_shape {run : Settings → Schema → Value → Option Outcome} {settings : Settings}
    {schema : Schema} (isShape : schema.kind.IsShape)
    (each : ∀ others part, Runs targets settings schema others part → AgreeOn (run others) part) :
    AgreeOn (step (fun cell => some (cell.resolve targets)) run settings) schema := by
  have upheld : Upheld Reordered (step (fun cell => some (cell.resolve targets)) run settings)
      (step (fun cell => some (cell.resolve targets)) run settings) schema := by
    refine upheld_step .reordered isShape rfl ⟨id, id⟩ ?_ ?_ ?_ ?_
    · exact fun child below => (each _ _ (.child below)).upheld
    · exact fun _ _ isStruct index inIndexes => (each _ _ (.key isStruct inIndexes)).upheld
    · exact fun _ isUnion member inMembers => (each _ _ (.member isUnion inMembers)).upheld
    · exact fun cell isLazy => (each _ _ (.target isLazy)).upheld
  intro value other reordered outcome outcomeToo ran ranToo
  cases outcome with
  | ok result =>
      cases outcomeToo with
      | ok resultToo => exact .ok (result_reordered isShape each reordered ran ranToo)
      | error faults => exact absurd ranToo (upheld _ _ reordered result faults ran)
  | error faults =>
      cases outcomeToo with
      | ok resultToo => exact absurd ran (upheld _ _ reordered.symm resultToo faults ranToo)
      | error others => exact .error faults others

/-- A level gives alike outcomes if the runs that it makes do. -/
private theorem agree_step {run : Settings → Schema → Value → Option Outcome} {settings : Settings}
    {schema : Schema} (ignores : schema.kind.IgnoresOrder)
    (each : ∀ others part, Runs targets settings schema others part → AgreeOn (run others) part) :
    AgreeOn (step (fun cell => some (cell.resolve targets)) run settings) schema := by
  by_cases isShape : schema.kind.IsShape
  · exact agree_shape isShape each
  intro value other reordered
  cases kindAt : schema.kind with
  | refinement source filter =>
      rw [kindAt] at ignores
      unfold step
      rw [kindAt]
      cases settings.direction with
      | decode =>
          refine (each _ _ (.child (refined_mem_children kindAt)) _ _ reordered).bind
            fun _ _ given => ?_
          cases given with
          | error faults others => exact .of_reordered (.error faults others)
          | @ok given givenToo reordered =>
              have passes := ignores settings.options schema.expected given givenToo reordered
              simp only
              generalize filter settings.options schema.expected given = rejected,
                filter settings.options schema.expected givenToo = rejectedToo at passes ⊢
              cases rejected with
              | none =>
                  cases passes.mp rfl
                  exact .of_reordered (.ok reordered)
              | some fault =>
                  cases rejectedToo with
                  | none => cases passes.mpr rfl
                  | some faultToo => exact .of_reordered (.error _ _)
      | encode =>
          refine (each _ _ (.outputSide kindAt) value other reordered).bind fun _ _ given => ?_
          cases given with
          | error faults others => exact .of_reordered (.error faults others)
          | ok reordered => exact each _ _ (.withoutRefinements kindAt) _ _ reordered
  | transform source target decode encode strict =>
      have atSource := each settings source (.child (source_mem_children kindAt))
      have atTarget := each settings target (.child (target_mem_children kindAt))
      rw [kindAt] at ignores
      unfold step
      rw [kindAt]
      cases settings.direction with
      | decode => exact transform_agree atSource atTarget ignores.1 _ _ strict reordered
      | encode => exact transform_agree atTarget atSource ignores.2 _ _ strict reordered
  | declaration parameters decode encode =>
      rw [kindAt] at ignores
      exact ignores.elim
  | _ =>
      rw [kindAt] at isShape
      exact absurd trivial isShape

/-! ### Whole runs -/

private theorem parse_agree {schema : Schema}
    (ignores : schema.Throughout targets (·.kind.IgnoresOrder))
    (depth : Nat) (settings : Settings) : AgreeOn (parse targets depth settings) schema := by
  induction depth generalizing schema settings with
  | zero => exact fun _ _ _ => nofun
  | succ depth ih =>
      intro value other
      rw [parse_succ, parse_succ]
      refine agree_step ignores.here (fun others part runs => ?_) value other
      exact ih (runs.throughout (Kind.eachFunction_projects .output _ _ _) trivial ignores) others

/-- For inputs that differ only by the order of members, either both runs succeed, with values that
differ only by the order of members, or both fail. Where recursion is guarded both come to an end. -/
theorem memberOrder_irrelevant {schema : Schema}
    (ignores : schema.Throughout targets (·.kind.IgnoresOrder)) (settings : Settings)
    {input other : Value} (reordered : input.Reordered other) :
    (∀ outcome outcomeToo, Yields targets settings schema input outcome →
      Yields targets settings schema other outcomeToo → Outcome.Reordered outcome outcomeToo) ∧
    (schema.Throughout targets (fun node =>
        (∀ side, node.Guarded targets side) ∧ node.kind.Contained) →
      ∃ outcome outcomeToo, Yields targets settings schema input outcome ∧
        Yields targets settings schema other outcomeToo ∧
        Outcome.Reordered outcome outcomeToo) := by
  have agree : ∀ outcome outcomeToo, Yields targets settings schema input outcome →
      Yields targets settings schema other outcomeToo → Outcome.Reordered outcome outcomeToo := by
    rintro outcome outcomeToo ⟨depth, ran⟩ ⟨deeper, ranToo⟩
    exact parse_agree ignores (max depth deeper) settings input other reordered _ _
      (parse_le targets (Nat.le_max_left depth deeper) ran)
      (parse_le targets (Nat.le_max_right depth deeper) ranToo)
  refine ⟨agree, fun guarded => ?_⟩
  obtain ⟨outcome, yields⟩ := ends_of_guarded guarded settings input
  obtain ⟨outcomeToo, yieldsToo⟩ := ends_of_guarded guarded settings other
  exact ⟨outcome, outcomeToo, yields, yieldsToo, agree _ _ yields yieldsToo⟩

def hasWidth (value : Value) : Bool :=
  (value.member? (.string "width")).isSome

def boxSizes : Schema :=
  .satisfying (.made 2) (.plain (.made 1) (.struct [] [⟨.string, .number⟩])) hasWidth

def shipment : Schema :=
  .plain (.made 3) (.struct
    [⟨.string "label", .string, false⟩, ⟨.string "sizes", boxSizes, false⟩] [])

private theorem hasWidth_ignoresOrder : (propertyFilter hasWidth).IgnoresOrder := by
  refine propertyFilter_ignoresOrder fun value other reordered => ?_
  have related := reordered.member? (.string "width")
  unfold hasWidth
  generalize value.member? (.string "width") = width, other.member? (.string "width") = widthToo
    at related ⊢
  cases related <;> rfl

def shipmentNodes : List Schema :=
  [shipment, boxSizes, .plain (.made 1) (.struct [] [⟨.string, .number⟩]), .string, .number]

private theorem shipment_throughout {holds : Schema → Prop}
    (each : ∀ node ∈ shipmentNodes, holds node) :
    shipment.Throughout (fun _ => shipment) holds := by
  refine .of_closed shipmentNodes ?_ ?_ List.mem_cons_self
  · change [Schema.string, boxSizes, .plain (.made 1) (.struct [] [⟨.string, .number⟩]), .string,
      .number] ⊆ _
    simp [shipmentNodes]
  · simp only [shipmentNodes, List.forall_mem_cons] at each ⊢
    obtain ⟨whole, sizes, record, text, number, _⟩ := each
    exact ⟨⟨nofun, whole⟩, ⟨nofun, sizes⟩, ⟨nofun, record⟩, ⟨nofun, text⟩, ⟨nofun, number⟩, nofun⟩

private theorem shipment_ignoresOrder :
    shipment.Throughout (fun _ => shipment) (·.kind.IgnoresOrder) := by
  refine shipment_throughout ?_
  simp only [shipmentNodes, List.forall_mem_cons]
  exact ⟨trivial, hasWidth_ignoresOrder, trivial, trivial, trivial, nofun⟩

def widthFirst : Value :=
  .object [(.string "label", .string "a"),
    (.string "sizes", .object [(.string "width", .number 1), (.string "depth", .number 2)])]

def depthFirst : Value :=
  .object [(.string "sizes", .object [(.string "depth", .number 2), (.string "width", .number 1)]),
    (.string "label", .string "a")]

private theorem widthFirst_reordered : widthFirst.Reordered depthFirst := by
  have sizes : (Value.object [(.string "width", .number 1), (.string "depth", .number 2)]).Reordered
      (.object [(.string "depth", .number 2), (.string "width", .number 1)]) :=
    Value.reordered_object_iff_perm.mpr ⟨by decide, _, .swap _ _ _,
      .cons ⟨rfl, .scalar rfl rfl⟩ (.cons ⟨rfl, .scalar rfl rfl⟩ .nil)⟩
  exact Value.reordered_object_iff_perm.mpr ⟨by decide, _, .swap _ _ _,
    .cons ⟨rfl, sizes⟩ (.cons ⟨rfl, .scalar rfl rfl⟩ .nil)⟩

/-- A shipment is accepted with its members in either order; the sizes come out as they were given. -/
theorem shipment_in_either_order :
    ∃ value other,
      Yields (fun _ => shipment) ⟨.sync, ⟨.all, .error, true⟩, .decode⟩ shipment widthFirst
        (.ok value) ∧
      Yields (fun _ => shipment) ⟨.sync, ⟨.all, .error, true⟩, .decode⟩ shipment depthFirst
        (.ok other) ∧
      value.Reordered other := by
  have ran : Yields (fun _ => shipment) ⟨.sync, ⟨.all, .error, true⟩, .decode⟩ shipment widthFirst
      (.ok _) := ⟨6, rfl⟩
  have ranToo : Yields (fun _ => shipment) ⟨.sync, ⟨.all, .error, true⟩, .decode⟩ shipment depthFirst
      (.ok _) := ⟨6, rfl⟩
  have irrelevant := memberOrder_irrelevant shipment_ignoresOrder
    ⟨.sync, ⟨.all, .error, true⟩, .decode⟩ widthFirst_reordered
  cases irrelevant.1 _ _ ran ranToo with
  | ok reordered => exact ⟨_, _, ran, ranToo, reordered⟩

def linkedRecord : Schema := .plain (.made 6) (.struct [] [⟨.string, linked⟩])

/-- A run stops at its first fault, and which member comes first decides whether it gets there. -/
theorem memberOrder_may_decide_end :
    (linkedRecord.Throughout (fun _ => circular) (·.kind.IgnoresOrder)) ∧
    (Value.object [(.string "a", .boolean true), (.string "b", .object [])]).Reordered
      (.object [(.string "b", .object []), (.string "a", .boolean true)]) ∧
    (∃ failure, Yields (fun _ => circular) ⟨.sync, {}, .decode⟩ linkedRecord
      (.object [(.string "a", .boolean true), (.string "b", .object [])]) (.error failure)) ∧
    ¬Ends (fun _ => circular) ⟨.sync, {}, .decode⟩ linkedRecord
      (.object [(.string "b", .object []), (.string "a", .boolean true)]) := by
  refine ⟨?_, ?_, ⟨_, 4, rfl⟩, ?_⟩
  · refine circular_throughout [linkedRecord, linked, circular, .string] ?_ (by simp) ?_ (by simp)
    · change [Schema.string, linked, circular] ⊆ _
      simp
    · simp only [List.forall_mem_cons]
      exact ⟨⟨nofun, trivial⟩, ⟨nofun, trivial⟩, ⟨fun _ entered => entered, trivial⟩,
        ⟨nofun, trivial⟩, nofun⟩
  · exact Value.reordered_object_iff_perm.mpr ⟨by decide, _, .swap _ _ _,
      .cons ⟨rfl, Value.reordered_object_iff_perm.mpr ⟨by decide, _, .nil, .nil⟩⟩
        (.cons ⟨rfl, .scalar rfl rfl⟩ .nil)⟩
  · have runs : ¬Ends (fun _ => circular) ⟨.sync, {}, .decode⟩ linked (.object []) :=
      not_ends_of_absent_field rfl (by decide) rfl rfl rfl circular_endless
    exact not_ends_of_index rfl (by decide) rfl ⟨1, rfl⟩ runs

end Run

end SchemaCodec
