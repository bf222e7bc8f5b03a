import SchemaCodec.Proofs.Run.Success
import SchemaCodec.Report.Issue

/-!
Where the faults of a level come from. Each fault that a tuple, a struct or a union reports tells of
one thing: that something is missing or unexpected, that a tag fits no member, or that a run below
has failed.
-/

namespace SchemaCodec

/-! ### Leaves -/

/-- The leaf is found at the end of the path. The members of a union add nothing to a path. -/
inductive Fault.Leaf : Fault → List PathStep → Fault → Prop where
  | here {leaf : Fault} (single : leaf.isWrapper = false) : Leaf leaf [] leaf
  | index {position : Nat} {faults : Faults} {fault leaf : Fault} {path : List PathStep}
      (among : fault ∈ faults.toList) (below : Leaf fault path leaf) :
      Leaf (.index position faults) (.index position :: path) leaf
  | key {name : PropertyKey} {faults : Faults} {fault leaf : Fault} {path : List PathStep}
      (among : fault ∈ faults.toList) (below : Leaf fault path leaf) :
      Leaf (.key name faults) (.key name :: path) leaf
  | unionMember {faults : Faults} {fault leaf : Fault} {path : List PathStep}
      (among : fault ∈ faults.toList) (below : Leaf fault path leaf) :
      Leaf (.unionMember faults) path leaf

def Faults.Leaf (faults : Faults) (path : List PathStep) (leaf : Fault) : Prop :=
  ∃ fault ∈ faults.toList, fault.Leaf path leaf

namespace Run

variable {run : Schema → Value → Option Outcome}

/-! ### Collecting -/

private theorem toList_of_ofList? {list : List Fault} {faults : Faults}
    (made : Faults.ofList? list = some faults) : faults.toList = list := by
  cases list with
  | nil => cases made
  | cons fault rest =>
      cases made
      exact Faults.toList_ofCons fault rest

private theorem mem_of_mem_faultsOf {α : Type} {fault : Fault} {all : List (Except Fault α)}
    (among : fault ∈ faultsOf all) : .error fault ∈ all := by
  induction all with
  | nil => cases among
  | cons result rest ih =>
      cases result with
      | ok value => exact List.mem_cons_of_mem _ (ih among)
      | error other =>
          rcases List.mem_cons.mp among with rfl | later
          · exact List.mem_cons_self
          · exact List.mem_cons_of_mem _ (ih later)

private theorem mem_of_results {α : Type} {mode : FaultMode}
    {steps : List (Option (Except Fault α))}
    {all : List (Except Fault α)} (found : results mode steps = some all) {result : Except Fault α}
    (among : result ∈ all) : some result ∈ steps := by
  induction steps generalizing all with
  | nil =>
      cases found
      cases among
  | cons step rest ih =>
      obtain ⟨head, rfl, after⟩ := Option.bind_eq_some_iff.mp found
      have goesOn : ∀ others, results mode rest = some others → all = head :: others →
          some result ∈ some head :: rest := by
        rintro others later rfl
        rcases List.mem_cons.mp among with rfl | inOthers
        · exact List.mem_cons_self
        · exact List.mem_cons_of_mem _ (ih later inOthers)
      cases head with
      | ok value =>
          obtain ⟨others, later, made⟩ := Option.bind_eq_some_iff.mp after
          cases made
          exact goesOn others later rfl
      | error fault =>
          cases mode with
          | first =>
              cases after
              rw [List.mem_singleton.mp among]
              exact List.mem_cons_self
          | all =>
              obtain ⟨others, later, made⟩ := Option.bind_eq_some_iff.mp after
              cases made
              exact goesOn others later rfl

/-- A level that fails tells the faults of the results it has got. -/
private theorem results_of_collect {α β : Type} {mode : FaultMode}
    {steps : List (Option (Except Fault α))}
    {function : List α → β} {failure : Faults}
    (found : (do return (← collect mode steps).map function) = some (.error failure)) :
    ∃ all, results mode steps = some all ∧ failure.toList = faultsOf all := by
  obtain ⟨outcome, collected, made⟩ := Option.bind_eq_some_iff.mp found
  obtain ⟨all, reached, settled⟩ := Option.bind_eq_some_iff.mp collected
  simp only [pure, Option.some.injEq, settle] at settled
  cases faulty : Faults.ofList? (faultsOf all) with
  | none =>
      rw [faulty] at settled
      rw [← settled] at made
      cases made
  | some faults =>
      rw [faulty] at settled
      rw [← settled] at made
      cases made
      exact ⟨all, reached, toList_of_ofList? faulty⟩

private theorem fault_of_collect {α β : Type} {mode : FaultMode}
    {steps : List (Option (Except Fault α))}
    {function : List α → β} {failure : Faults}
    (found : (do return (← collect mode steps).map function) = some (.error failure)) {fault : Fault}
    (among : fault ∈ failure.toList) : some (.error fault) ∈ steps := by
  obtain ⟨all, reached, told⟩ := results_of_collect found
  rw [told] at among
  exact mem_of_results reached (mem_of_mem_faultsOf among)

/-- A run that goes on after faults takes all steps. -/
private theorem eq_of_results_all {α : Type} {steps : List (Option (Except Fault α))}
    {all : List (Except Fault α)} (found : results .all steps = some all) :
    steps = all.map some := by
  induction steps generalizing all with
  | nil =>
      cases found
      rfl
  | cons step rest ih =>
      obtain ⟨head, rfl, after⟩ := Option.bind_eq_some_iff.mp found
      cases head <;>
        · obtain ⟨others, later, made⟩ := Option.bind_eq_some_iff.mp after
          cases made
          rw [List.map_cons, ih later]

/-- Where all faults are collected no step is left out, and the faults of all steps are told. -/
theorem steps_of_collect_all {α β : Type} {steps : List (Option (Except Fault α))}
    {function : List α → β} {failure : Faults}
    (found : (do return (← collect .all steps).map function) = some (.error failure)) :
    ∃ all : List (Except Fault α), steps = all.map some ∧ failure.toList = faultsOf all := by
  obtain ⟨all, reached, told⟩ := results_of_collect found
  exact ⟨all, eq_of_results_all reached, told⟩

/-- A step whose own part does not fail like this has the faults of the run in it. -/
private theorem faults_of_bind {α : Type} {ran : Option Outcome}
    {next : Value → Option (Except Fault α)}
    {wrap : Faults → Fault} {fault : Fault}
    (found : (do
      match ← ran with
      | .ok value => next value
      | .error faults => return .error (wrap faults)) = some (.error fault))
    (succeeds : ∀ value, next value ≠ some (.error fault)) :
    ∃ faults, ran = some (.error faults) ∧ fault = wrap faults := by
  obtain ⟨outcome, reached, after⟩ := Option.bind_eq_some_iff.mp found
  cases outcome with
  | ok value => exact absurd after (succeeds value)
  | error faults =>
      cases after
      exact ⟨faults, reached, rfl⟩

/-! ### Tuples -/

inductive TupleFault (run : Schema → Value → Option Outcome) (elements : List (Element Schema))
    (rest : List Schema) (items : List Value) : Fault → Prop where
  | missing {position : Nat} (absent : items.length ≤ position)
      (required : position < requiredCount elements rest) :
      TupleFault run elements rest items (.index position (.single .missing))
  | unexpected {position : Nat} {item : Value} (closed : rest = [])
      (beyond : elements.length ≤ position) (atPosition : items[position]? = some item) :
      TupleFault run elements rest items (.index position (.single (.unexpected item)))
  | item {position : Nat} {schema : Schema} {item : Value} {faults : Faults}
      (inSlots : (slots elements rest items.length)[position]? = some schema)
      (atPosition : items[position]? = some item) (ran : run schema item = some (.error faults)) :
      TupleFault run elements rest items (.index position faults)

private theorem fault_of_itemSteps {first : Nat} {schemas : List Schema} {items : List Value}
    {fault : Fault}
    (failed : some (.error fault) ∈ itemSteps run first schemas items) :
    ∃ position schema item faults, schemas[position]? = some schema ∧
      items[position]? = some item ∧ run schema item = some (.error faults) ∧
      fault = .index (first + position) faults := by
  induction schemas generalizing first items with
  | nil => cases failed
  | cons schema schemas ih =>
      cases items with
      | nil => cases failed
      | cons item items =>
          rcases List.mem_cons.mp failed with here | later
          · obtain ⟨faults, ran, rfl⟩ := faults_of_bind here.symm nofun
            exact ⟨0, schema, item, faults, rfl, rfl, ran, rfl⟩
          · obtain ⟨position, other, otherItem, faults, inSchemas, inItems, ran, rfl⟩ := ih later
            refine ⟨position + 1, other, otherItem, faults, inSchemas, inItems, ran, ?_⟩
            rw [Nat.add_assoc, Nat.add_comm 1]

private theorem fault_of_excessItems {first : Nat} {items : List Value} {fault : Fault}
    (failed : some (.error fault) ∈ (excessItems first items : List (Option (Except Fault Value)))) :
    ∃ position item, items[position]? = some item ∧
      fault = .index (first + position) (.single (.unexpected item)) := by
  induction items generalizing first with
  | nil => cases failed
  | cons item rest ih =>
      rcases List.mem_cons.mp failed with here | later
      · cases here
        exact ⟨0, item, rfl, rfl⟩
      · obtain ⟨position, other, inRest, rfl⟩ := ih later
        refine ⟨position + 1, other, inRest, ?_⟩
        rw [Nat.add_assoc, Nat.add_comm 1]

theorem fault_of_tuple {mode : FaultMode} {elements : List (Element Schema)} {rest : List Schema}
    {items : List Value} {failure : Faults}
    (found : tuple run mode elements rest items = some (.error failure)) {fault : Fault}
    (among : fault ∈ failure.toList) : TupleFault run elements rest items fault := by
  rcases List.mem_append.mp (fault_of_collect found among) with number | item
  · rcases List.mem_append.mp number with missing | excess
    · obtain ⟨position, inRange, made⟩ := List.mem_map.mp missing
      cases made
      have bounds := List.mem_range'_1.mp inRange
      exact .missing bounds.1 (by omega)
    · cases rest with
      | nil =>
          obtain ⟨position, item, inItems, rfl⟩ := fault_of_excessItems excess
          rw [List.getElem?_drop] at inItems
          exact .unexpected rfl (Nat.le_add_right _ _) inItems
      | cons repeated trailing =>
          rw [List.isEmpty_cons, if_neg Bool.false_ne_true] at excess
          cases excess
  · obtain ⟨position, schema, item, faults, inSlots, inItems, ran, rfl⟩ := fault_of_itemSteps item
    rw [Nat.zero_add]
    exact .item inSlots inItems ran

/-! ### Structs -/

inductive StructFault (run decodeKey : Schema → Value → Option Outcome) (options : Options)
    (fields : List (Field Schema)) (indexes : List (IndexSignature Schema)) (members : Members) :
    Fault → Prop where
  | unexpected {member : PropertyKey × Value} (strict : options.excess = .error)
      (inMembers : member ∈ members) (undeclared : isDeclared fields member.1 = false)
      (untaken : takesKey decodeKey member.1 indexes = some false) :
      StructFault run decodeKey options fields indexes members
        (.key member.1 (.single (.unexpected member.2)))
  | missing {field : Field Schema} (inFields : field ∈ fields)
      (absent : Table.find? field.name members = none) (required : field.optional = false)
      (rejected : options.exact = true ∨
        ∃ faults, run field.schema .undefined = some (.error faults)) :
      StructFault run decodeKey options fields indexes members (.key field.name (.single .missing))
  | field {field : Field Schema} {value : Value} {faults : Faults} (inFields : field ∈ fields)
      (present : Table.find? field.name members = some value)
      (ran : run field.schema value = some (.error faults)) :
      StructFault run decodeKey options fields indexes members (.key field.name faults)
  | parameter {index : IndexSignature Schema} {member : PropertyKey × Value} {faults : Faults}
      (inIndexes : index ∈ indexes) (about : member ∈ indexMembers fields index members)
      (ran : run index.parameter member.1.toValue = some (.error faults)) :
      StructFault run decodeKey options fields indexes members (.key member.1 faults)
  | index {index : IndexSignature Schema} {member : PropertyKey × Value} {faults : Faults}
      (inIndexes : index ∈ indexes) (about : member ∈ indexMembers fields index members)
      (ran : run index.schema member.2 = some (.error faults)) :
      StructFault run decodeKey options fields indexes members (.key member.1 faults)

section Structs

variable {decodeKey : Schema → Value → Option Outcome} {options : Options}
  {fields : List (Field Schema)} {indexes : List (IndexSignature Schema)} {members : Members}
  {fault : Fault}

theorem fault_of_excessStep {member : PropertyKey × Value}
    (failed : excessStep decodeKey fields indexes member = some (.error fault)) :
    isDeclared fields member.1 = false ∧ takesKey decodeKey member.1 indexes = some false ∧
      fault = .key member.1 (.single (.unexpected member.2)) := by
  unfold excessStep at failed
  by_cases known : isDeclared fields member.1 = true
  · rw [if_pos known] at failed
    cases failed
  · rw [if_neg known] at failed
    obtain ⟨taken, takes, after⟩ := Option.bind_eq_some_iff.mp failed
    cases taken with
    | true => cases after
    | false =>
        cases after
        exact ⟨by simpa using known, takes, rfl⟩

/-- A field that fails is there and is rejected, or is missing. -/
theorem fieldStep_cases {exact : Bool} {field : Field Schema}
    (failed : fieldStep? run exact members field = some (some (.error fault))) :
    (∃ value faults, Table.find? field.name members = some value ∧
      run field.schema value = some (.error faults) ∧ fault = .key field.name faults) ∨
    (Table.find? field.name members = none ∧ field.optional = false ∧
      (exact = true ∨ ∃ faults, run field.schema .undefined = some (.error faults)) ∧
      fault = .key field.name (.single .missing)) := by
  unfold fieldStep? at failed
  cases present : Table.find? field.name members with
  | some value =>
      rw [present] at failed
      obtain ⟨faults, ran, rfl⟩ := faults_of_bind (Option.some.inj failed) nofun
      exact Or.inl ⟨value, faults, rfl, ran, rfl⟩
  | none =>
      rw [present] at failed
      by_cases optional : field.optional = true
      · simp only [if_pos optional] at failed
        cases failed
      · have required : field.optional = false := by simpa using optional
        simp only [if_neg optional] at failed
        by_cases strict : exact = true
        · rw [if_pos strict] at failed
          cases failed
          exact Or.inr ⟨rfl, required, Or.inl strict, rfl⟩
        · simp only [if_neg strict, Option.some.injEq] at failed
          obtain ⟨outcome, ran, after⟩ := Option.bind_eq_some_iff.mp failed
          cases outcome with
          | ok value => cases after
          | error faults =>
              cases after
              exact Or.inr ⟨rfl, required, Or.inr ⟨faults, ran⟩, rfl⟩

private theorem fault_of_fieldStep {field : Field Schema} (inFields : field ∈ fields)
    (failed : fieldStep? run options.exact members field = some (some (.error fault))) :
    StructFault run decodeKey options fields indexes members fault := by
  rcases fieldStep_cases failed with
    ⟨value, faults, present, ran, rfl⟩ | ⟨absent, required, rejected, rfl⟩
  · exact .field inFields present ran
  · exact .missing inFields absent required rejected

/-- An index signature that fails rejects the key or the value. -/
theorem indexStep_cases {index : IndexSignature Schema} {member : PropertyKey × Value}
    (failed : indexStep run index member = some (.error fault)) :
    ∃ faults, fault = .key member.1 faults ∧
      (run index.parameter member.1.toValue = some (.error faults) ∨
        run index.schema member.2 = some (.error faults)) := by
  obtain ⟨outcome, ran, after⟩ := Option.bind_eq_some_iff.mp failed
  cases outcome with
  | error faults =>
      cases after
      exact ⟨faults, rfl, Or.inl ran⟩
  | ok key =>
      obtain ⟨faults, schemaRan, rfl⟩ := faults_of_bind after nofun
      exact ⟨faults, rfl, Or.inr schemaRan⟩

private theorem fault_of_indexStep {index : IndexSignature Schema} {member : PropertyKey × Value}
    (inIndexes : index ∈ indexes) (about : member ∈ indexMembers fields index members)
    (failed : indexStep run index member = some (.error fault)) :
    StructFault run decodeKey options fields indexes members fault := by
  obtain ⟨faults, rfl, ran | ran⟩ := indexStep_cases failed
  · exact .parameter inIndexes about ran
  · exact .index inIndexes about ran

theorem fault_of_struct {failure : Faults}
    (found : struct run decodeKey options fields indexes members = some (.error failure))
    (among : fault ∈ failure.toList) :
    StructFault run decodeKey options fields indexes members fault := by
  rcases List.mem_append.mp (fault_of_collect found among) with front | indexed
  · rcases List.mem_append.mp front with excess | declared
    · by_cases strict : options.excess = .error
      · rw [if_pos strict] at excess
        obtain ⟨member, inMembers, made⟩ := List.mem_map.mp excess
        obtain ⟨undeclared, untaken, rfl⟩ := fault_of_excessStep made
        exact .unexpected strict inMembers undeclared untaken
      · rw [if_neg strict] at excess
        cases excess
    · obtain ⟨field, inFields, made⟩ := List.mem_filterMap.mp declared
      exact fault_of_fieldStep inFields made
  · obtain ⟨index, inIndexes, inBlock⟩ := List.mem_flatMap.mp indexed
    obtain ⟨member, about, made⟩ := List.mem_map.mp inBlock
    exact fault_of_indexStep inIndexes about made

end Structs

/-! ### Unions -/

inductive TagFault (object : Members) (entry : PropertyKey × TagGroup) : Fault → Prop where
  | missing (absent : Table.find? entry.1 object = none) :
      TagFault object entry (.key entry.1 (.single .missing))
  | unknown {value : Value} (present : Table.find? entry.1 object = some value)
      (unlisted : Table.find? value.display entry.2.buckets = none) :
      TagFault object entry (.key entry.1 (.single (.mismatch entry.2.union.expected value)))

inductive UnionFault (run : Schema → Value → Option Outcome) (members : List Schema)
    (input : Value) : Fault → Prop where
  | tagMissing {object : Members} {key : PropertyKey} (isObject : input = .object object)
      (absent : Table.find? key object = none) :
      UnionFault run members input (.key key (.single .missing))
  | tagUnknown {object : Members} {key : PropertyKey} {value : Value} (expected : Expected)
      (isObject : input = .object object) (present : Table.find? key object = some value) :
      UnionFault run members input (.key key (.single (.mismatch expected value)))
  /-- The value is no object, or there is nothing to try. -/
  | mismatch (expected : Expected) : UnionFault run members input (.mismatch expected input)
  | member {member : Schema} {faults : Faults} (inMembers : member ∈ members)
      (ran : run member input = some (.error faults)) :
      UnionFault run members input (.unionMember faults)

section Unions

variable {members : List Schema} {input : Value} {fault : Fault}

theorem tagFault_of_groupCandidates {object : Members} {entry : PropertyKey × TagGroup}
    (chosen : groupCandidates object entry = .error fault) : TagFault object entry fault := by
  unfold groupCandidates at chosen
  cases present : Table.find? entry.1 object with
  | none =>
      simp only [present] at chosen
      cases chosen
      exact .missing present
  | some value =>
      simp only [present] at chosen
      cases listed : Table.find? value.display entry.2.buckets with
      | none =>
          simp only [listed] at chosen
          cases chosen
          exact .unknown present listed
      | some bucket =>
          simp only [listed] at chosen
          cases chosen

private theorem fault_of_tagCandidates {object : Members} {groups : List (PropertyKey × TagGroup)}
    (among : fault ∈ (tagCandidates object groups).1) :
    UnionFault run members (.object object) fault := by
  induction groups with
  | nil => cases among
  | cons entry rest ih =>
      rw [tagCandidates] at among
      cases chosen : groupCandidates object entry with
      | ok bucket =>
          rw [chosen] at among
          exact ih among
      | error other =>
          rw [chosen] at among
          rcases List.mem_cons.mp among with rfl | later
          · cases tagFault_of_groupCandidates chosen with
            | missing absent => exact .tagMissing rfl absent
            | unknown present _ => exact .tagUnknown _ rfl present
          · exact ih later

private theorem fault_of_candidates {index : TagIndex}
    (among : fault ∈ (candidates index input).1) :
    UnionFault run members input fault := by
  unfold candidates at among
  split at among
  · cases among
  · split at among
    · exact fault_of_tagCandidates among
    · rw [List.mem_singleton.mp among]
      exact .mismatch _

private theorem fault_of_firstOf {faults : List Fault} {schemas : List Schema} {failure : Faults}
    (found : firstOf run input faults schemas = some (.error failure))
    (tried : ∀ schema ∈ schemas, schema ∈ members)
    (before : ∀ fault ∈ faults, UnionFault run members input fault)
    (among : fault ∈ failure.toList) : UnionFault run members input fault := by
  induction schemas generalizing faults with
  | nil =>
      simp only [firstOf, pure, Option.some.injEq] at found
      split at found
      · rename_i reported made
        cases found
        rw [toList_of_ofList? made] at among
        exact before fault (List.mem_reverse.mp among)
      · cases found
        rw [List.mem_singleton.mp among]
        exact .mismatch _
  | cons schema rest ih =>
      obtain ⟨outcome, ran, after⟩ := Option.bind_eq_some_iff.mp found
      cases outcome with
      | ok value => cases after
      | error inner =>
          have here := tried schema List.mem_cons_self
          apply ih after fun other inRest => tried other (List.mem_cons_of_mem _ inRest)
          exact List.forall_mem_cons.mpr ⟨.member here ran, before⟩

theorem fault_of_union {direction : Direction} {failure : Faults}
    (found : union run direction members input = some (.error failure))
    (among : fault ∈ failure.toList) : UnionFault run members input fault := by
  apply fault_of_firstOf found
  · intro schema inOrder
    obtain ⟨position, _, atPosition⟩ := List.mem_filterMap.mp inOrder
    exact List.mem_of_getElem? atPosition
  · intro other inReverse
    exact fault_of_candidates (List.mem_reverse.mp inReverse)
  · exact among

end Unions

end Run

end SchemaCodec
