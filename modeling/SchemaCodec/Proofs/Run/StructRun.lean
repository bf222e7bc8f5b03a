import SchemaCodec.Proofs.Run.Ending
import SchemaCodec.Proofs.Run.Failure
import SchemaCodec.Proofs.Run.Layout

/-!
What the run of a struct comes to, key by key. Some keys stand in the way of success; a run that
collects all faults names exactly these, and where there are none it looks each key of the output up
in one place: a field, the last index signature that is about the key, or the object itself.
-/

namespace SchemaCodec.Run

open Table (keys)

/-- The last of the index signatures that are about the key. -/
def lastAbout (key : PropertyKey) (indexes : List (IndexSignature Schema)) :
    Option (IndexSignature Schema) :=
  (indexes.filter fun index => keyFits key index.parameter).getLast?

/-- The keys that stand in the way of success. -/
inductive Offending (run decodeKey : Schema → Value → Option Outcome) (options : Options)
    (fields : List (Field Schema)) (indexes : List (IndexSignature Schema)) (members : Members) :
    PropertyKey → Prop where
  | field {field : Field Schema} {value : Value} {faults : Faults} (inFields : field ∈ fields)
      (present : Table.find? field.name members = some value)
      (ran : run field.schema value = some (.error faults)) :
      Offending run decodeKey options fields indexes members field.name
  | missing {field : Field Schema} (inFields : field ∈ fields)
      (absent : Table.find? field.name members = none) (required : field.optional = false)
      (rejected : options.exact = true ∨
        ∃ faults, run field.schema .undefined = some (.error faults)) :
      Offending run decodeKey options fields indexes members field.name
  /-- An index signature of the key's kind rejects the key or the value. -/
  | index {index : IndexSignature Schema} {key : PropertyKey} {value : Value} {faults : Faults}
      (inIndexes : index ∈ indexes) (fits : keyFits key index.parameter = true)
      (undeclared : key ∉ fields.map Field.name)
      (present : Table.find? key members = some value)
      (ran : run index.parameter key.toValue = some (.error faults) ∨
        run index.schema value = some (.error faults)) :
      Offending run decodeKey options fields indexes members key
  /-- No index signature of the key's kind decodes the key, and nothing unexpected may be there. -/
  | uncovered {key : PropertyKey} {value : Value} (strict : options.excess = .error)
      (undeclared : key ∉ fields.map Field.name)
      (present : Table.find? key members = some value)
      (untaken : ∀ index ∈ indexes, keyFits key index.parameter = true →
        ∃ faults, decodeKey index.parameter key.toValue = some (.error faults)) :
      Offending run decodeKey options fields indexes members key

/-- What a field contributes: its parsed value if it is present, and what its schema makes of
undefined if it is required and absent. -/
inductive FieldGives (run : Schema → Value → Option Outcome) (members : Members)
    (field : Field Schema) : Value → Prop where
  | parsed {value result : Value} (present : Table.find? field.name members = some value)
      (ran : run field.schema value = some (.ok result)) : FieldGives run members field result
  | supplied {result : Value} (absent : Table.find? field.name members = none)
      (required : field.optional = false)
      (ran : run field.schema .undefined = some (.ok result)) : FieldGives run members field result

inductive HasEntry (run : Schema → Value → Option Outcome) (options : Options)
    (fields : List (Field Schema)) (indexes : List (IndexSignature Schema)) (members : Members) :
    PropertyKey → Value → Prop where
  | field {field : Field Schema} {result : Value} (inFields : field ∈ fields)
      (gives : FieldGives run members field result) :
      HasEntry run options fields indexes members field.name result
  | index {index : IndexSignature Schema} {key : PropertyKey} {value result : Value}
      (undeclared : key ∉ fields.map Field.name) (last : lastAbout key indexes = some index)
      (present : Table.find? key members = some value)
      (ran : run index.schema value = some (.ok result)) :
      HasEntry run options fields indexes members key result
  | preserved {key : PropertyKey} {value : Value} (preserving : options.excess = .preserve)
      (undeclared : key ∉ fields.map Field.name) (unfit : lastAbout key indexes = none)
      (present : Table.find? key members = some value) :
      HasEntry run options fields indexes members key value

variable {run decodeKey : Schema → Value → Option Outcome} {options : Options}
  {fields : List (Field Schema)} {indexes : List (IndexSignature Schema)} {members : Members}
  {key : PropertyKey}

private theorem lastAbout_cons (index : IndexSignature Schema) :
    lastAbout key (index :: indexes) =
      (lastAbout key indexes).or (if keyFits key index.parameter then some index else none) := by
  simp only [lastAbout, List.filter_cons]
  split
  · rw [List.getLast?_cons]
    cases (indexes.filter fun index => keyFits key index.parameter).getLast? <;> rfl
  · rw [Option.or_none]

private theorem mem_of_lastAbout {index : IndexSignature Schema}
    (last : lastAbout key indexes = some index) :
    index ∈ indexes ∧ keyFits key index.parameter = true :=
  List.mem_filter.mp (List.mem_of_getLast? last)

/-! ### Steps that fail -/

def structSteps (run decodeKey : Schema → Value → Option Outcome) (options : Options)
    (fields : List (Field Schema)) (indexes : List (IndexSignature Schema)) (members : Members) :
    List (Option MemberResult) :=
  (if options.excess = .error then members.map (excessStep decodeKey fields indexes) else []) ++
    fields.filterMap (fieldStep? run options.exact members) ++
    indexes.flatMap fun index => (indexMembers fields index members).map (indexStep run index)

theorem mem_structSteps {step : Option MemberResult} :
    step ∈ structSteps run decodeKey options fields indexes members ↔
      (options.excess = .error ∧ ∃ member ∈ members,
        excessStep decodeKey fields indexes member = step) ∨
      (∃ field ∈ fields, fieldStep? run options.exact members field = some step) ∨
      ∃ index ∈ indexes, ∃ member ∈ indexMembers fields index members,
        indexStep run index member = step := by
  have excess : step ∈ (if options.excess = .error then
      members.map (excessStep decodeKey fields indexes) else []) ↔
      options.excess = .error ∧ ∃ member ∈ members,
        excessStep decodeKey fields indexes member = step := by
    split <;> simp [*]
  simp only [structSteps, List.mem_append, excess, List.mem_filterMap, List.mem_flatMap,
    List.mem_map, or_assoc]

theorem takesKey_eq_false (untaken : ∀ index ∈ indexes, keyFits key index.parameter = true →
      ∃ faults, decodeKey index.parameter key.toValue = some (.error faults)) :
    takesKey decodeKey key indexes = some false := by
  induction indexes with
  | nil => rfl
  | cons index rest ih =>
      have later := ih fun other inRest => untaken other (List.mem_cons_of_mem _ inRest)
      rw [takesKey]
      split
      · rename_i fits
        obtain ⟨faults, failed⟩ := untaken index List.mem_cons_self fits
        rw [failed]
        exact later
      · exact later

private theorem fieldStep_missing {field : Field Schema}
    (absent : Table.find? field.name members = none)
    (required : field.optional = false) {exact : Bool}
    (rejected : exact = true ∨ ∃ faults, run field.schema .undefined = some (.error faults)) :
    fieldStep? run exact members field =
      some (some (.error (.key field.name (.single .missing)))) := by
  cases exact with
  | true =>
      simp only [fieldStep?, absent, required]
      rfl
  | false =>
      obtain ⟨faults, ran⟩ := rejected.resolve_left Bool.false_ne_true
      simp only [fieldStep?, absent, required, ran]
      rfl

/-- A step that gives no member; what it may report is about the key. -/
def RefusesKey (key : PropertyKey) (step : Option MemberResult) : Prop :=
  ∀ result, step = some result → ∃ faults, result = .error (.key key faults)

theorem indexStep_refusesKey {index : IndexSignature Schema} {value : Value} {faults : Faults}
    (ran : run index.parameter key.toValue = some (.error faults) ∨
      run index.schema value = some (.error faults)) :
    RefusesKey key (indexStep run index (key, value)) := by
  intro result stepped
  obtain ⟨outcome, parameterRan, after⟩ := Option.bind_eq_some_iff.mp stepped
  cases outcome with
  | error others =>
      cases after
      exact ⟨others, rfl⟩
  | ok _ =>
      rcases ran with keyFailed | valueFailed
      · cases keyFailed.symm.trans parameterRan
      · simp only [valueFailed] at after
        cases after
        exact ⟨faults, rfl⟩

/-- A key that stands in the way makes a step fail. -/
private theorem exists_step_of_offending
    (offending : Offending run decodeKey options fields indexes members key) :
    ∃ step ∈ structSteps run decodeKey options fields indexes members, RefusesKey key step := by
  have ofError : ∀ faults, RefusesKey key (some (.error (.key key faults))) := by
    rintro faults result same
    cases same
    exact ⟨faults, rfl⟩
  cases offending with
  | @field field value faults inFields present ran =>
      refine ⟨_, mem_structSteps.mpr (Or.inr (Or.inl ⟨field, inFields, ?_⟩)), ofError faults⟩
      simp only [fieldStep?, present, ran]
      rfl
  | @missing field inFields absent required rejected =>
      have step := fieldStep_missing absent required rejected
      exact ⟨_, mem_structSteps.mpr (Or.inr (Or.inl ⟨field, inFields, step⟩)), ofError _⟩
  | @index index _ value faults inIndexes fits undeclared present ran =>
      have about : (key, value) ∈ indexMembers fields index members :=
        mem_indexMembers.mpr ⟨Table.mem_of_find? present, fits, undeclared⟩
      exact ⟨_, mem_structSteps.mpr (Or.inr (Or.inr ⟨index, inIndexes, _, about, rfl⟩)),
        indexStep_refusesKey ran⟩
  | @uncovered _ value strict undeclared present untaken =>
      have unknown : ¬isDeclared fields key = true := fun known =>
        undeclared (isDeclared_eq_true_iff.mp known)
      have inMembers := Table.mem_of_find? present
      refine ⟨_, mem_structSteps.mpr (Or.inl ⟨strict, _, inMembers, ?_⟩),
        ofError (.single (.unexpected value))⟩
      simp only [excessStep, if_neg unknown, takesKey_eq_false untaken]
      rfl

/-! ### Outcomes and offending keys -/

theorem struct_eq_collect :
    struct run decodeKey options fields indexes members = do
      let outcome ←
        collect options.faults (structSteps run decodeKey options fields indexes members)
      return outcome.map fun results => .object
        (structOutput options.excess members (results.filterMap fun result => result)) :=
  rfl

/-- Where the run succeeds no key stands in the way. -/
private theorem not_offending_of_ok {value : Value}
    (ran : struct run decodeKey options fields indexes members = some (.ok value)) :
    ¬Offending run decodeKey options fields indexes members key := by
  intro offending
  obtain ⟨step, inSteps, fails⟩ := exists_step_of_offending offending
  rw [struct_eq_collect] at ran
  obtain ⟨values, succeed, _⟩ := (collect_map_eq_ok_iff _ _ _ _).mp ran
  obtain ⟨value, _, ok⟩ := exists_of_forall₂ succeed.flip inSteps
  obtain ⟨faults, failed⟩ := fails _ ok
  cases failed

/-- A run that collects all faults names each key that stands in the way. -/
theorem fault_of_offending {failure : Faults} (collecting : options.faults = .all)
    (found : struct run decodeKey options fields indexes members = some (.error failure))
    (offending : Offending run decodeKey options fields indexes members key) :
    ∃ faults, .key key faults ∈ failure.toList := by
  obtain ⟨step, inSteps, fails⟩ := exists_step_of_offending offending
  rw [struct_eq_collect, collecting] at found
  obtain ⟨all, taken, told⟩ := steps_of_collect_all found
  rw [taken] at inSteps
  obtain ⟨result, inAll, rfl⟩ := List.mem_map.mp inSteps
  obtain ⟨faults, rfl⟩ := fails result rfl
  rw [told]
  exact ⟨faults, mem_faultsOf inAll⟩

/-- Each fault names a key that stands in the way. -/
theorem offending_of_fault (distinct : (keys members).Nodup) {fault : Fault}
    (told : StructFault run decodeKey options fields indexes members fault) :
    ∃ key faults, fault = .key key faults ∧
      Offending run decodeKey options fields indexes members key := by
  cases told with
  | unexpected strict inMembers undeclared untaken =>
      refine ⟨_, _, rfl, .uncovered strict ?_ (Table.find?_of_mem distinct inMembers) ?_⟩
      · rw [← isDeclared_eq_true_iff, undeclared]
        exact Bool.false_ne_true
      · exact fun index inIndexes fits => error_of_takesKey untaken inIndexes fits
  | missing inFields absent required rejected =>
      exact ⟨_, _, rfl, .missing inFields absent required rejected⟩
  | field inFields present ran => exact ⟨_, _, rfl, .field inFields present ran⟩
  | parameter inIndexes about ran =>
      obtain ⟨inMembers, fits, undeclared⟩ := mem_indexMembers.mp about
      have present := Table.find?_of_mem distinct inMembers
      exact ⟨_, _, rfl, .index inIndexes fits undeclared present (Or.inl ran)⟩
  | index inIndexes about ran =>
      obtain ⟨inMembers, fits, undeclared⟩ := mem_indexMembers.mp about
      have present := Table.find?_of_mem distinct inMembers
      exact ⟨_, _, rfl, .index inIndexes fits undeclared present (Or.inr ran)⟩

/-! ### The output -/

theorem FieldsYield.mem_iff {exact : Bool} {entries : Members}
    (yields : FieldsYield run exact members fields entries) {result : Value} :
    (key, result) ∈ entries ↔
      ∃ field ∈ fields, field.name = key ∧ FieldGives run members field result := by
  induction yields with
  | nil => simp
  | @present field fields entries value made found ran _ ih =>
      rw [List.mem_cons, ih]
      simp only [List.mem_cons, exists_eq_or_imp]
      refine or_congr_left ⟨fun same => ?_, fun ⟨named, gives⟩ => ?_⟩
      · cases same
        exact ⟨rfl, .parsed found ran⟩
      · cases gives with
        | parsed present other =>
            cases found.symm.trans present
            cases ran.symm.trans other
            rw [named]
        | supplied absent _ _ => cases found.symm.trans absent
  | @leftOut field fields entries absent optional _ ih =>
      rw [ih]
      simp only [List.mem_cons, exists_eq_or_imp]
      refine ⟨Or.inr, fun either => either.resolve_left fun ⟨_, gives⟩ => ?_⟩
      cases gives with
      | parsed present _ => cases absent.symm.trans present
      | supplied _ required _ => cases optional.symm.trans required
  | @supplied field fields entries made absent required loose ran _ ih =>
      rw [List.mem_cons, ih]
      simp only [List.mem_cons, exists_eq_or_imp]
      refine or_congr_left ⟨fun same => ?_, fun ⟨named, gives⟩ => ?_⟩
      · cases same
        exact ⟨rfl, .supplied absent required ran⟩
      · cases gives with
        | parsed present _ => cases absent.symm.trans present
        | supplied _ _ other =>
            cases ran.symm.trans other
            rw [named]

/-- The entries that one index signature makes. -/
private theorem find?_block (distinct : (keys members).Nodup) {index : IndexSignature Schema}
    {block : Members}
    (head : List.Forall₂ (EntryYields run index) (indexMembers fields index members) block)
    {result : Value} :
    Table.find? key (Table.ofEntries block) = some result ↔
      key ∉ fields.map Field.name ∧ keyFits key index.parameter = true ∧
        ∃ value, Table.find? key members = some value ∧
          run index.schema value = some (.ok result) := by
  have nodup := nodup_block distinct head
  rw [Table.ofEntries_of_nodup nodup]
  constructor
  · intro found
    obtain ⟨member, about, made⟩ := exists_of_forall₂ head (Table.mem_of_find? found)
    obtain ⟨inMembers, fits, undeclared⟩ := mem_indexMembers.mp about
    have same : key = member.1 := made.key
    rw [same]
    exact ⟨undeclared, fits, member.2, Table.find?_of_mem distinct inMembers, made.ran⟩
  · rintro ⟨undeclared, fits, value, present, ran⟩
    obtain ⟨entry, inBlock, made⟩ := exists_of_forall₂ head.flip
      (mem_indexMembers.mpr ⟨Table.mem_of_find? present, fits, undeclared⟩)
    have same : entry = (key, result) := Prod.ext made.key (by
      cases ran.symm.trans made.ran
      rfl)
    exact Table.find?_of_mem nodup (same ▸ inBlock)

/-- A member that some index signature is about has an entry. -/
private theorem find?_ne_none_of_lastAbout {entries : Members}
    (yields : IndexesYield run fields members indexes entries)
    (undeclared : key ∉ fields.map Field.name) {value : Value}
    (present : Table.find? key members = some value) {index : IndexSignature Schema}
    (last : lastAbout key indexes = some index) :
    Table.find? key (Table.ofEntries entries) ≠ none := by
  obtain ⟨inIndexes, fits⟩ := mem_of_lastAbout last
  obtain ⟨entry, inEntries, made⟩ := yields.exists_entry inIndexes
    (mem_indexMembers.mpr ⟨Table.mem_of_find? present, fits, undeclared⟩)
  intro none
  refine Table.find?_eq_none_iff.mp none (Table.mem_keys_ofEntries.mpr ?_)
  rw [← show entry.1 = key from made.key]
  exact List.mem_map_of_mem inEntries

/-- Of the entries of all index signatures the one of the last that is about the key stays. -/
private theorem find?_indexed (distinct : (keys members).Nodup) {entries : Members}
    (yields : IndexesYield run fields members indexes entries) {result : Value} :
    Table.find? key (Table.ofEntries entries) = some result ↔
      key ∉ fields.map Field.name ∧ ∃ index, lastAbout key indexes = some index ∧
        ∃ value, Table.find? key members = some value ∧
          run index.schema value = some (.ok result) := by
  induction yields generalizing result with
  | nil => simp [Table.ofEntries, Table.insertAll, Table.find?, lastAbout]
  | @cons index indexes block entries head tail ih =>
      rw [Table.ofEntries, Table.insertAll_append, Table.find?_insertAll, lastAbout_cons]
      change (Table.find? key (Table.ofEntries entries)).or
        (Table.find? key (Table.ofEntries block)) = some result ↔ _
      cases later : Table.find? key (Table.ofEntries entries) with
      | some value =>
          obtain ⟨undeclared, last, isLast, given, present, ran⟩ := ih.mp later
          rw [isLast]
          simp [undeclared, present, ran]
      | none =>
          rw [Option.none_or, find?_block distinct head]
          cases last : lastAbout key indexes with
          | none =>
              by_cases fits : keyFits key index.parameter = true <;> simp [fits]
          | some other =>
              have nowhere : ∀ value, key ∉ fields.map Field.name →
                  Table.find? key members ≠ some value := fun value undeclared present =>
                find?_ne_none_of_lastAbout tail undeclared present last later
              constructor
              · rintro ⟨undeclared, _, value, present, _⟩
                exact absurd present (nowhere value undeclared)
              · rintro ⟨undeclared, _, _, value, present, _⟩
                exact absurd present (nowhere value undeclared)

private theorem find?_preserve (output : Members) :
    Table.find? key (preserve output members) =
      (Table.find? key output).or (Table.find? key members) := by
  rw [preserve, Table.find?_append,
    Table.find?_filter (fun name => !Table.has name output) key members]
  cases there : Table.find? key output with
  | some value => rfl
  | none => simp [Table.has, there]

private theorem find?_written (declared indexed : Members) :
    Table.find? key (Table.ofEntries (declared ++ indexed)) =
      (Table.find? key (Table.ofEntries indexed)).or
        (Table.find? key (Table.ofEntries declared)) := by
  rw [Table.ofEntries, Table.insertAll_append, Table.find?_insertAll]
  rfl

private theorem find?_structOutput_parts {declared indexed : Members}
    (nodup : (keys declared).Nodup) (excess : ExcessPolicy) :
    Table.find? key (structOutput excess members (declared ++ indexed)) =
      ((Table.find? key (Table.ofEntries indexed)).or (Table.find? key declared)).or
        (if excess = .preserve then Table.find? key members else none) := by
  unfold structOutput
  split
  · rw [find?_preserve, find?_written, Table.ofEntries_of_nodup nodup]
  · rw [find?_written, Table.ofEntries_of_nodup nodup, Option.or_none]

private theorem find?_output_of_declared (distinctNames : (fields.map Field.name).Nodup)
    (distinct : (keys members).Nodup) {declared indexed : Members}
    (fieldsYield : FieldsYield run options.exact members fields declared)
    (indexesYield : IndexesYield run fields members indexes indexed)
    (isDeclared : key ∈ fields.map Field.name) {result : Value} :
    Table.find? key (structOutput options.excess members (declared ++ indexed)) = some result ↔
      HasEntry run options fields indexes members key result := by
  have nodup : (keys declared).Nodup := fieldsYield.keys_sublist.nodup distinctNames
  have unindexed : Table.find? key (Table.ofEntries indexed) = none := by
    by_contra found
    obtain ⟨value, found⟩ := Option.ne_none_iff_exists'.mp found
    exact ((find?_indexed distinct indexesYield).mp found).1 isDeclared
  rw [find?_structOutput_parts nodup, unindexed, Option.none_or]
  constructor
  · intro found
    cases given : Table.find? key declared with
    | some value =>
        rw [given] at found
        cases found
        obtain ⟨field, inFields, rfl, gives⟩ := fieldsYield.mem_iff.mp (Table.mem_of_find? given)
        exact .field inFields gives
    | none =>
        rw [given, Option.none_or] at found
        split at found
        · have present := Table.mem_keys (Table.mem_of_find? found)
          have absent := Table.find?_eq_none_iff.mp given
          exact absurd (fieldsYield.mem_keys isDeclared present) absent
        · cases found
  · intro produces
    cases produces with
    | field inFields gives =>
        have inDeclared := fieldsYield.mem_iff.mpr ⟨_, inFields, rfl, gives⟩
        rw [Table.find?_of_mem nodup inDeclared]
        rfl
    | index undeclared _ _ _ => exact absurd isDeclared undeclared
    | preserved _ undeclared _ _ => exact absurd isDeclared undeclared

private theorem find?_output_of_undeclared (distinctNames : (fields.map Field.name).Nodup)
    (distinct : (keys members).Nodup) {declared indexed : Members}
    (fieldsYield : FieldsYield run options.exact members fields declared)
    (indexesYield : IndexesYield run fields members indexes indexed)
    (undeclared : key ∉ fields.map Field.name) {result : Value} :
    Table.find? key (structOutput options.excess members (declared ++ indexed)) = some result ↔
      HasEntry run options fields indexes members key result := by
  have sublist := fieldsYield.keys_sublist
  have ungiven : Table.find? key declared = none :=
    Table.find?_eq_none_iff.mpr fun inDeclared => undeclared (sublist.subset inDeclared)
  rw [find?_structOutput_parts (sublist.nodup distinctNames), ungiven, Option.or_none]
  constructor
  · intro found
    cases made : Table.find? key (Table.ofEntries indexed) with
    | some value =>
        rw [made] at found
        cases found
        obtain ⟨_, index, last, given, present, ran⟩ := (find?_indexed distinct indexesYield).mp made
        exact .index undeclared last present ran
    | none =>
        rw [made, Option.none_or] at found
        split at found
        · rename_i preserving
          refine .preserved preserving undeclared ?_ found
          by_contra fits
          obtain ⟨index, last⟩ := Option.ne_none_iff_exists'.mp fits
          exact find?_ne_none_of_lastAbout indexesYield undeclared found last made
        · cases found
  · intro produces
    cases produces with
    | field inFields _ => exact absurd (List.mem_map_of_mem inFields) undeclared
    | index _ last present ran =>
        rw [(find?_indexed distinct indexesYield).mpr ⟨undeclared, _, last, _, present, ran⟩]
        rfl
    | preserved preserving _ unfit present =>
        have unindexed : Table.find? key (Table.ofEntries indexed) = none := by
          by_contra found
          obtain ⟨value, found⟩ := Option.ne_none_iff_exists'.mp found
          obtain ⟨_, index, last, _⟩ := (find?_indexed distinct indexesYield).mp found
          cases unfit.symm.trans last
        rw [unindexed, Option.none_or, if_pos preserving]
        exact present

/-- The object that a struct makes, key by key. -/
private theorem find?_output (distinctNames : (fields.map Field.name).Nodup)
    (distinct : (keys members).Nodup) {declared indexed : Members}
    (fieldsYield : FieldsYield run options.exact members fields declared)
    (indexesYield : IndexesYield run fields members indexes indexed) {result : Value} :
    Table.find? key (structOutput options.excess members (declared ++ indexed)) = some result ↔
      HasEntry run options fields indexes members key result := by
  by_cases isDeclared : key ∈ fields.map Field.name
  · exact find?_output_of_declared distinctNames distinct fieldsYield indexesYield isDeclared
  · exact find?_output_of_undeclared distinctNames distinct fieldsYield indexesYield isDeclared

/-! ### Runs of structs -/

/-- The runs of the fields on what they meet, and of the index signatures on the values that they are
about, come to an end. -/
structure PartsEnd (targets : Targets) (settings : Settings) (fields : List (Field Schema))
    (indexes : List (IndexSignature Schema)) (members : Members) : Prop where
  eachField : ∀ field ∈ fields, ∀ value, Meets field members value →
    Ends targets settings field.schema value
  eachIndex : ∀ index ∈ indexes, ∀ member ∈ indexMembers fields index members,
    Ends targets settings index.schema member.2

theorem struct_of_yields {targets : Targets} {settings : Settings} {schema : Schema}
    (isStruct : schema.kind = .struct fields indexes) (parts : ¬(fields = [] ∧ indexes = []))
    {outcome : Outcome} (yields : Yields targets settings schema (.object members) outcome) :
    struct (outcome? targets settings) (outcome? targets settings.decoding) settings.options fields
      indexes members = some outcome :=
  step_object isStruct parts members ▸ yields_iff_step.mp yields

private theorem ends_of_parts {targets : Targets} {settings : Settings} {schema : Schema}
    (isStruct : schema.kind = .struct fields indexes) (parts : ¬(fields = [] ∧ indexes = []))
    (wellFormed : schema.kind.WellFormed)
    (partsEnd : PartsEnd targets settings fields indexes members) :
    Ends targets settings schema (.object members) := by
  rw [isStruct] at wellFormed
  apply ends_of_step
  rw [step_object isStruct parts]
  refine struct_finishes (fun index inIndexes member _ => ?_) (fun field inFields value meets => ?_)
    fun index inIndexes member about => ⟨?_, ?_⟩
  · exact finishes_iff_ends.mpr (ends_key (wellFormed.2 index inIndexes) _)
  · exact finishes_iff_ends.mpr (partsEnd.eachField field inFields value meets)
  · exact finishes_iff_ends.mpr (ends_key (wellFormed.2 index inIndexes) _)
  · exact finishes_iff_ends.mpr (partsEnd.eachIndex index inIndexes member about)

private theorem ok_iff_not_offending {targets : Targets} {settings : Settings} {schema : Schema}
    (isStruct : schema.kind = .struct fields indexes) (parts : ¬(fields = [] ∧ indexes = []))
    (distinct : (keys members).Nodup) {outcome : Outcome}
    (yields : Yields targets settings schema (.object members) outcome) :
    (∃ value, outcome = .ok value) ↔
      ∀ key, ¬Offending (outcome? targets settings) (outcome? targets settings.decoding)
        settings.options fields indexes members key := by
  have ran := struct_of_yields isStruct parts yields
  constructor
  · rintro ⟨value, rfl⟩ key
    exact not_offending_of_ok ran
  · intro clean
    cases outcome with
    | ok value => exact ⟨value, rfl⟩
    | error failure =>
        obtain ⟨key, _, _, offending⟩ :=
          offending_of_fault distinct (fault_of_struct ran (first_mem_toList failure))
        exact absurd offending (clean key)

/-- The run of a struct that is not empty on an object. Where the runs of the parts come to an end it
does so too, and whenever it comes to an end it succeeds if and only if no key stands in its way. Then
the output has under each key what is to be found in one place. A run that collects all faults tells
nothing but the keys that stand in the way, and all of them. -/
theorem struct_run {targets : Targets} {settings : Settings} {schema : Schema}
    (isStruct : schema.kind = .struct fields indexes) (parts : ¬(fields = [] ∧ indexes = []))
    (wellFormed : schema.kind.WellFormed) (distinct : (keys members).Nodup) :
    (PartsEnd targets settings fields indexes members →
      Ends targets settings schema (.object members)) ∧
    (Ends targets settings schema (.object members) →
      ((∃ value, Yields targets settings schema (.object members) (.ok value)) ↔
        ∀ key, ¬Offending (outcome? targets settings) (outcome? targets settings.decoding)
          settings.options fields indexes members key)) ∧
    (∀ value, Yields targets settings schema (.object members) (.ok value) →
      ∃ output, value = .object output ∧ (keys output).Nodup ∧ ∀ key result,
        Table.find? key output = some result ↔
          HasEntry (outcome? targets settings) settings.options fields indexes members key
            result) ∧
    (settings.options.faults = .all →
      ∀ failure, Yields targets settings schema (.object members) (.error failure) →
        (∀ fault ∈ failure.toList, ∃ key faults, fault = .key key faults) ∧
        ∀ key, (∃ faults, .key key faults ∈ failure.toList) ↔
          Offending (outcome? targets settings) (outcome? targets settings.decoding)
            settings.options fields indexes members key) := by
  refine ⟨ends_of_parts isStruct parts wellFormed, fun ends => ?_, fun value yields => ?_,
    fun collecting failure yields => ?_⟩
  · obtain ⟨outcome, yields⟩ := ends
    rw [← ok_iff_not_offending isStruct parts distinct yields]
    constructor
    · rintro ⟨value, succeeded⟩
      exact ⟨value, yields.unique succeeded⟩
    · rintro ⟨value, rfl⟩
      exact ⟨value, yields⟩
  · rw [isStruct] at wellFormed
    obtain ⟨_, declared, indexed, fieldsYield, indexesYield, rfl⟩ :=
      (struct_eq_ok_iff _ _ _ _ _).mp (struct_of_yields isStruct parts yields)
    exact ⟨_, rfl, nodup_structOutput distinct _ _, fun key result =>
      find?_output wellFormed.1 distinct fieldsYield indexesYield⟩
  · have ran := struct_of_yields isStruct parts yields
    refine ⟨fun fault among => ?_, fun key => ⟨fun ⟨faults, among⟩ => ?_, ?_⟩⟩
    · obtain ⟨key, faults, same, _⟩ := offending_of_fault distinct (fault_of_struct ran among)
      exact ⟨key, faults, same⟩
    · obtain ⟨_, _, same, offending⟩ := offending_of_fault distinct (fault_of_struct ran among)
      cases same
      exact offending
    · exact fault_of_offending collecting ran

def bookcase : Schema :=
  .plain (.made 1) (.struct [⟨.string "name", .string, false⟩] [⟨.string, .number⟩])

def booksAtHome : Members := [(.string "name", .string "a"), (.string "books", .number 2)]

theorem bookcase_run :
    Ends (fun _ => .never) ⟨.sync, {}, .decode⟩ bookcase (.object booksAtHome) ∧
    (∀ key, ¬Offending (outcome? (fun _ => .never) ⟨.sync, {}, .decode⟩)
      (outcome? (fun _ => .never) ⟨.sync, {}, .decode⟩) {} [⟨.string "name", .string, false⟩]
      [⟨.string, .number⟩] booksAtHome key) ∧
    HasEntry (outcome? (fun _ => .never) ⟨.sync, {}, .decode⟩) {} [⟨.string "name", .string, false⟩]
      [⟨.string, .number⟩] booksAtHome (.string "books") (.number 2) := by
  have wellFormed : bookcase.kind.WellFormed := ⟨by decide, by simp; rfl⟩
  obtain ⟨ends, clean, output, _⟩ := @struct_run [⟨.string "name", .string, false⟩]
    [⟨.string, .number⟩] booksAtHome (fun _ => .never) ⟨.sync, {}, .decode⟩ bookcase rfl (by simp)
    wellFormed (by decide)
  have ofString : Schema.string.kind.IsLeaf := trivial
  have ofNumber : Schema.number.kind.IsLeaf := trivial
  have partsEnd : PartsEnd (fun _ => .never) ⟨.sync, {}, .decode⟩
      [⟨.string "name", .string, false⟩] [⟨.string, .number⟩] booksAtHome := by
    constructor
    · intro field inFields value _
      rw [List.mem_singleton.mp inFields]
      exact ends_leaf ofString value
    · intro index inIndexes member _
      rw [List.mem_singleton.mp inIndexes]
      exact ends_leaf ofNumber member.2
  have ran : Yields (fun _ => .never) ⟨.sync, {}, .decode⟩ bookcase (.object booksAtHome)
      (.ok (.object booksAtHome)) := ⟨2, rfl⟩
  refine ⟨ends partsEnd, (clean (ends partsEnd)).mp ⟨_, ran⟩, ?_⟩
  obtain ⟨_, same, _, lookups⟩ := output _ ran
  cases same
  exact (lookups (.string "books") (.number 2)).mp rfl

end SchemaCodec.Run
