import SchemaCodec.Proofs.Run.StructRun
import SchemaCodec.Schema.Refine

/-!
How often a struct blames one key. A field is blamed at most once, and so is an undeclared key by each
index signature and by the check for unexpected members. But these do not know of each other: a key is
named again by every index signature that rejects it, and once more if none of them decodes it and
nothing unexpected may be there.
-/

namespace SchemaCodec.Run

open Table (keys keys_filterMap_sublist mem_keys_filterMap keys_flatMap)

def Rejected (run : Schema → Value → Option Outcome) (fields : List (Field Schema))
    (members : Members) (index : IndexSignature Schema) (key : PropertyKey) : Prop :=
  keyFits key index.parameter = true ∧ key ∉ fields.map Field.name ∧
    ∃ value faults, Table.find? key members = some value ∧
      (run index.parameter key.toValue = some (.error faults) ∨
        run index.schema value = some (.error faults))

/-- Nothing unexpected may be there, and no index signature of the undeclared key's kind decodes it. -/
def Uncovered (decodeKey : Schema → Value → Option Outcome) (options : Options)
    (fields : List (Field Schema)) (indexes : List (IndexSignature Schema)) (members : Members)
    (key : PropertyKey) : Prop :=
  options.excess = .error ∧ key ∉ fields.map Field.name ∧ key ∈ keys members ∧
    ∀ index ∈ indexes, keyFits key index.parameter = true →
      ∃ faults, decodeKey index.parameter key.toValue = some (.error faults)

variable {run decodeKey : Schema → Value → Option Outcome} {options : Options}
  {fields : List (Field Schema)} {indexes : List (IndexSignature Schema)} {members : Members}
  {key : PropertyKey}

/-! ### Entries -/

def blamed : Option MemberResult → Option (PropertyKey × Faults)
  | some (.error (.key name faults)) => some (name, faults)
  | _ => none

def entryFault (entry : PropertyKey × Faults) : Fault :=
  .key entry.1 entry.2

private theorem faultsOf_eq_entries {all : List MemberResult}
    (named : ∀ fault ∈ faultsOf all, ∃ key faults, fault = .key key faults) :
    faultsOf all = ((all.map some).filterMap blamed).map entryFault := by
  induction all with
  | nil => rfl
  | cons result rest ih =>
      cases result with
      | ok value => exact ih named
      | error fault =>
          obtain ⟨here, later⟩ := List.forall_mem_cons.mp named
          obtain ⟨key, faults, rfl⟩ := here
          rw [faultsOf, ih later]
          rfl

private theorem eq_of_blamed {step : Option MemberResult} {entry : PropertyKey × Faults}
    (blames : blamed step = some entry) : step = some (.error (entryFault entry)) := by
  unfold blamed at blames
  split at blames
  · cases blames
    rfl
  · cases blames

/-! ### Entries of the parts -/

def unexpectedEntries (decodeKey : Schema → Value → Option Outcome) (options : Options)
    (fields : List (Field Schema)) (indexes : List (IndexSignature Schema)) (members : Members) :
    List (PropertyKey × Faults) :=
  if options.excess = .error then
    members.filterMap fun member => blamed (excessStep decodeKey fields indexes member)
  else []

def fieldEntries (run : Schema → Value → Option Outcome) (exact : Bool)
    (fields : List (Field Schema)) (members : Members) : List (PropertyKey × Faults) :=
  fields.filterMap fun field => (fieldStep? run exact members field).bind blamed

def indexEntries (run : Schema → Value → Option Outcome) (fields : List (Field Schema))
    (members : Members) (index : IndexSignature Schema) : List (PropertyKey × Faults) :=
  (indexMembers fields index members).filterMap fun member => blamed (indexStep run index member)

def entriesOf (run decodeKey : Schema → Value → Option Outcome) (options : Options)
    (fields : List (Field Schema)) (indexes : List (IndexSignature Schema)) (members : Members) :
    List (PropertyKey × Faults) :=
  unexpectedEntries decodeKey options fields indexes members ++
    fieldEntries run options.exact fields members ++
    indexes.flatMap (indexEntries run fields members)

private theorem filterMap_structSteps :
    (structSteps run decodeKey options fields indexes members).filterMap blamed =
      entriesOf run decodeKey options fields indexes members := by
  have excess : (if options.excess = .error then
      members.map (excessStep decodeKey fields indexes) else []).filterMap blamed =
      unexpectedEntries decodeKey options fields indexes members := by
    unfold unexpectedEntries
    split
    · rw [List.filterMap_map]
      rfl
    · rfl
  have indexed : (indexes.flatMap fun index =>
      (indexMembers fields index members).map (indexStep run index)).filterMap blamed =
      indexes.flatMap (indexEntries run fields members) := by
    rw [List.filterMap_flatMap]
    simp only [List.filterMap_map]
    rfl
  rw [structSteps, List.filterMap_append, List.filterMap_append, excess, indexed,
    List.filterMap_filterMap]
  rfl

/-- A run that collects all faults takes all steps, and tells what these blame. -/
theorem collected {failure : Faults} (collecting : options.faults = .all)
    (found : struct run decodeKey options fields indexes members = some (.error failure)) :
    failure.toList = (entriesOf run decodeKey options fields indexes members).map entryFault ∧
      ∀ index ∈ indexes, ∀ member ∈ indexMembers fields index members,
        indexStep run index member ≠ none := by
  have told := fun fault => @fault_of_struct run decodeKey options fields indexes members fault failure
    found
  rw [struct_eq_collect, collecting] at found
  obtain ⟨all, taken, same⟩ := steps_of_collect_all found
  constructor
  · rw [← filterMap_structSteps, taken, same]
    refine faultsOf_eq_entries fun fault among => ?_
    have fromStruct := told fault (same ▸ among)
    cases fromStruct <;> exact ⟨_, _, rfl⟩
  · intro index inIndexes member about unfinished
    have among : none ∈ structSteps run decodeKey options fields indexes members :=
      mem_structSteps.mpr (Or.inr (Or.inr ⟨index, inIndexes, member, about, unfinished⟩))
    rw [taken] at among
    simp at among

/-- A run that collects all faults tells of the keys that stand in the way. -/
private theorem tells_iff_offending {failure : Faults} (collecting : options.faults = .all)
    (distinct : (keys members).Nodup)
    (found : struct run decodeKey options fields indexes members = some (.error failure)) :
    (∃ faults, .key key faults ∈ failure.toList) ↔
      Offending run decodeKey options fields indexes members key := by
  constructor
  · rintro ⟨faults, among⟩
    obtain ⟨_, _, same, offending⟩ := offending_of_fault distinct (fault_of_struct found among)
    cases same
    exact offending
  · exact fault_of_offending collecting found

private theorem nodup_unexpectedEntries (distinct : (keys members).Nodup) :
    (keys (unexpectedEntries decodeKey options fields indexes members)).Nodup := by
  unfold unexpectedEntries
  split
  · refine (keys_filterMap_sublist (fun member entry blames => ?_) members).nodup distinct
    obtain ⟨_, _, same⟩ := fault_of_excessStep (eq_of_blamed blames)
    exact (Fault.key.inj same).1
  · exact List.nodup_nil

private theorem mem_unexpectedEntries :
    key ∈ keys (unexpectedEntries decodeKey options fields indexes members) ↔
      Uncovered decodeKey options fields indexes members key := by
  unfold unexpectedEntries
  split
  · rename_i strict
    rw [mem_keys_filterMap]
    constructor
    · rintro ⟨member, inMembers, faults, blames⟩
      obtain ⟨undeclared, untaken, same⟩ := fault_of_excessStep (eq_of_blamed blames)
      cases same
      refine ⟨strict, ?_, List.mem_map_of_mem inMembers, fun index inIndexes fits =>
        error_of_takesKey untaken inIndexes fits⟩
      rw [← isDeclared_eq_true_iff, undeclared]
      exact Bool.false_ne_true
    · rintro ⟨_, undeclared, present, untaken⟩
      obtain ⟨member, inMembers, rfl⟩ := List.mem_map.mp present
      have unknown : ¬isDeclared fields member.1 = true := fun known =>
        undeclared (isDeclared_eq_true_iff.mp known)
      refine ⟨member, inMembers, .single (.unexpected member.2), ?_⟩
      simp only [excessStep, if_neg unknown, takesKey_eq_false untaken]
      rfl
  · rename_i loose
    simp [keys, Uncovered, loose]

private theorem key_of_fieldStep {exact : Bool} {field : Field Schema}
    {entry : PropertyKey × Faults}
    (blames : (fieldStep? run exact members field).bind blamed = some entry) :
    entry.1 = field.name := by
  obtain ⟨step, stepped, blames⟩ := Option.bind_eq_some_iff.mp blames
  rw [eq_of_blamed blames] at stepped
  rcases fieldStep_cases stepped with ⟨_, _, _, _, same⟩ | ⟨_, _, _, same⟩
  · exact (Fault.key.inj same).1
  · exact (Fault.key.inj same).1

private theorem nodup_fieldEntries {exact : Bool} (names : (fields.map Field.name).Nodup) :
    (keys (fieldEntries run exact fields members)).Nodup :=
  (keys_filterMap_sublist (fun _ _ => key_of_fieldStep) fields).nodup names

private theorem declared_of_mem_fieldEntries {exact : Bool}
    (among : key ∈ keys (fieldEntries run exact fields members)) : key ∈ fields.map Field.name :=
  (keys_filterMap_sublist (fun _ _ => key_of_fieldStep) fields).subset among

private theorem nodup_indexEntries (distinct : (keys members).Nodup)
    (index : IndexSignature Schema) :
    (keys (indexEntries run fields members index)).Nodup := by
  refine (keys_filterMap_sublist (fun member entry blames => ?_) _).nodup
    ((List.filter_sublist.map Prod.fst).nodup distinct)
  obtain ⟨_, same, _⟩ := indexStep_cases (eq_of_blamed blames)
  exact (Fault.key.inj same).1

private theorem mem_indexEntries (distinct : (keys members).Nodup) {index : IndexSignature Schema}
    (finished : ∀ member ∈ indexMembers fields index members, indexStep run index member ≠ none) :
    key ∈ keys (indexEntries run fields members index) ↔ Rejected run fields members index key := by
  rw [indexEntries, mem_keys_filterMap]
  constructor
  · rintro ⟨member, about, faults, blames⟩
    obtain ⟨told, same, ran⟩ := indexStep_cases (eq_of_blamed blames)
    cases same
    obtain ⟨inMembers, fits, undeclared⟩ := mem_indexMembers.mp about
    exact ⟨fits, undeclared, member.2, faults, Table.find?_of_mem distinct inMembers, ran⟩
  · rintro ⟨fits, undeclared, value, faults, present, ran⟩
    have about : (key, value) ∈ indexMembers fields index members :=
      mem_indexMembers.mpr ⟨Table.mem_of_find? present, fits, undeclared⟩
    obtain ⟨result, stepped⟩ := Option.ne_none_iff_exists'.mp (finished _ about)
    obtain ⟨told, rfl⟩ := indexStep_refusesKey ran result stepped
    exact ⟨_, about, told, by rw [stepped]; rfl⟩

/-! ### Keys that are named more than once -/

/-- No two index signatures reject one key. -/
def RejectedApart (run : Schema → Value → Option Outcome) (fields : List (Field Schema))
    (indexes : List (IndexSignature Schema)) (members : Members) : Prop :=
  indexes.Pairwise fun index other =>
    ∀ key, ¬(Rejected run fields members index key ∧ Rejected run fields members other key)

private theorem nodup_indexed_iff (distinct : (keys members).Nodup)
    (finished : ∀ index ∈ indexes, ∀ member ∈ indexMembers fields index members,
      indexStep run index member ≠ none) :
    (keys (indexes.flatMap (indexEntries run fields members))).Nodup ↔
      RejectedApart run fields indexes members := by
  rw [keys_flatMap, List.nodup_flatMap]
  constructor
  · rintro ⟨_, apart⟩
    refine apart.imp_of_mem fun inIndexes otherIn disjoint key ⟨here, there⟩ => ?_
    exact disjoint ((mem_indexEntries distinct (finished _ inIndexes)).mpr here)
      ((mem_indexEntries distinct (finished _ otherIn)).mpr there)
  · refine fun apart => ⟨fun index _ => nodup_indexEntries distinct index, ?_⟩
    refine apart.imp_of_mem fun inIndexes otherIn disjoint key here there => ?_
    exact disjoint key ⟨(mem_indexEntries distinct (finished _ inIndexes)).mp here,
      (mem_indexEntries distinct (finished _ otherIn)).mp there⟩

private theorem mem_indexed (distinct : (keys members).Nodup)
    (finished : ∀ index ∈ indexes, ∀ member ∈ indexMembers fields index members,
      indexStep run index member ≠ none) :
    key ∈ keys (indexes.flatMap (indexEntries run fields members)) ↔
      ∃ index ∈ indexes, Rejected run fields members index key := by
  rw [keys_flatMap, List.mem_flatMap]
  exact exists_congr fun index => and_congr_right fun inIndexes =>
    mem_indexEntries distinct (finished index inIndexes)

/-- A key is named twice by two index signatures, or by one and by the check for unexpected members;
a field's name by nothing but the field. -/
private theorem nodup_entriesOf_iff (names : (fields.map Field.name).Nodup)
    (distinct : (keys members).Nodup)
    (finished : ∀ index ∈ indexes, ∀ member ∈ indexMembers fields index members,
      indexStep run index member ≠ none) :
    (keys (entriesOf run decodeKey options fields indexes members)).Nodup ↔
      (∀ key, Uncovered decodeKey options fields indexes members key →
        ∀ index ∈ indexes, ¬Rejected run fields members index key) ∧
      RejectedApart run fields indexes members := by
  have undeclaredFirst : ∀ key, key ∈ keys (unexpectedEntries decodeKey options fields indexes
      members) → key ∉ fields.map Field.name := fun key uncovered =>
    (mem_unexpectedEntries.mp uncovered).2.1
  have undeclaredLast : ∀ key, key ∈ keys (indexes.flatMap (indexEntries run fields members)) →
      key ∉ fields.map Field.name := by
    intro key rejected
    obtain ⟨_, _, rejects⟩ := (mem_indexed distinct finished).mp rejected
    exact rejects.2.1
  rw [entriesOf, keys, List.map_append, List.map_append, List.nodup_append', List.nodup_append']
  constructor
  · rintro ⟨_, apart, disjoint⟩
    refine ⟨fun key uncovered index inIndexes rejects => ?_,
      (nodup_indexed_iff distinct finished).mp apart⟩
    exact disjoint (List.mem_append_left _ (mem_unexpectedEntries.mpr uncovered))
      ((mem_indexed distinct finished).mpr ⟨index, inIndexes, rejects⟩)
  · rintro ⟨covered, apart⟩
    refine ⟨⟨nodup_unexpectedEntries distinct, nodup_fieldEntries names, ?_⟩,
      (nodup_indexed_iff distinct finished).mpr apart, ?_⟩
    · exact fun key uncovered declared =>
        undeclaredFirst key uncovered (declared_of_mem_fieldEntries declared)
    · intro key front rejected
      rcases List.mem_append.mp front with uncovered | declared
      · obtain ⟨index, inIndexes, rejects⟩ := (mem_indexed distinct finished).mp rejected
        exact covered key (mem_unexpectedEntries.mp uncovered) index inIndexes rejects
      · exact undeclaredLast key rejected (declared_of_mem_fieldEntries declared)

/-- Index signatures of different kinds are about different keys. -/
private theorem rejectedApart_of_kinds (kinds : (indexes.map (·.parameter.tellsSymbols)).Nodup) :
    RejectedApart run fields indexes members := by
  refine (List.pairwise_map.mp kinds).imp fun apart key ⟨here, there⟩ => ?_
  exact apart ((keyFits_eq_true_iff.mp here.1).symm.trans (keyFits_eq_true_iff.mp there.1))

/-- There are as many faults as keys in the way, if none of these is named twice. -/
private theorem length_eq_iff_nodup {failure : Faults} {entries : List (PropertyKey × Faults)}
    {names : List PropertyKey} (told : failure.toList = entries.map entryFault)
    (distinct : names.Nodup) (same : ∀ key, key ∈ keys entries ↔ key ∈ names) :
    failure.toList.length = names.length ↔ (keys entries).Nodup := by
  have counted : failure.toList.length = (keys entries).length := by
    rw [told, List.length_map, keys, List.length_map]
  rw [counted]
  constructor
  · intro short
    have among : names.Subperm (keys entries) :=
      List.subperm_of_subset distinct fun key inNames => (same key).mpr inNames
    exact (among.perm_of_length_le short.le).nodup distinct
  · exact fun nodup => ((List.perm_ext_iff_of_nodup nodup distinct).mpr same).length_eq

/-- A struct that collects all faults tells of keys, and of all that stand in its way. It names each
of them once, so that there are as many faults as keys in the way, if and only if no key is rejected by
two index signatures, and none that the check for unexpected members rejects is rejected by an index
signature too. So it is wherever index signatures are of different kinds and whatever is unexpected is
of no index signature's kind. -/
theorem blames_once_iff {targets : Targets} {settings : Settings} {schema : Schema}
    (isStruct : schema.kind = .struct fields indexes) (wellFormed : schema.kind.WellFormed)
    (distinct : (keys members).Nodup) (collecting : settings.options.faults = .all)
    {failure : Faults} (yields : Yields targets settings schema (.object members) (.error failure)) :
    ∃ entries : List (PropertyKey × Faults),
      failure.toList = entries.map (fun entry => .key entry.1 entry.2) ∧
      (∀ key, key ∈ keys entries ↔
        Offending (outcome? targets settings) (outcome? targets settings.decoding)
          settings.options fields indexes members key) ∧
      ((keys entries).Nodup ↔
        (∀ key, Uncovered (outcome? targets settings.decoding) settings.options fields indexes
            members key →
          ∀ index ∈ indexes, ¬Rejected (outcome? targets settings) fields members index key) ∧
        RejectedApart (outcome? targets settings) fields indexes members) ∧
      (∀ names : List PropertyKey, names.Nodup →
        (∀ key, Offending (outcome? targets settings) (outcome? targets settings.decoding)
          settings.options fields indexes members key ↔ key ∈ names) →
        (failure.toList.length = names.length ↔ (keys entries).Nodup)) ∧
      ((indexes.map (·.parameter.tellsSymbols)).Nodup →
        (∀ key, Uncovered (outcome? targets settings.decoding) settings.options fields indexes
            members key →
          ∀ index ∈ indexes, keyFits key index.parameter = false) →
        (keys entries).Nodup) := by
  have parts : ¬(fields = [] ∧ indexes = []) := by
    rintro ⟨rfl, rfl⟩
    have accepts : Yields targets settings schema (.object members) (.ok (.object members)) :=
      yields_iff_step.mpr ((step_struct_empty isStruct).mpr ⟨rfl, rfl⟩)
    cases yields.unique accepts
  have ran := struct_of_yields isStruct parts yields
  obtain ⟨same, finished⟩ := collected collecting ran
  rw [isStruct] at wellFormed
  have onceIff := @nodup_entriesOf_iff _ (outcome? targets settings.decoding) settings.options _ _ _
    wellFormed.1 distinct finished
  have blames : ∀ key, key ∈ keys (entriesOf (outcome? targets settings)
      (outcome? targets settings.decoding) settings.options fields indexes members) ↔
      Offending (outcome? targets settings) (outcome? targets settings.decoding) settings.options
        fields indexes members key := by
    intro key
    rw [← tells_iff_offending collecting distinct ran, same]
    simp [keys, entryFault]
  refine ⟨_, same, blames, onceIff, fun names nodup inTheWay => ?_, fun kinds unfit =>
    onceIff.mpr ⟨fun key uncovered index inIndexes rejects => ?_, rejectedApart_of_kinds kinds⟩⟩
  · exact length_eq_iff_nodup same nodup fun key => (blames key).trans (inTheWay key)
  · cases (unfit key uncovered index inIndexes).symm.trans rejects.1

/-- A name and a number swapped. -/
theorem bookcase_blames_once :
    ∃ failure, Yields (fun _ => .never) ⟨.sync, { faults := .all }, .decode⟩ bookcase
        (.object [(.string "name", .number 2), (.string "books", .string "a")]) (.error failure) ∧
      ∃ entries : List (PropertyKey × Faults),
        failure.toList = entries.map (fun entry => .key entry.1 entry.2) ∧ (keys entries).Nodup := by
  have wellFormed : bookcase.kind.WellFormed := ⟨by decide, by simp; rfl⟩
  have ran : Yields (fun _ => .never) ⟨.sync, { faults := .all }, .decode⟩ bookcase
      (.object [(.string "name", .number 2), (.string "books", .string "a")])
      (.error (.cons (.key (.string "name") (.single (.mismatch Schema.string.expected (.number 2))))
        (.single (.key (.string "books")
          (.single (.mismatch Schema.number.expected (.string "a"))))))) := ⟨2, rfl⟩
  obtain ⟨entries, same, _, _, _, once⟩ := @blames_once_iff [⟨.string "name", .string, false⟩]
    [⟨.string, .number⟩] _ _ _ bookcase rfl wellFormed (by decide) rfl _ ran
  refine ⟨_, ran, entries, same, once (by decide) ?_⟩
  rintro _ ⟨strict, _⟩
  cases strict

def wordCounts : Schema :=
  .plain (.made 1) (.struct [] [⟨Schema.minLength (.made 2) .string 2, .number⟩])

def contradictory : Schema :=
  .plain (.made 1) (.struct [] [⟨.string, .number⟩, ⟨.string, .string⟩])

/-- A key that is too short is unexpected and rejected; a value is rejected by each of two index
signatures. -/
theorem key_named_twice :
    (∃ faults others, Yields (fun _ => .never) ⟨.sync, { faults := .all, excess := .error }, .decode⟩
      wordCounts (.object [(.string "a", .number 1)])
      (.error (.cons (.key (.string "a") faults) (.single (.key (.string "a") others))))) ∧
    ∃ faults others, Yields (fun _ => .never) ⟨.sync, { faults := .all }, .decode⟩
      contradictory (.object [(.string "a", .boolean true)])
      (.error (.cons (.key (.string "a") faults) (.single (.key (.string "a") others)))) :=
  ⟨⟨_, _, 3, rfl⟩, _, _, 2, rfl⟩

end SchemaCodec.Run
