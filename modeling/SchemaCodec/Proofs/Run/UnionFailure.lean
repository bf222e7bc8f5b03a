import SchemaCodec.Proofs.Run.FaultOrigin
import SchemaCodec.Proofs.Run.Notes
import SchemaCodec.Proofs.Run.UnionSearch
import SchemaCodec.Proofs.Schema.TagPartition

/-!
How a union fails. It reports what is wrong with the tags of the input, and then one fault for each
member that was tried. The index lists every member once, so that no member is tried twice and there is
always something to report.
-/

namespace SchemaCodec

inductive Faults.Nested : Faults → Faults → Prop where
  | here (faults : Faults) : Nested faults faults
  | inside {faults inner nested : Faults} {fault : Fault} (among : fault ∈ faults.toList)
      (isPlace : fault.children? = some inner) (deeper : Nested inner nested) : Nested faults nested

private theorem Faults.toList_ne_nil (faults : Faults) : faults.toList ≠ [] := by
  cases faults with
  | single fault => exact List.cons_ne_nil _ _
  | cons fault rest => exact List.cons_ne_nil _ _

private theorem Faults.ofList?_eq_none {list : List Fault} : ofList? list = none ↔ list = [] := by
  cases list with
  | nil => exact ⟨fun _ => rfl, fun _ => rfl⟩
  | cons fault rest => exact ⟨nofun, nofun⟩

namespace Run

/-! ### What is wrong with the tags -/

/-- The faults that are reported ahead of the members: one if tags are asked for and the input is no
object, and else at most one for each key of the index. -/
inductive LeadingFaults (index : TagIndex) (input : Value) : List Fault → Prop where
  | untagged (none : index.groups = []) : LeadingFaults index input []
  | notObject (tagged : index.groups ≠ []) (noObject : ∀ object, input ≠ .object object) :
      LeadingFaults index input [.mismatch Schema.unknownRecord.expected input]
  | object {object : Members} {blamed : List (PropertyKey × TagGroup)} {leading : List Fault}
      (isObject : input = .object object) (among : blamed.Sublist index.groups)
      (once : (Table.keys blamed).Nodup) (each : List.Forall₂ (TagFault object) blamed leading) :
      LeadingFaults index input leading

section Candidates

variable {object : Members} {direction : Direction} {members : List Schema} {index : TagIndex}

private theorem exists_blamed (object : Members) (groups : List (PropertyKey × TagGroup)) :
    ∃ blamed, blamed.Sublist groups ∧
      List.Forall₂ (TagFault object) blamed (tagCandidates object groups).1 := by
  induction groups with
  | nil => exact ⟨[], .slnil, .nil⟩
  | cons entry rest ih =>
      obtain ⟨blamed, among, each⟩ := ih
      rw [tagCandidates]
      cases chosen : groupCandidates object entry with
      | ok positions => exact ⟨blamed, among.cons entry, each⟩
      | error fault =>
          exact ⟨entry :: blamed, among.cons_cons entry, .cons (tagFault_of_groupCandidates chosen) each⟩

private theorem tagCandidates_sublist (object : Members) (groups : List (PropertyKey × TagGroup)) :
    (tagCandidates object groups).2.Sublist (groups.flatMap fun entry => entry.2.positions) := by
  induction groups with
  | nil => exact .slnil
  | cons entry rest ih =>
      rw [tagCandidates, List.flatMap_cons]
      cases chosen : groupCandidates object entry with
      | ok positions =>
          obtain ⟨bucket, inBuckets, rfl⟩ := exists_bucket_of_groupCandidates chosen
          have listed : bucket.2.Sublist entry.2.positions :=
            List.sublist_flatten_of_mem (List.mem_map_of_mem inBuckets)
          exact listed.append ih
      | error fault => exact ih.trans (List.sublist_append_right _ _)

/-- What is tried is listed in the index, in the same order. -/
private theorem candidates_sublist (index : TagIndex) (input : Value) :
    (candidates index input).2.Sublist index.positions := by
  have untagged : index.untagged.Sublist index.positions := List.sublist_append_right _ _
  unfold candidates
  split
  · exact untagged
  · split
    · exact (tagCandidates_sublist _ index.groups).append_right _
    · exact untagged

private theorem leadingFaults_of_candidates (distinct : (Table.keys index.groups).Nodup)
    (input : Value) :
    LeadingFaults index input (candidates index input).1 := by
  unfold candidates
  split
  · rename_i none
    exact .untagged (List.isEmpty_iff.mp none)
  · rename_i tagged
    split
    · rename_i object
      obtain ⟨blamed, among, each⟩ := exists_blamed object index.groups
      exact .object rfl among ((among.map Prod.fst).nodup distinct) each
    · rename_i noObject
      apply LeadingFaults.notObject
      · intro none
        exact tagged (List.isEmpty_iff.mpr none)
      · exact noObject

/-- A tag that fits a bucket leads to members, as no bucket is empty; a tag that fits none is a
fault. -/
private theorem tagCandidates_ne_nil {groups : List (PropertyKey × TagGroup)}
    (nonempty : ∀ entry ∈ groups, ∀ bucket ∈ entry.2.buckets, bucket.2 ≠ []) (tagged : groups ≠ [])
    (object : Members) :
    (tagCandidates object groups).1 ≠ [] ∨ (tagCandidates object groups).2 ≠ [] := by
  cases groups with
  | nil => exact absurd rfl tagged
  | cons entry rest =>
      rw [tagCandidates]
      cases chosen : groupCandidates object entry with
      | ok positions =>
          obtain ⟨bucket, inBuckets, rfl⟩ := exists_bucket_of_groupCandidates chosen
          apply Or.inr
          exact List.append_ne_nil_of_left_ne_nil (nonempty _ List.mem_cons_self _ inBuckets) _
      | error fault => exact Or.inl (List.cons_ne_nil _ _)

/-- If there are members, then there is a fault of the tags or a member to try. -/
private theorem candidates_ne_nil (sound : index.Sound direction members) (nonempty : members ≠ [])
    (input : Value) :
    (candidates index input).1 ≠ [] ∨ (candidates index input).2 ≠ [] := by
  unfold candidates
  split
  · rename_i none
    apply Or.inr
    intro (nothing : index.untagged = [])
    have listed := sound.once.length_eq
    rw [TagIndex.positions, List.isEmpty_iff.mp none, nothing, List.length_range] at listed
    exact nonempty (List.length_eq_zero_iff.mp listed.symm)
  · rename_i tagged
    split
    · rename_i object
      have found := tagCandidates_ne_nil
        (fun entry inGroups => (sound.group entry inGroups).nonempty)
        (fun none => tagged (List.isEmpty_iff.mpr none)) object
      apply found.imp_right
      intro some
      exact List.append_ne_nil_of_left_ne_nil some _
    · exact Or.inl (List.cons_ne_nil _ _)

end Candidates

/-! ### The members that are tried -/

/-- A member that was tried, and why it failed. -/
structure Attempt where
  position : Nat
  member : Schema
  faults : Faults

/-- Where all members fail, each one is run, and its faults are reported behind the others. -/
private theorem exists_notes_firstOf (run : Settings → Schema → Value → Option Outcome)
    (settings : Settings)
    (input : Value) {members : List Schema} {order : List Nat}
    (within : ∀ position ∈ order, position < members.length) (faults : List Fault) :
    ∃ result entries,
      Notes (firstOf (noted run settings) input faults
        (order.filterMap fun position => members[position]?)) result entries ∧
      ∀ failure, result = some (.error failure) → ∃ attempts : List Attempt,
        attempts.map Attempt.position = order ∧
        (∀ attempt ∈ attempts, members[attempt.position]? = some attempt.member ∧
          run settings attempt.member input = some (.error attempt.faults)) ∧
        (entries.reverse = attempts.map fun attempt => ⟨settings, attempt.member, input⟩) ∧
        (Faults.ofList? (faults.reverse ++
          attempts.map fun attempt => .unionMember attempt.faults)).getD
            (.single (.mismatch Schema.never.expected input)) = failure := by
  induction order generalizing faults with
  | nil =>
      refine ⟨_, [], .pure _, ?_⟩
      intro failure failed
      refine ⟨[], rfl, List.forall_mem_nil _, rfl, ?_⟩
      rw [List.map_nil, List.append_nil]
      cases made : Faults.ofList? faults.reverse with
      | none =>
          rw [made] at failed
          cases failed
          rfl
      | some reported =>
          rw [made] at failed
          cases failed
          rfl
  | cons position order ih =>
      obtain ⟨inRange, restWithin⟩ := List.forall_mem_cons.mp within
      have atPosition : members[position]? = some members[position] :=
        List.getElem?_eq_getElem inRange
      rw [List.filterMap_cons_some atPosition, firstOf]
      have here := notes_noted run settings members[position] input
      rcases ran : run settings members[position] input with _ | inner | value
      · rw [ran] at here
        refine ⟨none, _, here.bind_none, ?_⟩
        intro failure failed
        cases failed
      · rw [ran] at here
        obtain ⟨result, entries, later, complete⟩ := ih restWithin (.unionMember inner :: faults)
        refine ⟨result, _, here.bind_some later, ?_⟩
        intro failure failed
        obtain ⟨attempts, positions, each, started, made⟩ := complete failure failed
        refine ⟨⟨position, members[position], inner⟩ :: attempts, ?_, ?_, ?_, ?_⟩
        · rw [List.map_cons, positions]
        · exact List.forall_mem_cons.mpr ⟨⟨atPosition, ran⟩, each⟩
        · rw [List.reverse_concat, started, List.map_cons]
        · rw [List.reverse_cons, List.append_assoc] at made
          exact made
      · rw [ran] at here
        have ended : Notes (pure (.ok value) : Noting Start Outcome) (some (.ok value)) [] := .pure _
        refine ⟨_, _, here.bind_silent ended, ?_⟩
        intro failure failed
        cases failed

/-- A union that fails has found something to report: what is wrong with the tags, at most one fault for
each key, and then one fault for each run that it started. These runs are of different members, all
untagged members are among them, and each has failed with the faults that are reported for it. No
list of faults at any place is empty. A union that can be built has at least two members. -/
theorem union_failure_complete (targets : Targets) (depth : Nat) (settings : Settings)
    {schema : Schema} {members : List Schema} (isUnion : schema.kind = .union members)
    (nonempty : members ≠ []) (input : Value) {failure : Faults}
    (failed : parse targets (depth + 1) settings schema input = some (.error failure)) :
    ∃ (leading : List Fault) (attempts : List Attempt),
      Faults.ofList? (leading ++ attempts.map fun attempt => .unionMember attempt.faults) =
        some failure ∧
      LeadingFaults (TagIndex.ofMembers settings.direction members) input leading ∧
      (starts targets depth settings schema input =
        attempts.map fun attempt => ⟨settings.failingFast, attempt.member, input⟩) ∧
      (∀ attempt ∈ attempts, members[attempt.position]? = some attempt.member ∧
        parse targets depth settings.failingFast attempt.member input =
          some (.error attempt.faults)) ∧
      (attempts.map Attempt.position).Nodup ∧
      (∀ (position : Nat) (member : Schema), members[position]? = some member →
        (∀ key literal, ¬member.HoldsTag settings.direction key literal) →
        position ∈ attempts.map Attempt.position) ∧
      ∀ nested, failure.Nested nested → nested.toList ≠ [] := by
  let index := TagIndex.ofMembers settings.direction members
  have sound := TagIndex.sound_ofMembers settings.direction members
  have among := candidates_sublist index input
  have within : ∀ position ∈ (candidates index input).2, position < members.length := by
    intro position inOrder
    exact sound.lt_of_mem (among.subset inOrder)
  obtain ⟨result, entries, notes, complete⟩ := exists_notes_firstOf (parse targets depth)
    settings.failingFast input within (candidates index input).1.reverse
  have level : Notes (notedLevel targets depth settings schema input) result entries := by
    unfold notedLevel step
    rw [isUnion]
    exact notes
  obtain ⟨outcome, started⟩ := starts_of_notes level
  rw [outcome] at failed
  obtain ⟨attempts, positions, each, runs, made⟩ := complete failure failed
  rw [List.reverse_reverse] at made
  refine ⟨(candidates index input).1, attempts, ?_, ?_, ?_, each, ?_, ?_, ?_⟩
  · cases reported : Faults.ofList? ((candidates index input).1 ++
        attempts.map fun attempt => .unionMember attempt.faults) with
    | none =>
        obtain ⟨noFault, noAttempt⟩ := List.append_eq_nil_iff.mp (Faults.ofList?_eq_none.mp reported)
        rw [List.map_eq_nil_iff.mp noAttempt] at positions
        rcases candidates_ne_nil sound nonempty input with leads | tries
        · exact absurd noFault leads
        · exact absurd positions.symm tries
    | some faults =>
        rw [reported] at made
        exact congrArg some made
  · exact leadingFaults_of_candidates sound.distinct input
  · rw [started, runs]
  · rw [positions]
    exact sound.nodup.sublist among
  · intro position member atPosition untagged
    rw [positions]
    apply mem_candidates (TagIndex.lists_ofMembers atPosition)
    rw [Schema.tags_eq_nil_iff.mpr untagged]
    exact List.forall_mem_nil _
  · intro nested _
    exact nested.toList_ne_nil

def ticketOffice : Schema := .plain (.made 8) (.union tickets)

def strayTicket : Value := .object [(.string "zone", .string "far")]

/-- There is no fare, no ticket has the zone, and the remark of the untagged ticket is missing. -/
def strayFaults : Faults :=
  .cons (.key (.string "fare") (.single .missing))
    (.cons (.key (.string "zone") (.single (.mismatch outerMark.expected (.string "far"))))
      (.single (.unionMember (.single (.key (.string "remark") (.single .missing))))))

theorem strayTicket_faults :
    ticketOffice.kind = .union tickets ∧ tickets ≠ [] ∧
    parse (fun _ => .string) 3 ⟨.sync, {}, .decode⟩ ticketOffice strayTicket =
      some (.error strayFaults) ∧
    ∃ (leading : List Fault) (attempts : List Attempt),
      Faults.ofList? (leading ++ attempts.map fun attempt => .unionMember attempt.faults) =
        some strayFaults ∧
      (attempts.map Attempt.position).Nodup ∧ 2 ∈ attempts.map Attempt.position := by
  have isUnion : ticketOffice.kind = .union tickets := rfl
  have nonempty : tickets ≠ [] := List.cons_ne_nil _ _
  have failed : parse (fun _ => .string) 3 ⟨.sync, {}, .decode⟩ ticketOffice strayTicket =
      some (.error strayFaults) := rfl
  obtain ⟨leading, attempts, made, _, _, _, once, untagged, _⟩ :=
    union_failure_complete (fun _ => .string) 2 ⟨.sync, {}, .decode⟩ isUnion nonempty strayTicket failed
  refine ⟨isUnion, nonempty, failed, leading, attempts, made, once, ?_⟩
  apply untagged 2 _ rfl
  exact Schema.tags_eq_nil_iff.mp rfl

end Run

end SchemaCodec
