import SchemaCodec.Proofs.Run.Rejection

/-!
The order of the search. A union does not try its members as they were declared: those that the tags
of the input choose come first, tag by tag, and the untagged ones come last. So a member declared
earlier is passed over for a later one, unless all tags are under one key and no tagged member is
declared after an untagged one.
-/

namespace SchemaCodec.Run

open Schema

variable {targets : Targets}

def tried (direction : Direction) (members : List Schema) (input : Value) : List Nat :=
  (candidates (TagIndex.ofMembers direction members) input).2

def FailsAt (targets : Targets) (settings : Settings) (members : List Schema) (input : Value)
    (position : Nat) : Prop :=
  ∀ member, members[position]? = some member →
    Rejects targets settings.failingFast member input

/-! ### What is tried -/

/-- A member that succeeds is tried. -/
private theorem mem_tried {members : List Schema} (tell : IdentitiesTell members)
    {settings : Settings}
    {input value : Value} {position : Nat} {member : Schema}
    (atPosition : members[position]? = some member)
    (ran : Yields targets settings.failingFast member input (.ok value)) :
    position ∈ tried settings.direction members input :=
  mem_candidates (TagIndex.lists_ofMembers atPosition) fun _ inTags =>
    fits_of_run tell (.root (List.mem_of_getElem? atPosition)) ran inTags

private theorem candidates_pairwise {key : PropertyKey} {index : TagIndex} {next : Nat}
    (inOrder : index.InOrder key next) (input : Value) :
    (candidates index input).2.Pairwise (· < ·) := by
  unfold candidates
  split
  · exact inOrder.untagged.1
  · split
    · rename_i members
      rcases inOrder.single with none | ⟨group, only⟩
      · rw [none]
        exact inOrder.untagged.1
      · rw [only]
        simp only [tagCandidates]
        cases chosen : groupCandidates members (key, group) with
        | error fault => exact inOrder.untagged.1
        | ok positions =>
            simp only [List.append_nil]
            obtain ⟨bucket, inBuckets, rfl⟩ := exists_bucket_of_groupCandidates chosen
            have inGroups : (key, group) ∈ index.groups := by
              rw [only]
              exact List.mem_singleton.mpr rfl
            exact (inOrder.bucket _ inGroups bucket inBuckets).1
    · exact inOrder.untagged.1

/-- Where tagged members come first and share a key, the search goes from first to last. -/
private theorem tried_pairwise {key : PropertyKey} {direction : Direction} {members : List Schema}
    (taggedFirst : TagIndex.TaggedFirst key direction members) (input : Value) :
    (tried direction members input).Pairwise (· < ·) :=
  candidates_pairwise taggedFirst.inOrder input

/-! ### The first one that succeeds -/

/-- A union gives what the first of the tried members gives that does not fail. -/
private theorem yields_union_ok_iff {settings : Settings} {schema : Schema} {members : List Schema}
    (isUnion : schema.kind = .union members) {input value : Value} :
    Yields targets settings schema input (.ok value) ↔
      ∃ front winner back, tried settings.direction members input = front ++ winner :: back ∧
        (∃ member, members[winner]? = some member ∧
          Yields targets settings.failingFast member input (.ok value)) ∧
        ∀ position ∈ front, FailsAt targets settings members input position := by
  rw [yields_union isUnion]
  change firstOf _ _ _ ((tried settings.direction members input).filterMap fun position =>
    members[position]?) = _ ↔ _
  rw [firstOf_eq_ok_iff]
  constructor
  · rintro ⟨failed, member, rest, split, ran, fails⟩
    obtain ⟨front, others, whole, isFront, isRest⟩ := List.filterMap_eq_append_iff.mp split
    obtain ⟨skipped, winner, back, isOthers, absent, atWinner, _⟩ :=
      List.filterMap_eq_cons_iff.mp isRest
    refine ⟨front ++ skipped, winner, back, by rw [whole, isOthers, List.append_assoc],
      ⟨member, atWinner, outcome?_eq_some.mp ran⟩, fun position inFront other atPosition => ?_⟩
    rcases List.mem_append.mp inFront with early | between
    · have inFailed : other ∈ failed := by
        rw [← isFront]
        exact List.mem_filterMap.mpr ⟨position, early, atPosition⟩
      obtain ⟨inner, otherFailed⟩ := fails other inFailed
      exact ⟨inner, outcome?_eq_some.mp otherFailed⟩
    · cases (absent position between).symm.trans atPosition
  · rintro ⟨front, winner, back, split, ⟨member, atWinner, ran⟩, fails⟩
    refine ⟨front.filterMap fun position => members[position]?, member,
      back.filterMap fun position => members[position]?, ?_, outcome?_eq_some.mpr ran,
      fun other inFront => ?_⟩
    · rw [split, List.filterMap_append]
      simp only [List.filterMap_cons, atWinner]
    · obtain ⟨position, inOrder, atPosition⟩ := List.mem_filterMap.mp inFront
      obtain ⟨inner, failed⟩ := fails position inOrder other atPosition
      exact ⟨inner, outcome?_eq_some.mpr failed⟩

private theorem ok_of_first_declared {settings : Settings} {schema : Schema}
    {members : List Schema} (isUnion : schema.kind = .union members)
    (tell : IdentitiesTell members) {input value : Value}
    (ascending : (tried settings.direction members input).Pairwise (· < ·)) {winner : Nat}
    {member : Schema} (atWinner : members[winner]? = some member)
    (ran : Yields targets settings.failingFast member input (.ok value))
    (fails : ∀ position < winner, FailsAt targets settings members input position) :
    Yields targets settings schema input (.ok value) := by
  obtain ⟨front, back, split⟩ := List.append_of_mem (mem_tried tell atWinner ran)
  rw [split] at ascending
  have earlier := (List.pairwise_append.mp ascending).2.2
  exact (yields_union_ok_iff isUnion).mpr ⟨front, winner, back, split, ⟨member, atWinner, ran⟩,
    fun position inFront => fails position (earlier position inFront winner List.mem_cons_self)⟩

/-- A union tries all members that succeed, and gives what the first of the tried ones gives that
does not fail. If tagged members come first and share a key, this is the first of all members that
does not fail. -/
theorem union_takes_first_tried (settings : Settings) (id : NodeId) (annotations : Annotations)
    (members : List Schema) (input value : Value) (tell : IdentitiesTell members) :
    (∀ (position : Nat) (member : Schema) (result : Value), members[position]? = some member →
      Yields targets settings.failingFast member input (.ok result) →
      position ∈ tried settings.direction members input) ∧
    (Yields targets settings (.node id annotations (.union members)) input (.ok value) ↔
      ∃ front winner back, tried settings.direction members input = front ++ winner :: back ∧
        (∃ member, members[winner]? = some member ∧
          Yields targets settings.failingFast member input (.ok value)) ∧
        ∀ position ∈ front, FailsAt targets settings members input position) ∧
    ∀ key, TagIndex.TaggedFirst key settings.direction members → ∀ (winner : Nat) (member : Schema),
      members[winner]? = some member →
      Yields targets settings.failingFast member input (.ok value) →
      (∀ position < winner, FailsAt targets settings members input position) →
      Yields targets settings (.node id annotations (.union members)) input (.ok value) := by
  refine ⟨fun _ _ _ atPosition ran => mem_tried tell atPosition ran, yields_union_ok_iff rfl, ?_⟩
  intro key taggedFirst winner member atWinner ran fails
  have ascending := tried_pairwise taggedFirst input
  exact ok_of_first_declared rfl tell ascending atWinner ran fails

def labelled : Schema := .plain (.made 1) (.struct [⟨.string "label", .string, false⟩] [])

def starMark : Schema := .plain (.made 2) (.literal (.string "star"))

def starred : Schema := .plain (.made 3) (.struct [⟨.string "mark", starMark, false⟩] [])

def markNodes : List Schema := [labelled, starMark, starred, .string]

private theorem marks_tell : IdentitiesTell [starred, labelled] := by
  apply identitiesTell_of_written markNodes (by decide) (by decide)
  · simp [markNodes]
  · change [Schema.string, starMark] ⊆ _
    simp [markNodes]

/-- Both members take a label with a star, and the tagged one is declared first. -/
theorem starred_before_labelled :
    Yields (fun _ => labelled) ⟨.sync, {}, .decode⟩
      (.plain (.made 4) (.union [starred, labelled]))
      (.object [(.string "label", .string "a"), (.string "mark", .string "star")])
      (.ok (.object [(.string "mark", .string "star")])) := by
  have first := @union_takes_first_tried (fun _ => labelled) ⟨.sync, {}, .decode⟩ (.made 4) .empty
    [starred, labelled]
    (.object [(.string "label", .string "a"), (.string "mark", .string "star")])
    (.object [(.string "mark", .string "star")]) marks_tell
  have taggedFirst : TagIndex.TaggedFirst (.string "mark") .decode [starred, labelled] := by
    refine .tagged nofun (fun tag inTags => ?_) (.untagged fun schema inRest => ?_)
    · rw [List.mem_singleton.mp inTags]
    · rw [List.mem_singleton.mp inRest]
      rfl
  exact first.2.2 (.string "mark") taggedFirst 0 starred rfl ⟨4, rfl⟩ nofun

/-- Both members take a label with a star, but the tagged one is tried before the one that is
declared first. -/
theorem starred_after_labelled :
    Yields (fun _ => labelled) ⟨.sync, {}, .decode⟩ labelled
      (.object [(.string "label", .string "a"), (.string "mark", .string "star")])
      (.ok (.object [(.string "label", .string "a")])) ∧
    Yields (fun _ => labelled) ⟨.sync, {}, .decode⟩
      (.plain (.made 4) (.union [labelled, starred]))
      (.object [(.string "label", .string "a"), (.string "mark", .string "star")])
      (.ok (.object [(.string "mark", .string "star")])) ∧
    ¬Yields (fun _ => labelled) ⟨.sync, {}, .decode⟩
      (.plain (.made 4) (.union [labelled, starred]))
      (.object [(.string "label", .string "a"), (.string "mark", .string "star")])
      (.ok (.object [(.string "label", .string "a")])) := by
  have marked : Yields (fun _ => labelled) ⟨.sync, {}, .decode⟩
      (.plain (.made 4) (.union [labelled, starred]))
      (.object [(.string "label", .string "a"), (.string "mark", .string "star")])
      (.ok (.object [(.string "mark", .string "star")])) := ⟨5, rfl⟩
  refine ⟨⟨4, rfl⟩, marked, fun passedOver => ?_⟩
  simpa using passedOver.unique marked

end SchemaCodec.Run
