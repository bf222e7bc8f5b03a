import SchemaCodec.Proofs.Run.FaultMode
import SchemaCodec.Proofs.Run.Tags
import SchemaCodec.Proofs.Schema.TagIndex
import SchemaCodec.Schema.Transform

/-!
The search of a union loses no match. The members that the tags of the input leave out would fail,
the members that flattening and identity leave out are there under another place, and a union of a
single member runs like that member. So a union succeeds exactly if one of the schemas it was made of
does.
-/

namespace SchemaCodec.Run

open Schema

variable {targets : Targets}

/-! ### Candidates -/

private theorem mem_tagCandidates {members : Members} {groups : List (PropertyKey × TagGroup)}
    {entry : PropertyKey × TagGroup} {bucket : List Nat} {position : Nat} (inGroups : entry ∈ groups)
    (chosen : groupCandidates members entry = .ok bucket) (inBucket : position ∈ bucket) :
    position ∈ (tagCandidates members groups).2 := by
  induction groups with
  | nil => cases inGroups
  | cons first rest ih =>
      rw [tagCandidates]
      rcases List.mem_cons.mp inGroups with rfl | later
      · rw [chosen]
        exact List.mem_append_left _ inBucket
      · cases groupCandidates members first with
        | ok others => exact List.mem_append_right _ (ih later)
        | error fault => exact ih later

theorem exists_bucket_of_groupCandidates {object : Members} {entry : PropertyKey × TagGroup}
    {positions : List Nat}
    (chosen : groupCandidates object entry = .ok positions) :
    ∃ bucket ∈ entry.2.buckets, bucket.2 = positions := by
  unfold groupCandidates at chosen
  split at chosen
  · cases chosen
  · split at chosen
    · rename_i found
      cases chosen
      exact ⟨_, Table.mem_of_find? found, rfl⟩
    · cases chosen

/-- A member whose tags the input has is tried. -/
theorem mem_candidates {index : TagIndex} {position : Nat} {tags : List Tag} {input : Value}
    (lists : index.Lists position tags) (fits : ∀ tag ∈ tags, tag.Fits input) :
    position ∈ (candidates index input).2 := by
  unfold candidates
  rcases lists with ⟨_, untagged⟩ | ⟨tag, inTags, group, bucket, groupFound, bucketFound, inBucket⟩
  · split
    · exact untagged
    · split
      · exact List.mem_append_right _ untagged
      · exact untagged
  · obtain ⟨members, value, rfl, found, sameText⟩ := fits tag inTags
    have inGroups := Table.mem_of_find? groupFound
    have notEmpty : ¬index.isEmpty = true := by
      rw [TagIndex.isEmpty, List.isEmpty_iff]
      intro none
      rw [none] at inGroups
      cases inGroups
    have chosen : groupCandidates members (tag.key, group) = .ok bucket := by
      simp only [groupCandidates, found, sameText, bucketFound]
    rw [if_neg notEmpty]
    exact List.mem_append_left _ (mem_tagCandidates inGroups chosen inBucket)

/-! ### The first member that succeeds -/

theorem error_of_firstOf_error {run : Schema → Value → Option Outcome} {input : Value}
    {faults : List Fault} {schemas : List Schema} {failure : Faults}
    (found : firstOf run input faults schemas = some (.error failure)) {schema : Schema}
    (member : schema ∈ schemas) : ∃ inner, run schema input = some (.error inner) := by
  induction schemas generalizing faults with
  | nil => cases member
  | cons first rest ih =>
      obtain ⟨outcome, ran, after⟩ := Option.bind_eq_some_iff.mp found
      cases outcome with
      | ok result => cases after
      | error inner =>
          rcases List.mem_cons.mp member with rfl | later
          · exact ⟨inner, ran⟩
          · exact ih after later

/-- A union that fails has tried every member whose tags the input has, and these have failed. -/
theorem error_of_union_error {run : Schema → Value → Option Outcome} {direction : Direction}
    {members : List Schema} {input : Value} {failure : Faults}
    (found : union run direction members input = some (.error failure)) {member : Schema}
    (inMembers : member ∈ members) (fits : ∀ tag ∈ member.tags direction, tag.Fits input) :
    ∃ inner, run member input = some (.error inner) := by
  obtain ⟨position, atPosition⟩ := List.mem_iff_getElem?.mp inMembers
  have tried := mem_candidates (TagIndex.lists_ofMembers atPosition) fits
  exact error_of_firstOf_error found (List.mem_filterMap.mpr ⟨position, tried, atPosition⟩)

/-- A union comes to an end with a success if one of its members succeeds. -/
private theorem ok_of_member {roots : List Schema} (tell : IdentitiesTell roots)
    {settings : Settings}
    {schema member : Schema} {members : List Schema} (isUnion : schema.kind = .union members)
    (derived : Derived roots member) (inMembers : member ∈ members) {input value : Value}
    (ran : Yields targets settings.failingFast member input (.ok value))
    (ends : Ends targets settings schema input) :
    ∃ result, Yields targets settings schema input (.ok result) := by
  obtain ⟨outcome, yields⟩ := ends
  cases outcome with
  | ok result => exact ⟨result, yields⟩
  | error failure =>
      obtain ⟨inner, failed⟩ := error_of_union_error ((yields_union isUnion).mp yields) inMembers
        fun tag inTags => fits_of_run tell derived ran inTags
      have same := ran.unique (outcome?_eq_some.mp failed)
      cases same

/-- The schema that accepts nothing never succeeds. -/
theorem isNever_of_ok {settings : Settings} {schema : Schema} {input value : Value}
    (ran : Yields targets settings schema input (.ok value)) : schema.isNever = false := by
  unfold isNever
  split
  · rename_i isNever
    have leaf := isLeaf_of_kind isNever trivial
    have admits := ((step_leaf leaf).mp (yields_iff_step.mp ran)).1
    rw [isNever] at admits
    cases admits
  · rfl

/-! ### Members of members -/

/-- A member of a member succeeds where the member does, with the same value. -/
theorem exists_flattened_of_ok {settings : Settings} {schema : Schema} {input value : Value}
    (ran : Yields targets settings.failingFast schema input (.ok value)) :
    ∃ node ∈ schema.flattened, Yields targets settings.failingFast node input (.ok value) := by
  induction schema using childInduction with
  | node schema ih =>
      by_cases plain : schema.IsPlainUnion
      · obtain ⟨bare, members, isUnion⟩ := plain
        obtain ⟨member, inMembers, memberRan⟩ := exists_of_union_ok ((yields_union isUnion).mp ran)
        obtain ⟨node, inFlattened, nodeRan⟩ :=
          ih member (by rw [isUnion]; exact inMembers) (outcome?_eq_some.mp memberRan)
        refine ⟨node, ?_, nodeRan⟩
        rw [flattened_of_union isUnion bare]
        exact mem_flattenedAll.mpr ⟨member, inMembers, inFlattened⟩
      · refine ⟨schema, ?_, ran⟩
        rw [flattened_of_not_plain plain]
        exact List.mem_singleton.mpr rfl

theorem tags_of_union {direction : Direction} {schema : Schema} {members : List Schema}
    (isUnion : schema.kind = .union members) : schema.tags direction = [] := by
  obtain ⟨id, annotations, kind⟩ := schema
  cases isUnion
  rfl

/-- A schema that fails has tried every node in it whose tags the input has. -/
theorem error_of_nested {settings : Settings} {schema node : Schema} (nested : schema.Nested node)
    {input : Value} (fits : ∀ tag ∈ node.tags settings.direction, tag.Fits input) {failure : Faults}
    (failed : Yields targets settings.failingFast schema input (.error failure)) :
    ∃ inner, Yields targets settings.failingFast node input (.error inner) := by
  induction nested generalizing failure with
  | self => exact ⟨failure, failed⟩
  | @member schema member node members isUnion inMembers nested ih =>
      have memberFits : ∀ tag ∈ member.tags settings.direction, tag.Fits input := by
        cases nested with
        | self => exact fits
        | member memberUnion _ _ =>
            rw [tags_of_union memberUnion]
            exact nofun
      obtain ⟨inner, memberFailed⟩ :=
        error_of_union_error ((yields_union isUnion).mp failed) inMembers memberFits
      exact ih fits (outcome?_eq_some.mp memberFailed)

/-- A member succeeds where a member of it does, if it comes to an end. -/
private theorem ok_of_flattened {roots : List Schema} (tell : IdentitiesTell roots)
    {settings : Settings}
    {schema node : Schema} (derived : Derived roots schema) (inFlattened : node ∈ schema.flattened)
    {input value : Value} (ran : Yields targets settings.failingFast node input (.ok value))
    (ends : Ends targets settings.failingFast schema input) :
    ∃ result, Yields targets settings.failingFast schema input (.ok result) := by
  obtain ⟨outcome, yields⟩ := ends
  cases outcome with
  | ok result => exact ⟨result, yields⟩
  | error failure =>
      obtain ⟨inner, failed⟩ := error_of_nested (nested_of_flattened inFlattened)
        (fun tag inTags => fits_of_run tell (derived.flattened inFlattened) ran inTags) yields
      cases ran.unique failed

/-! ### The search -/

/-- Functions do not look at the fault mode and structs are well formed, in all of the schema. -/
abbrev Regular (targets : Targets) (schema : Schema) : Prop :=
  schema.Throughout targets fun node => node.kind.WellFormed ∧ node.kind.IgnoresFaultMode

/-- A run that comes to an end does so when it stops at the first fault, too. -/
theorem failingFast_alike {schema : Schema} (regular : Regular targets schema) {settings : Settings}
    {input : Value} {outcome : Outcome} (yields : Yields targets settings schema input outcome) :
    ∃ other, Yields targets settings.failingFast schema input other ∧ other.Alike outcome := by
  obtain ⟨depth, found⟩ := yields
  have follows : Abridgement.any.Level (parse targets depth (settings.withFaults .first) schema input)
      (parse targets depth (settings.withFaults .all) schema input) :=
    parse_follows .any
      (fun node reached => ⟨(regular node reached).1, (regular node reached).2, Or.inl trivial⟩)
      depth settings input
  cases mode : settings.options.faults with
  | first =>
      have same : settings = settings.failingFast := by
        obtain ⟨execution, ⟨faults, excess, exact⟩, direction⟩ := settings
        cases mode
        rfl
      rw [same] at found
      refine ⟨outcome, ⟨depth, found⟩, ?_⟩
      cases outcome with
      | ok value => exact .ok value
      | error faults => exact .error faults faults
  | all =>
      have same : settings = settings.withFaults .all := by
        obtain ⟨execution, ⟨faults, excess, exact⟩, direction⟩ := settings
        cases mode
        rfl
      rw [← same, found] at follows
      generalize stopped : parse targets depth (settings.withFaults .first) schema input = result
        at follows
      cases follows with
      | value value => exact ⟨_, ⟨depth, stopped⟩, .ok value⟩
      | fault _ => exact ⟨_, ⟨depth, stopped⟩, .error _ _⟩

/-- Runs in two fault modes that come to an end differ in nothing but the faults. -/
theorem Yields.alike {schema : Schema} (regular : Regular targets schema)
    {settings others : Settings} (same : settings.failingFast = others.failingFast) {input : Value}
    {outcome outcomeToo : Outcome} (yields : Yields targets settings schema input outcome)
    (yieldsToo : Yields targets others schema input outcomeToo) : outcome.Alike outcomeToo := by
  obtain ⟨stopped, ran, alike⟩ := failingFast_alike regular yields
  obtain ⟨stoppedToo, ranToo, alikeToo⟩ := failingFast_alike regular yieldsToo
  rw [← same] at ranToo
  cases Yields.unique ran ranToo
  cases alike with
  | ok value =>
      cases alikeToo
      exact .ok value
  | error _ faults =>
      cases alikeToo
      exact .error _ _

def circleTag : Schema := .plain (.made 1) (.literal (.string "circle"))

def circle : Schema := .plain (.made 2) (.struct [⟨.string "kind", circleTag, false⟩] [])

def squareTag : Schema := .plain (.made 3) (.literal (.string "square"))

/-- Not a literal, but it starts from one. -/
def squareName : Schema := Schema.transform (.made 4) squareTag .string .identity .identity

def square : Schema := .plain (.made 5) (.struct [⟨.string "kind", squareName, false⟩] [])

def shapes : Schema := .plain (.made 6) (.union [circle, square])

def shapeNodes : List Schema :=
  [circle, circleTag, shapes, square, squareName, squareTag, .string, .never, square.inputSide,
    square.outputSide, shapes.inputSide, shapes.outputSide]

private theorem shapeNodes_children : shapeNodes.flatMap (·.kind.children) ⊆ shapeNodes := by
  have children : shapeNodes.flatMap (·.kind.children) =
      [circleTag, circle, square, squareName, squareTag, .string, squareTag, .string, circle,
        square.inputSide, circle, square.outputSide] := rfl
  rw [children]
  simp [shapeNodes]

private theorem shapes_identitiesTell : IdentitiesTell [circle, shapes, .never] := by
  apply identitiesTell_of_written
    [circle, circleTag, shapes, square, squareName, squareTag, .string, .never] (by decide) (by decide)
  · simp
  · change [circleTag, circle, square, squareName, squareTag, Schema.string] ⊆ _
    simp

private theorem shapes_throughout : ∀ schema ∈ [circle, shapes, Schema.never],
    schema.Throughout targets fun node => node.kind.WellFormed ∧ node.kind.IgnoresFaultMode := by
  intro schema member
  refine .of_closed shapeNodes shapeNodes_children ?_ ?_
  · simp only [shapeNodes, List.forall_mem_cons]
    have named : (Kind.struct [⟨.string "kind", squareTag, false⟩] []).WellFormed :=
      ⟨List.nodup_cons.mpr ⟨nofun, .nil⟩, nofun⟩
    exact ⟨⟨nofun, named, trivial⟩, ⟨nofun, trivial, trivial⟩, ⟨nofun, trivial, trivial⟩,
      ⟨nofun, named, trivial⟩, ⟨nofun, trivial, fun _ _ _ _ => rfl, fun _ _ _ _ => rfl⟩,
      ⟨nofun, trivial, trivial⟩, ⟨nofun, trivial, trivial⟩, ⟨nofun, trivial, trivial⟩,
      ⟨nofun, named, trivial⟩, ⟨nofun, named, trivial⟩, ⟨nofun, trivial, trivial⟩,
      ⟨nofun, trivial, trivial⟩, nofun⟩
  · revert schema
    simp [shapeNodes]

end SchemaCodec.Run
