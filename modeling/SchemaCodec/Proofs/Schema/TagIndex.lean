import SchemaCodec.Proofs.Table
import SchemaCodec.Schema.TagIndex

/-!
What the tag index of a union holds: every member without tags is among the untagged ones, and every
other member is in a bucket of one of its tags. A member that is listed stays listed.
-/

namespace SchemaCodec

/-- A field has a tag if it is required and holds a literal on the side where the run starts. -/
theorem Field.tag?_eq_some {direction : Direction} {field : Field Schema} {tag : Tag}
    (tagged : field.tag? direction = some tag) :
    field.optional = false ∧ tag.key = field.name ∧
      tag.schema = field.schema.sideOf direction.startSide ∧
      tag.schema.kind = .literal tag.literal := by
  unfold Field.tag? at tagged
  split at tagged
  · cases tagged
  · rename_i required
    simp only at tagged
    split at tagged
    · rename_i literal isLiteral
      cases tagged
      exact ⟨by simpa using required, rfl, rfl, isLiteral⟩
    · cases tagged

namespace TagIndex

/-- The member is in the bucket of the tag. -/
def Buckets (index : TagIndex) (member : Nat) (tag : Tag) : Prop :=
  ∃ group bucket, Table.find? tag.key index.groups = some group ∧
    Table.find? tag.literal.text group.buckets = some bucket ∧ member ∈ bucket

def Lists (index : TagIndex) (member : Nat) (tags : List Tag) : Prop :=
  (tags = [] ∧ member ∈ index.untagged) ∨ ∃ tag ∈ tags, index.Buckets member tag

theorem mem_of_choose? {index : TagIndex} {tags : List Tag} {tag : Tag}
    (chosen : index.choose? tags = some tag) : tag ∈ tags := by
  induction tags with
  | nil => cases chosen
  | cons first rest ih =>
      cases rest with
      | nil =>
          cases chosen
          exact List.mem_cons_self
      | cons next rest =>
          rw [choose?] at chosen
          split at chosen
          · exact List.mem_cons_of_mem _ (ih chosen)
          · cases chosen
            exact List.mem_cons_self

theorem choose?_eq_none_iff {index : TagIndex} {tags : List Tag} :
    index.choose? tags = none ↔ tags = [] := by
  induction tags with
  | nil => exact ⟨fun _ => rfl, fun _ => rfl⟩
  | cons first rest ih =>
      refine ⟨fun none => ?_, nofun⟩
      cases rest with
      | nil => cases none
      | cons next rest =>
          rw [choose?] at none
          split at none
          · cases ih.mp none
          · cases none

/-- Adding a tag to a group keeps what is in the buckets. -/
private theorem bucket_add {group : TagGroup} {member other : Nat} {tag : Tag} {text : String}
    {bucket : List Nat} (found : Table.find? text group.buckets = some bucket)
    (inBucket : member ∈ bucket) :
    ∃ larger, Table.find? text (group.add other tag).buckets = some larger ∧ member ∈ larger := by
  rw [TagGroup.add, Table.find?_insert]
  by_cases same : tag.literal.text = text
  · rw [if_pos same, same, found]
    exact ⟨_, rfl, List.mem_append_left _ inBucket⟩
  · rw [if_neg same]
    exact ⟨bucket, found, inBucket⟩

theorem Buckets.add {index : TagIndex} {member other : Nat} {tag : Tag} {tags : List Tag}
    (buckets : index.Buckets member tag) : (index.add other tags).Buckets member tag := by
  obtain ⟨group, bucket, groupFound, bucketFound, inBucket⟩ := buckets
  unfold TagIndex.add
  cases index.choose? tags with
  | none => exact ⟨group, bucket, groupFound, bucketFound, inBucket⟩
  | some chosen =>
      by_cases same : chosen.key = tag.key
      · obtain ⟨larger, largerFound, inLarger⟩ :=
          @bucket_add group member other chosen _ _ bucketFound inBucket
        refine ⟨group.add other chosen, larger, ?_, largerFound, inLarger⟩
        simp only [Table.find?_insert, same, if_true, TagIndex.group, groupFound, Option.getD_some]
      · refine ⟨group, bucket, ?_, bucketFound, inBucket⟩
        simp only [Table.find?_insert, if_neg same]
        exact groupFound

theorem Lists.add {index : TagIndex} {member other : Nat} {tags otherTags : List Tag}
    (lists : index.Lists member tags) : (index.add other otherTags).Lists member tags := by
  rcases lists with ⟨none, untagged⟩ | ⟨tag, inTags, buckets⟩
  · refine Or.inl ⟨none, ?_⟩
    unfold TagIndex.add
    cases index.choose? otherTags with
    | none => exact List.mem_append_left _ untagged
    | some chosen => exact untagged
  · exact Or.inr ⟨tag, inTags, buckets.add⟩

/-- The member that is added is listed. -/
private theorem lists_add (index : TagIndex) (member : Nat) (tags : List Tag) :
    (index.add member tags).Lists member tags := by
  unfold TagIndex.add
  cases choice : index.choose? tags with
  | none =>
      exact Or.inl ⟨choose?_eq_none_iff.mp choice,
        List.mem_append_right _ (List.mem_singleton.mpr rfl)⟩
  | some chosen =>
      let bucket := (Table.find? chosen.literal.text (index.group chosen.key).buckets).getD []
      refine Or.inr ⟨chosen, mem_of_choose? choice, (index.group chosen.key).add member chosen,
        bucket ++ [member], ?_, ?_, List.mem_append_right _ (List.mem_singleton.mpr rfl)⟩
      · simp only [Table.find?_insert, if_true]
      · simp only [TagGroup.add, Table.find?_insert, if_true]
        rfl

theorem Lists.addAll {index : TagIndex} {member next : Nat} {tags : List Tag}
    {direction : Direction} {schemas : List Schema} (lists : index.Lists member tags) :
    (index.addAll direction next schemas).Lists member tags := by
  induction schemas generalizing index next with
  | nil => exact lists
  | cons schema rest ih => exact ih lists.add

private theorem lists_addAll {index : TagIndex} {direction : Direction} {next position : Nat}
    {schemas : List Schema} {schema : Schema} (found : schemas[position]? = some schema) :
    (index.addAll direction next schemas).Lists (next + position) (schema.tags direction) := by
  induction schemas generalizing index next position with
  | nil => cases found
  | cons first rest ih =>
      cases position with
      | zero =>
          cases found
          exact (lists_add index next (schema.tags direction)).addAll
      | succ position =>
          have shifted : next + 1 + position = next + (position + 1) := by omega
          rw [← shifted]
          exact ih found

/-- Every member of a union is listed. -/
theorem lists_ofMembers {direction : Direction} {members : List Schema} {position : Nat}
    {schema : Schema} (found : members[position]? = some schema) :
    (ofMembers direction members).Lists position (schema.tags direction) := by
  have listed := @lists_addAll .empty direction 0 position members schema found
  rwa [Nat.zero_add] at listed

/-! ### Order -/

def AscendingBelow (next : Nat) (positions : List Nat) : Prop :=
  positions.Pairwise (· < ·) ∧ ∀ position ∈ positions, position < next

theorem AscendingBelow.succ {next : Nat} {positions : List Nat}
    (ascending : AscendingBelow next positions) : AscendingBelow (next + 1) positions :=
  ⟨ascending.1, fun position member => Nat.lt_succ_of_lt (ascending.2 position member)⟩

theorem AscendingBelow.push {next : Nat} {positions : List Nat}
    (ascending : AscendingBelow next positions) :
    AscendingBelow (next + 1) (positions ++ [next]) := by
  obtain ⟨ordered, below⟩ := ascending
  refine ⟨List.pairwise_append.mpr ⟨ordered, List.pairwise_singleton _ _, ?_⟩, ?_⟩
  · intro position member other isNext
    rw [List.mem_singleton.mp isNext]
    exact below position member
  · intro position member
    rcases List.mem_append.mp member with earlier | isNext
    · exact Nat.lt_succ_of_lt (below position earlier)
    · rw [List.mem_singleton.mp isNext]
      exact Nat.lt_succ_self next

/-- All tags are under one key, and whichever bucket the input chooses, the members to try are in
the order in which they were added. -/
structure InOrder (key : PropertyKey) (index : TagIndex) (next : Nat) : Prop where
  single : index.groups = [] ∨ ∃ group, index.groups = [(key, group)]
  bucket : ∀ entry ∈ index.groups, ∀ bucket ∈ entry.2.buckets,
    AscendingBelow next (bucket.2 ++ index.untagged)
  untagged : AscendingBelow next index.untagged

private theorem inOrder_empty (key : PropertyKey) : TagIndex.empty.InOrder key 0 :=
  ⟨Or.inl rfl, nofun, List.Pairwise.nil, nofun⟩

private theorem InOrder.add_untagged {key : PropertyKey} {index : TagIndex} {next : Nat}
    (inOrder : index.InOrder key next) : (index.add next []).InOrder key (next + 1) where
  single := inOrder.single
  bucket entry inGroups bucket inBuckets := by
    have pushed := (inOrder.bucket entry inGroups bucket inBuckets).push
    rw [List.append_assoc] at pushed
    exact pushed
  untagged := inOrder.untagged.push

/-- As long as no member is untagged, another tagged member comes last in its bucket. -/
private theorem InOrder.add_tagged {key : PropertyKey} {index : TagIndex} {next : Nat}
    {tags : List Tag}
    (inOrder : index.InOrder key next) (none : index.untagged = []) (tagged : tags ≠ [])
    (underKey : ∀ tag ∈ tags, tag.key = key) :
    (index.add next tags).InOrder key (next + 1) ∧ (index.add next tags).untagged = [] := by
  obtain ⟨tag, chosen⟩ : ∃ tag, index.choose? tags = some tag :=
    Option.ne_none_iff_exists'.mp fun absent => tagged (choose?_eq_none_iff.mp absent)
  have atKey := underKey tag (mem_of_choose? chosen)
  have added : index.add next tags =
      { index with
        groups := Table.insert tag.key ((index.group tag.key).add next tag) index.groups } := by
    simp only [TagIndex.add, chosen]
  have known : ∀ bucket ∈ (index.group tag.key).buckets, AscendingBelow next bucket.2 := by
    intro bucket inBuckets
    rw [TagIndex.group] at inBuckets
    cases found : Table.find? tag.key index.groups with
    | none =>
        rw [found] at inBuckets
        cases inBuckets
    | some group =>
        rw [found] at inBuckets
        have ascending := inOrder.bucket _ (Table.mem_of_find? found) bucket inBuckets
        rw [none, List.append_nil] at ascending
        exact ascending
  rw [added]
  refine ⟨⟨?_, fun entry inGroups bucket inBuckets => ?_, inOrder.untagged.succ⟩, none⟩
  · rw [atKey]
    refine Or.inr ⟨(index.group key).add next tag, ?_⟩
    rcases inOrder.single with empty | ⟨group, only⟩
    · simp only [empty, Table.insert]
    · simp only [only, Table.insert, if_true]
  · change AscendingBelow (next + 1) (bucket.2 ++ index.untagged)
    rw [none, List.append_nil]
    rcases Table.mem_insert inGroups with rfl | before
    · rcases Table.mem_insert inBuckets with rfl | old
      · refine AscendingBelow.push ?_
        cases found : Table.find? tag.literal.text (index.group tag.key).buckets with
        | none => exact ⟨List.Pairwise.nil, List.forall_mem_nil _⟩
        | some positions => exact known _ (Table.mem_of_find? found)
      · exact (known bucket old).succ
    · have ascending := inOrder.bucket entry before bucket inBuckets
      rw [none, List.append_nil] at ascending
      exact ascending.succ

private theorem InOrder.addAll_untagged {key : PropertyKey} {direction : Direction}
    {index : TagIndex}
    {next : Nat} {schemas : List Schema} (inOrder : index.InOrder key next)
    (untagged : ∀ schema ∈ schemas, schema.tags direction = []) :
    (index.addAll direction next schemas).InOrder key (next + schemas.length) := by
  induction schemas generalizing index next with
  | nil => exact inOrder
  | cons schema rest ih =>
      obtain ⟨here, later⟩ := List.forall_mem_cons.mp untagged
      have added := ih (here ▸ inOrder.add_untagged) later
      rw [Nat.add_assoc, Nat.add_comm 1] at added
      exact added

/-- Tagged members whose tags are all under the key come first, and untagged members after them. -/
inductive TaggedFirst (key : PropertyKey) (direction : Direction) : List Schema → Prop where
  | untagged {schemas : List Schema} (none : ∀ schema ∈ schemas, schema.tags direction = []) :
      TaggedFirst key direction schemas
  | tagged {schema : Schema} {rest : List Schema} (some : schema.tags direction ≠ [])
      (underKey : ∀ tag ∈ schema.tags direction, tag.key = key)
      (later : TaggedFirst key direction rest) : TaggedFirst key direction (schema :: rest)

theorem TaggedFirst.addAll {key : PropertyKey} {direction : Direction} {index : TagIndex}
    {next : Nat} {schemas : List Schema} (taggedFirst : TaggedFirst key direction schemas)
    (inOrder : index.InOrder key next) (none : index.untagged = []) :
    (index.addAll direction next schemas).InOrder key (next + schemas.length) := by
  induction taggedFirst generalizing index next with
  | untagged untagged => exact inOrder.addAll_untagged untagged
  | @tagged schema rest some underKey _ ih =>
      obtain ⟨added, noneAfter⟩ := inOrder.add_tagged none some underKey
      have addedAll := ih added noneAfter
      rw [Nat.add_assoc, Nat.add_comm 1] at addedAll
      exact addedAll

theorem TaggedFirst.inOrder {key : PropertyKey} {direction : Direction} {members : List Schema}
    (taggedFirst : TaggedFirst key direction members) :
    (ofMembers direction members).InOrder key members.length := by
  have inOrder := taggedFirst.addAll (inOrder_empty key) rfl
  rw [Nat.zero_add] at inOrder
  exact inOrder

end TagIndex

end SchemaCodec
