import SchemaCodec.Proofs.Schema.Identity
import SchemaCodec.Proofs.Schema.TagIndex

/-!
The tag index divides the members of a union. Listing one member keeps the index sound and adds the
member's position in one place, so that in the end each position stands in one place: among the
untagged ones, or in a single bucket of a single key.
-/

namespace SchemaCodec

/-- On the side where the run starts, a required field of the name holds the literal. A refinement, or
a transformation, has the fields of the schema that the run starts from. -/
inductive Schema.HoldsTag : Direction → Schema → PropertyKey → Literal → Prop where
  | struct {direction : Direction} {id : NodeId} {annotations : Annotations}
      {fields : List (Field Schema)} {field : Field Schema} {indexes : List (IndexSignature Schema)}
      {literal : Literal} (inFields : field ∈ fields) (required : field.optional = false)
      (isLiteral : (field.schema.sideOf direction.startSide).kind = .literal literal) :
      HoldsTag direction (.node id annotations (.struct fields indexes)) field.name literal
  | refinement {direction : Direction} {id : NodeId} {annotations : Annotations} {source : Schema}
      {filter : Filter} {key : PropertyKey} {literal : Literal}
      (below : HoldsTag direction source key literal) :
      HoldsTag direction (.node id annotations (.refinement source filter)) key literal
  | source {id : NodeId} {annotations : Annotations} {source target : Schema}
      {decode encode : Transformer} {strict : Bool} {key : PropertyKey} {literal : Literal}
      (below : HoldsTag .decode source key literal) :
      HoldsTag .decode (.node id annotations (.transform source target decode encode strict)) key
        literal
  | target {id : NodeId} {annotations : Annotations} {source target : Schema}
      {decode encode : Transformer} {strict : Bool} {key : PropertyKey} {literal : Literal}
      (below : HoldsTag .encode target key literal) :
      HoldsTag .encode (.node id annotations (.transform source target decode encode strict)) key
        literal

private theorem Schema.HoldsTag.exists_tag {direction : Direction} {schema : Schema}
    {key : PropertyKey}
    {literal : Literal} (holds : schema.HoldsTag direction key literal) :
    ∃ tag ∈ schema.tags direction, tag.key = key ∧ tag.literal = literal := by
  induction holds with
  | @struct direction _ _ fields field _ literal inFields required isLiteral =>
      refine ⟨⟨field.name, field.schema.sideOf direction.startSide, literal⟩, ?_, rfl, rfl⟩
      apply List.mem_filterMap.mpr
      refine ⟨field, inFields, ?_⟩
      simp only [Field.tag?, required, isLiteral, Bool.false_eq_true, if_false]
  | refinement _ ih => exact ih
  | source _ ih => exact ih
  | target _ ih => exact ih

/-- Each tag is that of a field below, which the schema holds. -/
private theorem Schema.exists_field_of_tag {roots : List Schema} {direction : Direction}
    {schema : Schema}
    (derived : Derived roots schema) {tag : Tag} (inTags : tag ∈ schema.tags direction) :
    ∃ field : Field Schema, field.tag? direction = some tag ∧ Derived roots field.schema ∧
      schema.HoldsTag direction tag.key tag.literal := by
  induction schema using childInduction with
  | node schema ih =>
      obtain ⟨id, annotations, kind⟩ := schema
      cases kind with
      | struct fields indexes =>
          obtain ⟨field, inFields, tagged⟩ := List.mem_filterMap.mp inTags
          have ⟨required, sameName, sameSchema, isLiteral⟩ := Field.tag?_eq_some tagged
          rw [sameSchema] at isLiteral
          rw [sameName]
          exact ⟨field, tagged, derived.child (field_mem_struct inFields),
            .struct inFields required isLiteral⟩
      | refinement source filter =>
          have below : source ∈ (Kind.refinement source filter).children := List.mem_singleton.mpr rfl
          obtain ⟨field, tagged, inBelow, holds⟩ := ih source below (derived.child below) inTags
          exact ⟨field, tagged, inBelow, .refinement holds⟩
      | transform source target decode encode strict =>
          have nearBelow : source ∈ (Kind.transform source target decode encode strict).children :=
            List.mem_cons_self
          have farBelow : target ∈ (Kind.transform source target decode encode strict).children :=
            List.mem_cons_of_mem _ List.mem_cons_self
          cases direction with
          | decode =>
              obtain ⟨field, tagged, inBelow, holds⟩ :=
                ih source nearBelow (derived.child nearBelow) inTags
              exact ⟨field, tagged, inBelow, .source holds⟩
          | encode =>
              obtain ⟨field, tagged, inBelow, holds⟩ :=
                ih target farBelow (derived.child farBelow) inTags
              exact ⟨field, tagged, inBelow, .target holds⟩
      | _ => cases inTags

private theorem Schema.holdsTag_of_mem {direction : Direction} {schema : Schema} {tag : Tag}
    (inTags : tag ∈ schema.tags direction) : schema.HoldsTag direction tag.key tag.literal := by
  have root : Derived [schema] schema := .root (List.mem_singleton.mpr rfl)
  obtain ⟨_, _, _, holds⟩ := exists_field_of_tag root inTags
  exact holds

theorem Schema.isLiteral_of_tag {direction : Direction} {schema : Schema} {tag : Tag}
    (inTags : tag ∈ schema.tags direction) : tag.schema.kind = .literal tag.literal := by
  have root : Derived [schema] schema := .root (List.mem_singleton.mpr rfl)
  obtain ⟨_, tagged, _⟩ := exists_field_of_tag root inTags
  exact (Field.tag?_eq_some tagged).2.2.2

theorem Schema.Derived.tag {roots : List Schema} {direction : Direction} {schema : Schema}
    (derived : Derived roots schema) {tag : Tag} (inTags : tag ∈ schema.tags direction) :
    Derived roots tag.schema := by
  obtain ⟨field, tagged, below, _⟩ := exists_field_of_tag derived inTags
  rw [(Field.tag?_eq_some tagged).2.2.1]
  exact below.side _

theorem Schema.tags_eq_nil_iff {direction : Direction} {schema : Schema} :
    schema.tags direction = [] ↔ ∀ key literal, ¬schema.HoldsTag direction key literal := by
  constructor
  · intro none key literal holds
    obtain ⟨tag, inTags, _⟩ := holds.exists_tag
    rw [none] at inTags
    cases inTags
  · intro untagged
    apply List.eq_nil_iff_forall_not_mem.mpr
    intro tag inTags
    exact untagged _ _ (Schema.holdsTag_of_mem inTags)

def TagAt (direction : Direction) (members : List Schema) (position : Nat) (tag : Tag) : Prop :=
  ∃ member, members[position]? = some member ∧ tag ∈ member.tags direction

theorem TagAt.append {direction : Direction} {members : List Schema} {position : Nat} {tag : Tag}
    (tagged : TagAt direction members position tag) (others : List Schema) :
    TagAt direction (members ++ others) position tag := by
  obtain ⟨member, atPosition, inTags⟩ := tagged
  have within : position < members.length := (List.getElem?_eq_some_iff.mp atPosition).1
  refine ⟨member, ?_, inTags⟩
  rw [List.getElem?_append_left within]
  exact atPosition

theorem TagAt.last {direction : Direction} {schema : Schema} {tag : Tag}
    (inTags : tag ∈ schema.tags direction) (members : List Schema) :
    TagAt direction (members ++ [schema]) members.length tag := by
  refine ⟨schema, ?_, inTags⟩
  rw [List.getElem?_append_right (Nat.le_refl _), Nat.sub_self]
  rfl

/-! ### One group -/

namespace TagGroup

def positions (group : TagGroup) : List Nat :=
  group.buckets.flatMap fun bucket => bucket.2

private theorem positions_add (group : TagGroup) (member : Nat) (tag : Tag) :
    (group.add member tag).positions.Perm (group.positions ++ [member]) :=
  Table.flatMap_insert_perm id [] rfl (List.Perm.refl _)

/-- What a group under a key tells of the members: no text comes twice, each bucket lists members with
the key and the text from first to last, and the literals are those of the texts. -/
structure Sound (direction : Direction) (members : List Schema) (key : PropertyKey)
    (group : TagGroup) : Prop where
  distinct : (Table.keys group.buckets).Nodup
  nonempty : ∀ bucket ∈ group.buckets, bucket.2 ≠ []
  ascending : ∀ bucket ∈ group.buckets, TagIndex.AscendingBelow members.length bucket.2
  tagged : ∀ bucket ∈ group.buckets, ∀ position ∈ bucket.2, ∃ tag,
    TagAt direction members position tag ∧ tag.key = key ∧ tag.literal.text = bucket.1
  literals : ∃ tags : List Tag, group.literals = tags.map Tag.schema ∧
    (∀ tag ∈ tags, ∃ position, TagAt direction members position tag) ∧
    ∀ text, text ∈ Table.keys group.buckets ↔ text ∈ tags.map fun tag => tag.literal.text

variable {direction : Direction} {members : List Schema} {key : PropertyKey} {group : TagGroup}

theorem sound_empty (direction : Direction) (members : List Schema) (key : PropertyKey) :
    empty.Sound direction members key where
  distinct := List.nodup_nil
  nonempty := nofun
  ascending := nofun
  tagged := nofun
  literals := ⟨[], rfl, nofun, fun _ => Iff.rfl⟩

theorem Sound.later (sound : group.Sound direction members key) (schema : Schema) :
    group.Sound direction (members ++ [schema]) key where
  distinct := sound.distinct
  nonempty := sound.nonempty
  ascending := by
    intro bucket inBuckets
    rw [List.length_append]
    exact (sound.ascending bucket inBuckets).succ
  tagged := by
    intro bucket inBuckets position inBucket
    obtain ⟨tag, tagged, same⟩ := sound.tagged bucket inBuckets position inBucket
    exact ⟨tag, tagged.append _, same⟩
  literals := by
    obtain ⟨tags, literals, each, texts⟩ := sound.literals
    refine ⟨tags, literals, ?_, texts⟩
    intro tag inTags
    obtain ⟨position, tagged⟩ := each tag inTags
    exact ⟨position, tagged.append _⟩

/-- Another member of the group comes last in its bucket. -/
theorem Sound.add (sound : group.Sound direction members key) {schema : Schema} {tag : Tag}
    (inTags : tag ∈ schema.tags direction) (underKey : tag.key = key) :
    (group.add members.length tag).Sound direction (members ++ [schema]) key := by
  have later := sound.later schema
  have here := TagAt.last inTags members
  have before := Table.getD_eq_or_mem tag.literal.text group.buckets []
  constructor
  · exact Table.nodup_insert sound.distinct
  · intro bucket inBuckets
    rcases Table.mem_insert inBuckets with rfl | old
    · exact List.append_ne_nil_of_right_ne_nil _ (List.cons_ne_nil _ _)
    · exact sound.nonempty bucket old
  · intro bucket inBuckets
    rcases Table.mem_insert inBuckets with rfl | old
    · rw [List.length_append]
      apply TagIndex.AscendingBelow.push
      rcases before with new | known
      · rw [new]
        exact ⟨List.Pairwise.nil, List.forall_mem_nil _⟩
      · exact sound.ascending _ known
    · exact later.ascending bucket old
  · intro bucket inBuckets position inBucket
    rcases Table.mem_insert inBuckets with rfl | old
    · rcases List.mem_append.mp inBucket with old | isNew
      · rcases before with new | known
        · rw [new] at old
          cases old
        · exact later.tagged _ known position old
      · rw [List.mem_singleton.mp isNew]
        exact ⟨tag, here, underKey, rfl⟩
    · exact later.tagged bucket old position inBucket
  · obtain ⟨tags, literals, each, texts⟩ := later.literals
    refine ⟨tags ++ [tag], ?_, ?_, ?_⟩
    · simp only [TagGroup.add, literals, List.map_append, List.map_cons, List.map_nil]
    · intro other inAll
      rcases List.mem_append.mp inAll with old | isNew
      · exact each other old
      · rw [List.mem_singleton.mp isNew]
        exact ⟨members.length, here⟩
    · intro text
      rw [TagGroup.add, Table.mem_keys_insert, texts, List.map_append, List.mem_append, or_comm]
      exact or_congr_right List.mem_singleton.symm

end TagGroup

/-! ### The index -/

namespace TagIndex

def positions (index : TagIndex) : List Nat :=
  (index.groups.flatMap fun entry => entry.2.positions) ++ index.untagged

private theorem positions_add (index : TagIndex) (member : Nat) (tags : List Tag) :
    (index.add member tags).positions.Perm (index.positions ++ [member]) := by
  unfold TagIndex.add positions
  cases index.choose? tags with
  | none =>
      rw [List.append_assoc]
  | some tag =>
      dsimp only
      have grown : ((Table.insert tag.key ((index.group tag.key).add member tag)
          index.groups).flatMap fun entry => entry.2.positions).Perm
          ((index.groups.flatMap fun entry => entry.2.positions) ++ [member]) := by
        apply Table.flatMap_insert_perm TagGroup.positions .empty rfl
        exact (index.group tag.key).positions_add member tag
      apply (grown.append_right _).trans
      rw [List.append_assoc, List.append_assoc]
      exact List.perm_append_comm.append_left _

structure Sound (direction : Direction) (members : List Schema) (index : TagIndex) : Prop where
  distinct : (Table.keys index.groups).Nodup
  group : ∀ entry ∈ index.groups, entry.2.Sound direction members entry.1
  ascending : AscendingBelow members.length index.untagged
  untagged : ∀ position ∈ index.untagged, ∃ member, members[position]? = some member ∧
    member.tags direction = []
  once : index.positions.Perm (List.range members.length)

variable {direction : Direction} {members : List Schema} {index : TagIndex}

theorem sound_empty (direction : Direction) : empty.Sound direction [] where
  distinct := List.nodup_nil
  group := nofun
  ascending := ⟨List.Pairwise.nil, nofun⟩
  untagged := nofun
  once := List.Perm.refl _

theorem Sound.add (sound : index.Sound direction members) (schema : Schema) :
    (index.add members.length (schema.tags direction)).Sound direction (members ++ [schema]) := by
  have once : (index.add members.length (schema.tags direction)).positions.Perm
      (List.range (members ++ [schema]).length) := by
    rw [List.length_append, List.length_singleton, List.range_succ]
    exact (index.positions_add _ _).trans (sound.once.append_right _)
  have untagged : ∀ position ∈ index.untagged, ∃ member,
      (members ++ [schema])[position]? = some member ∧ member.tags direction = [] := by
    intro position inUntagged
    obtain ⟨member, atPosition, none⟩ := sound.untagged position inUntagged
    rw [List.getElem?_append_left (sound.ascending.2 position inUntagged)]
    exact ⟨member, atPosition, none⟩
  have ascending : AscendingBelow (members ++ [schema]).length index.untagged := by
    rw [List.length_append]
    exact sound.ascending.succ
  revert once
  unfold TagIndex.add
  cases choice : index.choose? (schema.tags direction) with
  | none =>
      intro once
      refine ⟨sound.distinct, fun entry inGroups => (sound.group entry inGroups).later schema, ?_, ?_,
        once⟩
      · rw [List.length_append]
        exact sound.ascending.push
      · intro position inUntagged
        rcases List.mem_append.mp inUntagged with old | isNew
        · exact untagged position old
        · rw [List.mem_singleton.mp isNew, List.getElem?_append_right (Nat.le_refl _), Nat.sub_self]
          exact ⟨schema, rfl, choose?_eq_none_iff.mp choice⟩
  | some tag =>
      intro once
      refine ⟨Table.nodup_insert sound.distinct, ?_, ascending, untagged, once⟩
      intro entry inGroups
      rcases Table.mem_insert inGroups with rfl | old
      · have before : (index.group tag.key).Sound direction members tag.key := by
          rw [TagIndex.group]
          rcases Table.getD_eq_or_mem tag.key index.groups .empty with new | known
          · rw [new]
            exact TagGroup.sound_empty _ _ _
          · exact sound.group _ known
        exact before.add (mem_of_choose? choice) rfl
      · exact (sound.group entry old).later schema

theorem Sound.addAll {schemas : List Schema} (sound : index.Sound direction members) :
    (index.addAll direction members.length schemas).Sound direction (members ++ schemas) := by
  induction schemas generalizing index members with
  | nil =>
      rw [List.append_nil]
      exact sound
  | cons schema rest ih =>
      have added := ih (sound.add schema)
      rw [List.length_append, List.append_assoc] at added
      exact added

theorem sound_ofMembers (direction : Direction) (members : List Schema) :
    (ofMembers direction members).Sound direction members :=
  (sound_empty direction).addAll

theorem Sound.lt_of_mem (sound : index.Sound direction members) {position : Nat}
    (listed : position ∈ index.positions) : position < members.length :=
  List.mem_range.mp (sound.once.mem_iff.mp listed)

theorem Sound.nodup (sound : index.Sound direction members) : index.positions.Nodup :=
  sound.once.nodup_iff.mpr List.nodup_range

/-- A member is untagged if no required field of it holds a literal. -/
private theorem mem_untagged_iff {position : Nat} {member : Schema}
    (atPosition : members[position]? = some member) :
    position ∈ (ofMembers direction members).untagged ↔
      ∀ key literal, ¬member.HoldsTag direction key literal := by
  rw [← Schema.tags_eq_nil_iff]
  constructor
  · intro inUntagged
    obtain ⟨other, atPositionToo, none⟩ :=
      (sound_ofMembers direction members).untagged position inUntagged
    rw [atPosition] at atPositionToo
    cases atPositionToo
    exact none
  · intro none
    rcases @lists_ofMembers direction members position member atPosition with
      ⟨_, inUntagged⟩ | ⟨tag, inTags, _⟩
    · exact inUntagged
    · rw [none] at inTags
      cases inTags

end TagIndex

/-! ### The literals of a group -/

def Schema.literalTexts (schema : Schema) : List String :=
  schema.flattened.filterMap fun node =>
    match node.kind with
    | .literal literal => some literal.text
    | _ => none

private theorem Schema.mem_literalTexts {schema : Schema} {text : String} :
    text ∈ schema.literalTexts ↔
      ∃ node ∈ schema.flattened, ∃ literal, node.kind = .literal literal ∧ literal.text = text := by
  rw [literalTexts, List.mem_filterMap]
  apply exists_congr
  intro node
  apply and_congr_right
  intro _
  cases node.kind <;> simp

/-- Where identities tell nodes apart, the literals of a group are those of its texts. -/
private theorem TagGroup.Sound.mem_literalTexts {direction : Direction} {members : List Schema}
    {key : PropertyKey} {group : TagGroup} (sound : group.Sound direction members key)
    (tell : Schema.IdentitiesTell members) (text : String) :
    text ∈ group.union.literalTexts ↔ text ∈ Table.keys group.buckets := by
  obtain ⟨tags, literals, each, texts⟩ := sound.literals
  have tagged : ∀ tag ∈ tags, tag.schema.kind = .literal tag.literal ∧
      Schema.Derived members tag.schema := by
    intro tag inTags
    obtain ⟨_, member, atPosition, inMember⟩ := each tag inTags
    have root : Schema.Derived members member := .root (List.mem_of_getElem? atPosition)
    exact ⟨Schema.isLiteral_of_tag inMember, root.tag inMember⟩
  have whole : Schema.flattenedAll (tags.map Tag.schema) = tags.map Tag.schema := by
    apply Schema.flattenedAll_of_not_plain
    intro schema inSchemas
    obtain ⟨tag, inTags, rfl⟩ := List.mem_map.mp inSchemas
    exact Schema.not_plain_of_kind (tagged tag inTags).1 nofun
  have derived : ∀ schema ∈ tags.map Tag.schema, Schema.Derived members schema := by
    intro schema inSchemas
    obtain ⟨tag, inTags, rfl⟩ := List.mem_map.mp inSchemas
    exact (tagged tag inTags).2
  rw [texts, List.mem_map, Schema.mem_literalTexts, union, literals]
  constructor
  · intro ⟨node, inUnion, literal, isLiteral, sameText⟩
    rcases Schema.mem_of_mem_flattened_union inUnion with inMembers | never
    · have among := (Schema.mem_of_mem_unionMembers inMembers).1
      rw [whole] at among
      obtain ⟨tag, inTags, rfl⟩ := List.mem_map.mp among
      rw [(tagged tag inTags).1] at isLiteral
      cases isLiteral
      exact ⟨tag, inTags, sameText⟩
    · rw [never] at isLiteral
      cases isLiteral
  · intro ⟨tag, inTags, sameText⟩
    have isLiteral := (tagged tag inTags).1
    have among : tag.schema ∈ Schema.flattenedAll (tags.map Tag.schema) := by
      rw [whole]
      exact List.mem_map_of_mem inTags
    have kept := tell.mem_unionMembers derived among (Schema.isNever_of_kind isLiteral nofun)
    exact ⟨tag.schema, Schema.mem_flattened_union kept, tag.literal, isLiteral, sameText⟩

/-- Each member of a union stands in one place of the index: it is untagged if no required field of it
holds a literal, and else it is in one bucket of one key, with a required field of this key that holds a
literal of the bucket's text. Buckets are not empty, all lists go from first to last, and where
identities tell nodes apart, the literals of a key are those of its buckets' texts. -/
theorem TagIndex.members_divided (direction : Direction) (members : List Schema) :
    (ofMembers direction members).positions.Perm (List.range members.length) ∧
    (∀ (position : Nat) (member : Schema), members[position]? = some member →
      (position ∈ (ofMembers direction members).untagged ↔
        ∀ key literal, ¬member.HoldsTag direction key literal)) ∧
    (ofMembers direction members).untagged.Pairwise (· < ·) ∧
    (Table.keys (ofMembers direction members).groups).Nodup ∧
    ∀ entry ∈ (ofMembers direction members).groups,
      (Table.keys entry.2.buckets).Nodup ∧
      (∀ bucket ∈ entry.2.buckets, bucket.2 ≠ [] ∧ bucket.2.Pairwise (· < ·) ∧
        ∀ position ∈ bucket.2, ∃ member literal, members[position]? = some member ∧
          member.HoldsTag direction entry.1 literal ∧ literal.text = bucket.1) ∧
      (Schema.IdentitiesTell members →
        ∀ text, text ∈ entry.2.union.literalTexts ↔ text ∈ Table.keys entry.2.buckets) := by
  have sound := sound_ofMembers direction members
  refine ⟨sound.once, fun _ _ => mem_untagged_iff, sound.ascending.1, sound.distinct, ?_⟩
  intro entry inGroups
  have group := sound.group entry inGroups
  refine ⟨group.distinct, ?_, group.mem_literalTexts⟩
  intro bucket inBuckets
  refine ⟨group.nonempty bucket inBuckets, (group.ascending bucket inBuckets).1, ?_⟩
  intro position inBucket
  obtain ⟨tag, ⟨member, atPosition, inTags⟩, underKey, sameText⟩ :=
    group.tagged bucket inBuckets position inBucket
  have holds := Schema.holdsTag_of_mem inTags
  rw [underKey] at holds
  exact ⟨member, tag.literal, atPosition, holds, sameText⟩

def singleMark : Schema := .plain (.made 1) (.literal (.string "single"))

def innerMark : Schema := .plain (.made 2) (.literal (.string "inner"))

def outerMark : Schema := .plain (.made 3) (.literal (.string "outer"))

def fareField : Field Schema := ⟨.string "fare", singleMark, false⟩

def tickets : List Schema :=
  [.plain (.made 4) (.struct [fareField, ⟨.string "zone", innerMark, false⟩] []),
    .plain (.made 5) (.struct [fareField, ⟨.string "zone", outerMark, false⟩] []),
    .plain (.made 6) (.struct [⟨.string "remark", .string, false⟩] []),
    .plain (.made 7) (.struct [fareField] [])]

private theorem tickets_tell : Schema.IdentitiesTell tickets := by
  apply Schema.identitiesTell_of_written
    (singleMark :: innerMark :: outerMark :: .string :: tickets) (by decide) (by decide)
  · intro ticket inTickets
    simp only [List.mem_cons, inTickets, or_true]
  · change [singleMark, innerMark, singleMark, outerMark, Schema.string, singleMark] ⊆ _
    simp

/-- The second ticket is told apart by its zone, and the last one shares the bucket of the first. -/
theorem tickets_divided :
    Schema.IdentitiesTell tickets ∧
    (TagIndex.ofMembers .decode tickets).positions = [0, 3, 1, 2] ∧
    (TagIndex.ofMembers .decode tickets).positions.Perm (List.range 4) ∧
    ∀ entry ∈ (TagIndex.ofMembers .decode tickets).groups,
      ∀ text, text ∈ entry.2.union.literalTexts ↔ text ∈ Table.keys entry.2.buckets := by
  obtain ⟨once, _, _, _, each⟩ := TagIndex.members_divided .decode tickets
  refine ⟨tickets_tell, rfl, once, ?_⟩
  intro entry inGroups
  obtain ⟨_, _, literals⟩ := each entry inGroups
  exact literals tickets_tell

end SchemaCodec
