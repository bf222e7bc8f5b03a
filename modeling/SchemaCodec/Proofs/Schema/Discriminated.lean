import SchemaCodec.Proofs.Pairing
import SchemaCodec.Proofs.Schema.TagPartition

/-!
Discriminated unions. The first tags of the members are under one key, and no two of them have the
same text. The index of such a union has a single group with one bucket for each member: no other tag
of a member, wherever it stands, adds a group or moves the member elsewhere.
-/

namespace SchemaCodec

/-- The first tag of a schema: the first field of a struct that is required and holds a literal on
the side where the run starts. A refinement, or a transformation, has the first tag of the schema
that the run starts from. -/
inductive Schema.FirstTag : Direction → Schema → Tag → Prop where
  | struct {direction : Direction} {id : NodeId} {annotations : Annotations}
      {before after : List (Field Schema)} {field : Field Schema}
      {indexes : List (IndexSignature Schema)} {tag : Tag}
      (untagged : ∀ other ∈ before, other.tag? direction = none)
      (tagged : field.tag? direction = some tag) :
      FirstTag direction (.node id annotations (.struct (before ++ field :: after) indexes)) tag
  | refinement {direction : Direction} {id : NodeId} {annotations : Annotations} {source : Schema}
      {filter : Filter} {tag : Tag} (below : FirstTag direction source tag) :
      FirstTag direction (.node id annotations (.refinement source filter)) tag
  | source {id : NodeId} {annotations : Annotations} {source target : Schema}
      {decode encode : Transformer} {strict : Bool} {tag : Tag}
      (below : FirstTag .decode source tag) :
      FirstTag .decode (.node id annotations (.transform source target decode encode strict)) tag
  | target {id : NodeId} {annotations : Annotations} {source target : Schema}
      {decode encode : Transformer} {strict : Bool} {tag : Tag}
      (below : FirstTag .encode target tag) :
      FirstTag .encode (.node id annotations (.transform source target decode encode strict)) tag

private theorem Schema.FirstTag.tags_eq {direction : Direction} {schema : Schema} {tag : Tag}
    (first : schema.FirstTag direction tag) : ∃ rest, schema.tags direction = tag :: rest := by
  induction first with
  | @struct direction _ _ before after field _ tag untagged tagged =>
      refine ⟨after.filterMap (Field.tag? direction), ?_⟩
      rw [Schema.tags, List.filterMap_append, List.filterMap_eq_nil_iff.mpr untagged,
        List.nil_append, List.filterMap_cons_some tagged]
  | refinement _ ih => exact ih
  | source _ ih => exact ih
  | target _ ih => exact ih

/-- The members have these first tags, all under one key, and no two of one text. -/
structure Schema.Discriminated (direction : Direction) (key : PropertyKey) (members : List Schema)
    (tags : List Tag) : Prop where
  first : List.Forall₂ (Schema.FirstTag direction) members tags
  underKey : ∀ tag ∈ tags, tag.key = key
  distinct : (tags.map (·.literal.text)).Nodup

/-! ### The group of the key -/

def TagGroup.ofTags (tags : List Tag) : TagGroup where
  buckets := tags.zipIdx.map fun (tag, position) => (tag.literal.text, [position])
  literals := tags.map Tag.schema

namespace TagGroup

variable {tags : List Tag} {tag : Tag}

private theorem keys_ofTags (tags : List Tag) :
    Table.keys (ofTags tags).buckets = tags.map (·.literal.text) := by
  rw [Table.keys, ofTags, List.map_map]
  conv_rhs => rw [← List.zipIdx_map_fst 0 tags, List.map_map]
  rfl

private theorem ofTags_concat (fresh : tag.literal.text ∉ tags.map (·.literal.text)) :
    (ofTags tags).add tags.length tag = ofTags (tags ++ [tag]) := by
  rw [← keys_ofTags] at fresh
  rw [add, Table.find?_eq_none_iff.mpr fresh, Table.insert_of_not_mem fresh]
  simp [ofTags, List.zipIdx_append]

theorem find?_ofTags_eq_none (unknown : ∀ tag ∈ tags, tag.literal.text ≠ text) :
    Table.find? text (ofTags tags).buckets = none := by
  rw [Table.find?_eq_none_iff, keys_ofTags]
  intro among
  obtain ⟨tag, inTags, same⟩ := List.mem_map.mp among
  exact unknown tag inTags same

theorem find?_ofTags (distinct : (tags.map (·.literal.text)).Nodup) {position : Nat}
    (atPosition : tags[position]? = some tag) :
    Table.find? tag.literal.text (ofTags tags).buckets = some [position] := by
  rw [← keys_ofTags] at distinct
  refine Table.find?_of_mem distinct (List.mem_map.mpr ⟨(tag, position), ?_, rfl⟩)
  exact List.mk_mem_zipIdx_iff_getElem?.mpr atPosition

end TagGroup

/-! ### The index -/

namespace TagIndex

def ofTags (key : PropertyKey) (tags : List Tag) : TagIndex where
  groups := if tags.isEmpty then [] else [(key, .ofTags tags)]
  untagged := []

private theorem add_first {key : PropertyKey} {tags rest : List Tag} {tag : Tag}
    (underKey : tag.key = key)
    (fresh : tag.literal.text ∉ tags.map (·.literal.text)) :
    (ofTags key tags).add tags.length (tag :: rest) = ofTags key (tags ++ [tag]) := by
  have group : (ofTags key tags).group tag.key = .ofTags tags := by
    rw [underKey]
    cases tags with
    | nil => rfl
    | cons first others => simp [TagIndex.group, ofTags, Table.find?]
  have untaken : (TagGroup.ofTags tags).takes tag.literal.text = false := by
    rw [TagGroup.takes, ← Bool.not_eq_true, Table.has_eq_true_iff, TagGroup.keys_ofTags]
    exact fresh
  have chosen : (ofTags key tags).choose? (tag :: rest) = some tag := by
    cases rest with
    | nil => rfl
    | cons next rest => rw [choose?, group, untaken, if_neg Bool.false_ne_true]
  rw [add, chosen]
  dsimp only
  rw [group, TagGroup.ofTags_concat fresh, underKey]
  cases tags <;> simp [ofTags, Table.insert]

private theorem addAll_ofTags {key : PropertyKey} {direction : Direction} {members : List Schema}
    {tags : List Tag} (first : List.Forall₂ (Schema.FirstTag direction) members tags)
    {before : List Tag} (underKey : ∀ tag ∈ tags, tag.key = key)
    (distinct : ((before ++ tags).map (·.literal.text)).Nodup) :
    (ofTags key before).addAll direction before.length members = ofTags key (before ++ tags) := by
  induction first generalizing before with
  | nil => rw [addAll, List.append_nil]
  | @cons member tag members tags here later ih =>
      obtain ⟨rest, memberTags⟩ := here.tags_eq
      obtain ⟨atKey, othersAtKey⟩ := List.forall_mem_cons.mp underKey
      have fresh : tag.literal.text ∉ before.map (·.literal.text) := by
        rw [List.map_append] at distinct
        exact fun known => (List.nodup_append.mp distinct).2.2 _ known _ List.mem_cons_self rfl
      rw [← List.singleton_append, ← List.append_assoc] at distinct
      have added := ih othersAtKey distinct
      rw [List.length_append, List.length_singleton, List.append_assoc] at added
      rw [addAll, memberTags, add_first atKey fresh]
      exact added

/-- The index has a bucket for each member and nothing else. -/
theorem ofMembers_eq {key : PropertyKey} {direction : Direction} {members : List Schema}
    {tags : List Tag} (discriminated : Schema.Discriminated direction key members tags) :
    ofMembers direction members = ofTags key tags :=
  @addAll_ofTags key direction members tags discriminated.first [] discriminated.underKey
    discriminated.distinct

end TagIndex

/-! ### The literals -/

namespace Schema

private theorem FirstTag.mem_tags {direction : Direction} {schema : Schema} {tag : Tag}
    (first : schema.FirstTag direction tag) : tag ∈ schema.tags direction := by
  obtain ⟨rest, same⟩ := first.tags_eq
  rw [same]
  exact List.mem_cons_self

/-- Where identities tell nodes apart, the union of the literals has each of them for a member. -/
theorem Discriminated.unionMembers_literals {direction : Direction} {key : PropertyKey}
    {members : List Schema} {tags : List Tag}
    (discriminated : Discriminated direction key members tags) (tell : IdentitiesTell members) :
    unionMembers (tags.map Tag.schema) = tags.map Tag.schema := by
  have literals : ∀ tag ∈ tags, tag.schema.kind = .literal tag.literal ∧
      Derived members tag.schema := by
    intro tag inTags
    obtain ⟨member, inMembers, first⟩ := exists_of_forall₂ discriminated.first inTags
    have root : Derived members member := .root inMembers
    exact ⟨isLiteral_of_tag first.mem_tags, root.tag first.mem_tags⟩
  have kinds : ∀ schema ∈ tags.map Tag.schema, ∃ literal, schema.kind = .literal literal := by
    intro schema inSchemas
    obtain ⟨tag, inTags, rfl⟩ := List.mem_map.mp inSchemas
    exact ⟨tag.literal, (literals tag inTags).1⟩
  refine unionMembers_of_nodup ?_ (fun schema inSchemas => ?_) fun schema inSchemas => ?_
  · rw [List.map_map]
    refine List.pairwise_map.mpr ((List.pairwise_map.mp discriminated.distinct).imp_of_mem ?_)
    intro tag other inTags inTagsToo differ sameId
    obtain ⟨isLiteral, derived⟩ := literals tag inTags
    obtain ⟨isLiteralToo, derivedToo⟩ := literals other inTagsToo
    rw [tell _ _ derived derivedToo sameId, isLiteralToo] at isLiteral
    injection isLiteral with sameLiteral
    exact differ (congrArg Literal.text sameLiteral.symm)
  · obtain ⟨literal, isLiteral⟩ := kinds schema inSchemas
    exact not_plain_of_kind isLiteral nofun
  · obtain ⟨literal, isLiteral⟩ := kinds schema inSchemas
    exact isNever_of_kind isLiteral nofun

end Schema

end SchemaCodec
