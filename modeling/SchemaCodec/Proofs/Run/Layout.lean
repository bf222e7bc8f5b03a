import Mathlib.Data.List.Nodup
import SchemaCodec.Proofs.Pairing
import SchemaCodec.Proofs.Run.Success
import SchemaCodec.Proofs.Table

/-!
The object that a struct makes: declared members first, in the order of the fields; then what the
index signatures contribute; then the members that are preserved, which no part of the struct is
about. Where an object is laid out like this, the runs of the struct's parts on it give an object
that is laid out alike.
-/

namespace SchemaCodec

/-- The parameter is about symbols, not about texts. -/
def Schema.tellsSymbols : Schema → Bool
  | .node _ _ (.keyword .symbol) => true
  | .node _ _ (.refinement source _) => source.tellsSymbols
  | _ => false

namespace Run

open Table (keys)

theorem keyFits_eq_true_iff {key : PropertyKey} {parameter : Schema} :
    keyFits key parameter = true ↔ key.isSymbol = parameter.tellsSymbols := by
  induction parameter using Schema.childInduction with
  | node parameter ih =>
      obtain ⟨id, annotations, kind⟩ := parameter
      cases kind with
      | keyword word =>
          cases word <;> cases key <;> simp [keyFits, Schema.tellsSymbols, PropertyKey.isSymbol]
      | refinement source filter =>
          simp only [keyFits, Schema.tellsSymbols]
          exact ih source (List.mem_singleton.mpr rfl)
      | _ => cases key <;> simp [keyFits, Schema.tellsSymbols, PropertyKey.isSymbol]

theorem isDeclared_eq_true_iff {fields : List (Field Schema)} {key : PropertyKey} :
    isDeclared fields key = true ↔ key ∈ fields.map Field.name := by
  simp [isDeclared, List.any_eq_true, List.mem_map]

theorem mem_indexMembers {fields : List (Field Schema)} {index : IndexSignature Schema}
    {members : Members} {member : PropertyKey × Value} :
    member ∈ indexMembers fields index members ↔
      member ∈ members ∧ keyFits member.1 index.parameter = true ∧
        member.1 ∉ fields.map Field.name := by
  rw [indexMembers, List.mem_filter, Bool.and_eq_true, Bool.not_eq_true', ← Bool.not_eq_true,
    isDeclared_eq_true_iff]

variable {run : Schema → Value → Option Outcome} {exact : Bool} {members : Members}

/-! ### What a run contributes -/

theorem FieldsYield.keys_sublist {fields : List (Field Schema)} {entries : Members}
    (yields : FieldsYield run exact members fields entries) :
    (keys entries).Sublist (fields.map Field.name) := by
  induction yields with
  | nil => exact .slnil
  | present _ _ _ ih => exact ih.cons_cons _
  | leftOut _ _ _ ih => exact ih.cons _
  | supplied _ _ _ _ _ ih => exact ih.cons_cons _

theorem FieldsYield.mem_keys {fields : List (Field Schema)} {entries : Members}
    (yields : FieldsYield run exact members fields entries) {key : PropertyKey}
    (declared : key ∈ fields.map Field.name) (present : key ∈ keys members) :
    key ∈ keys entries := by
  induction yields with
  | nil => cases declared
  | present _ _ _ ih =>
      rcases List.mem_cons.mp declared with rfl | later
      · exact List.mem_cons_self
      · exact List.mem_cons_of_mem _ (ih later)
  | leftOut absent _ _ ih =>
      rcases List.mem_cons.mp declared with rfl | later
      · exact absurd present (Table.find?_eq_none_iff.mp absent)
      · exact ih later
  | supplied _ _ _ _ _ ih =>
      rcases List.mem_cons.mp declared with rfl | later
      · exact List.mem_cons_self
      · exact List.mem_cons_of_mem _ (ih later)

private theorem keys_block {index : IndexSignature Schema} {members block : Members}
    (yields : List.Forall₂ (EntryYields run index) members block) :
    keys block = keys members := by
  rw [keys, keys, ← List.forall₂_eq_eq_eq, List.forall₂_map_left_iff,
    List.forall₂_map_right_iff]
  exact yields.flip.imp fun _ _ made => made.key

/-- A block is made of members of one object, so no key comes twice in it. -/
theorem nodup_block {fields : List (Field Schema)} {index : IndexSignature Schema} {block : Members}
    (distinct : (keys members).Nodup)
    (yields : List.Forall₂ (EntryYields run index) (indexMembers fields index members) block) :
    (keys block).Nodup := by
  rw [keys_block yields]
  exact distinct.sublist (List.filter_sublist.map Prod.fst)

theorem IndexesYield.exists_member {fields : List (Field Schema)}
    {indexes : List (IndexSignature Schema)} {entries : Members}
    (yields : IndexesYield run fields members indexes entries) {entry : PropertyKey × Value}
    (contributed : entry ∈ entries) :
    ∃ index ∈ indexes, ∃ member ∈ indexMembers fields index members,
      EntryYields run index member entry := by
  induction yields with
  | nil => cases contributed
  | cons head _ ih =>
      rcases List.mem_append.mp contributed with here | later
      · obtain ⟨member, inMembers, made⟩ := exists_of_forall₂ head here
        exact ⟨_, List.mem_cons_self, member, inMembers, made⟩
      · obtain ⟨index, inIndexes, found⟩ := ih later
        exact ⟨index, List.mem_cons_of_mem _ inIndexes, found⟩

theorem IndexesYield.exists_entry {fields : List (Field Schema)}
    {indexes : List (IndexSignature Schema)} {entries : Members}
    (yields : IndexesYield run fields members indexes entries) {index : IndexSignature Schema}
    (inIndexes : index ∈ indexes) {member : PropertyKey × Value}
    (inMembers : member ∈ indexMembers fields index members) :
    ∃ entry ∈ entries, EntryYields run index member entry := by
  induction yields with
  | nil => cases inIndexes
  | cons head _ ih =>
      rcases List.mem_cons.mp inIndexes with rfl | later
      · obtain ⟨entry, inBlock, made⟩ := exists_of_forall₂ head.flip inMembers
        exact ⟨entry, List.mem_append_left _ inBlock, made⟩
      · obtain ⟨entry, inEntries, made⟩ := ih later
        exact ⟨entry, List.mem_append_right _ inEntries, made⟩

theorem exists_indexesYield_iff {fields : List (Field Schema)}
    {indexes : List (IndexSignature Schema)} :
    (∃ entries, IndexesYield run fields members indexes entries) ↔
      ∀ index ∈ indexes, ∀ member ∈ indexMembers fields index members,
        (∃ key, run index.parameter member.1.toValue = some (.ok key)) ∧
          ∃ result, run index.schema member.2 = some (.ok result) := by
  constructor
  · rintro ⟨entries, yields⟩ index inIndexes member about
    obtain ⟨entry, _, made⟩ := yields.exists_entry inIndexes about
    exact ⟨made.taken, entry.2, made.ran⟩
  · intro each
    induction indexes with
    | nil => exact ⟨[], .nil⟩
    | cons index rest ih =>
        obtain ⟨here, later⟩ := List.forall_mem_cons.mp each
        obtain ⟨entries, tail⟩ := ih later
        have entry : ∀ member ∈ indexMembers fields index members,
            ∃ entry, EntryYields run index member entry := by
          intro member about
          obtain ⟨taken, result, ran⟩ := here member about
          exact ⟨(member.1, result), rfl, taken, ran⟩
        obtain ⟨block, head⟩ := exists_forall₂ entry
        exact ⟨block ++ entries, .cons head tail⟩

/-- The entry that is kept comes from the last of the index signatures that are about its key; each
of the earlier ones has made an entry of the same member. -/
theorem IndexesYield.exists_last {fields : List (Field Schema)}
    {indexes : List (IndexSignature Schema)} {entries : Members}
    {relates : IndexSignature Schema → IndexSignature Schema → Prop}
    (yields : IndexesYield run fields members indexes entries) (ordered : indexes.Pairwise relates)
    {entry : PropertyKey × Value} (kept : entry ∈ Table.ofEntries entries)
    {index : IndexSignature Schema} (inIndexes : index ∈ indexes)
    (fits : keyFits entry.1 index.parameter = true) :
    ∃ last ∈ indexes, (index = last ∨ relates index last) ∧
      ∃ member ∈ indexMembers fields last members, EntryYields run last member entry ∧
        ∃ other, EntryYields run index member other := by
  induction yields generalizing index with
  | nil => cases kept
  | @cons first indexes block entries head tail ih =>
      obtain ⟨before, orderedRest⟩ := List.pairwise_cons.mp ordered
      rcases Table.mem_ofEntries_append kept with inRest | ⟨inBlock, absent⟩
      · rcases List.mem_cons.mp inIndexes with isFirst | later
        · obtain ⟨other, inOthers, origin, inMembers, made⟩ :=
            tail.exists_member (Table.mem_of_mem_ofEntries inRest)
          have otherFits := (mem_indexMembers.mp inMembers).2.1
          rw [← made.key] at otherFits
          obtain ⟨last, inLast, _, member, aboutLast, madeLast, _⟩ :=
            ih orderedRest inRest inOthers otherFits
          obtain ⟨inObject, _, undeclared⟩ := mem_indexMembers.mp aboutLast
          rw [isFirst, madeLast.key] at fits
          obtain ⟨firstEntry, _, madeFirst⟩ := exists_of_forall₂ head.flip
            (mem_indexMembers.mpr ⟨inObject, fits, undeclared⟩)
          rw [isFirst]
          exact ⟨last, List.mem_cons_of_mem _ inLast, Or.inr (before last inLast), member,
            aboutLast, madeLast, firstEntry, madeFirst⟩
        · obtain ⟨last, inLast, found⟩ := ih orderedRest inRest later fits
          exact ⟨last, List.mem_cons_of_mem _ inLast, found⟩
      · obtain ⟨member, inMembers, made⟩ := exists_of_forall₂ head inBlock
        rcases List.mem_cons.mp inIndexes with isFirst | later
        · rw [isFirst]
          exact ⟨first, List.mem_cons_self, Or.inl rfl, member, inMembers, made, entry, made⟩
        · obtain ⟨inObject, _, undeclared⟩ := mem_indexMembers.mp inMembers
          rw [made.key] at fits
          obtain ⟨other, inEntries, otherMade⟩ :=
            tail.exists_entry later (mem_indexMembers.mpr ⟨inObject, fits, undeclared⟩)
          rw [made.key, ← otherMade.key] at absent
          exact absurd (List.mem_map_of_mem inEntries) absent

theorem IndexesYield.undeclared {fields : List (Field Schema)}
    {indexes : List (IndexSignature Schema)} {entries : Members}
    (yields : IndexesYield run fields members indexes entries) {key : PropertyKey}
    (contributed : key ∈ keys entries) : key ∉ fields.map Field.name := by
  obtain ⟨entry, inEntries, rfl⟩ := List.mem_map.mp contributed
  obtain ⟨index, _, member, inMembers, made⟩ := yields.exists_member inEntries
  rw [made.key]
  exact (mem_indexMembers.mp inMembers).2.2

/-! ### The parts of an object -/

theorem nodup_structOutput {members : Members} (distinct : (Table.keys members).Nodup)
    (excess : ExcessPolicy) (entries : Members) :
    (Table.keys (structOutput excess members entries)).Nodup := by
  have made := Table.nodup_ofEntries entries
  unfold structOutput
  split
  · rw [preserve, Table.keys, List.map_append, List.nodup_append']
    refine ⟨made, distinct.sublist (List.filter_sublist.map Prod.fst), fun key inOutput inRest => ?_⟩
    obtain ⟨member, filtered, rfl⟩ := List.mem_map.mp inRest
    have absent := (List.mem_filter.mp filtered).2
    rw [Table.has_eq_true_iff.mpr inOutput] at absent
    cases absent
  · exact made

def Unmentioned (fields : List (Field Schema)) (indexes : List (IndexSignature Schema))
    (key : PropertyKey) : Prop :=
  key ∉ fields.map Field.name ∧ ∀ index ∈ indexes, keyFits key index.parameter = false

def Preserved (excess : ExcessPolicy) (fields : List (Field Schema))
    (indexes : List (IndexSignature Schema)) (rest : Members) : Prop :=
  (∀ entry ∈ rest, Unmentioned fields indexes entry.1) ∧ (excess ≠ .preserve → rest = [])

/-- The object of a struct falls into its parts. -/
private theorem structOutput_eq {fields : List (Field Schema)}
    {indexes : List (IndexSignature Schema)}
    {declared indexed : Members} (distinct : (fields.map Field.name).Nodup)
    (fieldsYield : FieldsYield run exact members fields declared)
    (indexesYield : IndexesYield run fields members indexes indexed) (excess : ExcessPolicy) :
    ∃ rest, Preserved excess fields indexes rest ∧ (∀ entry ∈ rest, entry ∈ members) ∧
      structOutput excess members (declared ++ indexed) =
        declared ++ Table.ofEntries indexed ++ rest := by
  have sublist := fieldsYield.keys_sublist
  have output : Table.ofEntries (declared ++ indexed) = declared ++ Table.ofEntries indexed := by
    rw [Table.ofEntries_append, Table.ofEntries_of_nodup (sublist.nodup distinct)]
    intro key inIndexed inDeclared
    exact indexesYield.undeclared inIndexed (sublist.subset inDeclared)
  unfold structOutput
  rw [output]
  by_cases preserving : excess = .preserve
  · rw [if_pos preserving]
    refine ⟨_, ⟨?_, fun other => absurd preserving other⟩, fun entry inRest => ?_, rfl⟩
    · intro entry inRest
      obtain ⟨inMembers, notThere⟩ := List.mem_filter.mp inRest
      have absent : entry.1 ∉ keys (declared ++ Table.ofEntries indexed) := by
        rw [← Table.has_eq_true_iff]
        simpa using notThere
      rw [keys, List.map_append, List.mem_append] at absent
      have present : entry.1 ∈ keys members := List.mem_map_of_mem inMembers
      have undeclared : entry.1 ∉ fields.map Field.name := fun isDeclared =>
        absent (Or.inl (fieldsYield.mem_keys isDeclared present))
      refine ⟨undeclared, fun index inIndexes => ?_⟩
      by_contra fits
      have about : entry ∈ indexMembers fields index members :=
        mem_indexMembers.mpr ⟨inMembers, by simpa using fits, undeclared⟩
      obtain ⟨made, inIndexed, yields⟩ := indexesYield.exists_entry inIndexes about
      have keyThere : entry.1 ∈ keys (Table.ofEntries indexed) := by
        rw [Table.mem_keys_ofEntries, ← yields.key]
        exact List.mem_map_of_mem inIndexed
      exact absent (Or.inr keyThere)
    · exact (List.mem_filter.mp inRest).1
  · rw [if_neg preserving]
    exact ⟨[], ⟨List.forall_mem_nil _, fun _ => rfl⟩, List.forall_mem_nil _,
      (List.append_nil _).symm⟩

theorem find?_structOutput {fields : List (Field Schema)} {indexes : List (IndexSignature Schema)}
    {declared indexed : Members} (excess : ExcessPolicy) (distinct : (fields.map Field.name).Nodup)
    (fieldsYield : FieldsYield run exact members fields declared)
    (indexesYield : IndexesYield run fields members indexes indexed) {key : PropertyKey}
    {value : Value} (contributed : (key, value) ∈ declared) :
    Table.find? key (structOutput excess members (declared ++ indexed)) = some value := by
  obtain ⟨rest, _, _, output⟩ := structOutput_eq distinct fieldsYield indexesYield excess
  have found := Table.find?_of_mem (fieldsYield.keys_sublist.nodup distinct) contributed
  rw [output, Table.find?_append, Table.find?_append, found]
  rfl

theorem exists_ran_of_find? {fields : List (Field Schema)} {indexes : List (IndexSignature Schema)}
    {declared indexed : Members} {excess : ExcessPolicy}
    (distinct : (fields.map Field.name).Nodup)
    (fieldsYield : FieldsYield run exact members fields declared)
    (indexesYield : IndexesYield run fields members indexes indexed) {field : Field Schema}
    (inFields : field ∈ fields) {value : Value}
    (found : Table.find? field.name (structOutput excess members (declared ++ indexed)) =
      some value) :
    ∃ given, run field.schema given = some (.ok value) := by
  obtain ⟨rest, ⟨unmentioned, _⟩, _, output⟩ :=
    structOutput_eq distinct fieldsYield indexesYield excess
  have named : field.name ∈ fields.map Field.name := List.mem_map_of_mem inFields
  have inOutput := Table.mem_of_find? found
  rw [output] at inOutput
  rcases List.mem_append.mp inOutput with inParts | inRest
  · rcases List.mem_append.mp inParts with inDeclared | inIndexed
    · obtain ⟨other, inOthers, sameName, given, _, ran⟩ := fieldsYield.exists_source inDeclared
      cases List.inj_on_of_nodup_map distinct inOthers inFields sameName
      exact ⟨given, ran⟩
    · have inEntries := Table.mem_keys (Table.mem_of_mem_ofEntries inIndexed)
      exact absurd named (indexesYield.undeclared inEntries)
  · exact absurd named (unmentioned _ inRest).1

/-- A member that an index signature is about is kept from the index signatures. -/
theorem mem_ofEntries_of_indexMembers {fields : List (Field Schema)}
    {indexes : List (IndexSignature Schema)} {declared indexed : Members} {excess : ExcessPolicy}
    (distinct : (fields.map Field.name).Nodup)
    (fieldsYield : FieldsYield run exact members fields declared)
    (indexesYield : IndexesYield run fields members indexes indexed)
    {index : IndexSignature Schema} (inIndexes : index ∈ indexes) {member : PropertyKey × Value}
    (about : member ∈ indexMembers fields index
      (structOutput excess members (declared ++ indexed))) :
    member ∈ Table.ofEntries indexed := by
  obtain ⟨rest, ⟨unmentioned, _⟩, _, output⟩ :=
    structOutput_eq distinct fieldsYield indexesYield excess
  obtain ⟨inOutput, fits, undeclared⟩ := mem_indexMembers.mp about
  rw [output] at inOutput
  rcases List.mem_append.mp inOutput with inParts | inRest
  · rcases List.mem_append.mp inParts with inDeclared | inIndexed
    · have named := fieldsYield.keys_sublist.subset (List.mem_map_of_mem inDeclared)
      exact absurd named undeclared
    · exact inIndexed
  · have unfit := (unmentioned member inRest).2 index inIndexes
    rw [fits] at unfit
    cases unfit

private theorem mem_keys_of_structOutput {fields : List (Field Schema)}
    {indexes : List (IndexSignature Schema)} {declared indexed : Members} {excess : ExcessPolicy}
    (distinct : (fields.map Field.name).Nodup)
    (fieldsYield : FieldsYield run exact members fields declared)
    (indexesYield : IndexesYield run fields members indexes indexed) {key : PropertyKey}
    (present : key ∈ keys (structOutput excess members (declared ++ indexed))) :
    key ∈ fields.map Field.name ∨ key ∈ keys members := by
  obtain ⟨rest, _, within, output⟩ := structOutput_eq distinct fieldsYield indexesYield excess
  rw [output, keys, List.map_append, List.map_append, List.mem_append, List.mem_append] at present
  rcases present with (inDeclared | inIndexed) | inRest
  · exact Or.inl (fieldsYield.keys_sublist.subset inDeclared)
  · obtain ⟨entry, inEntries, rfl⟩ := List.mem_map.mp (Table.mem_keys_ofEntries.mp inIndexed)
    obtain ⟨index, _, member, inMembers, made⟩ := indexesYield.exists_member inEntries
    rw [made.key]
    exact Or.inr (List.mem_map_of_mem (mem_indexMembers.mp inMembers).1)
  · obtain ⟨entry, inEntries, rfl⟩ := List.mem_map.mp inRest
    exact Or.inr (List.mem_map_of_mem (within entry inEntries))

/-- Where no key of the input is unexpected, no key of the output is. -/
theorem expects_structOutput {decodeKey : Schema → Value → Option Outcome}
    {fields : List (Field Schema)} {indexes : List (IndexSignature Schema)}
    {declared indexed : Members} {excess : ExcessPolicy}
    (distinct : (fields.map Field.name).Nodup)
    (fieldsYield : FieldsYield run exact members fields declared)
    (indexesYield : IndexesYield run fields members indexes indexed)
    (expected : ∀ member ∈ members, Expects decodeKey fields indexes member.1)
    {member : PropertyKey × Value}
    (inOutput : member ∈ structOutput excess members (declared ++ indexed)) :
    Expects decodeKey fields indexes member.1 := by
  have present := Table.mem_keys inOutput
  rcases mem_keys_of_structOutput distinct fieldsYield indexesYield present with named | given
  · exact Or.inl (isDeclared_eq_true_iff.mpr named)
  · obtain ⟨original, inOriginal, sameKey⟩ := List.mem_map.mp given
    rw [← sameKey]
    exact expected original inOriginal

/-! ### Arrays laid out alike -/

namespace ItemsMatch

variable {relates relatesToo : Schema → Value → Value → Prop} {schemas : List Schema}
  {items results : List Value}

theorem length_eq (matched : ItemsMatch relates schemas items results) :
    results.length = items.length := by
  induction matched with
  | nil schemas => rfl
  | cons _ _ ih => rw [List.length_cons, List.length_cons, ih]

theorem swap (matched : ItemsMatch relates schemas items results) :
    ItemsMatch (fun schema item result => relates schema result item) schemas results items := by
  induction matched with
  | nil schemas => exact .nil schemas
  | cons head _ ih => exact .cons head ih

theorem imp (matched : ItemsMatch relates schemas items results)
    (implies : ∀ schema ∈ schemas, ∀ item result, relates schema item result →
      relatesToo schema item result) : ItemsMatch relatesToo schemas items results := by
  induction matched with
  | nil schemas => exact .nil schemas
  | cons head _ ih =>
      exact .cons (implies _ List.mem_cons_self _ _ head)
        (ih fun schema inRest => implies schema (List.mem_cons_of_mem _ inRest))

theorem exists_match (matched : ItemsMatch relates schemas items results)
    (each : ∀ schema ∈ schemas, ∀ item result, relates schema item result →
      ∃ other, relatesToo schema result other) :
    ∃ others, ItemsMatch relatesToo schemas results others := by
  induction matched with
  | nil schemas => exact ⟨[], .nil schemas⟩
  | cons head _ ih =>
      obtain ⟨other, related⟩ := each _ List.mem_cons_self _ _ head
      obtain ⟨others, later⟩ := ih fun schema inRest => each schema (List.mem_cons_of_mem _ inRest)
      exact ⟨other :: others, .cons related later⟩

theorem eq_of (matched : ItemsMatch relates schemas items results)
    (same : ∀ schema item result, relates schema item result → result = item) :
    results = items := by
  induction matched with
  | nil schemas => rfl
  | cons head _ ih => rw [same _ _ _ head, ih]

end ItemsMatch

/-! ### Objects laid out alike -/

/-- Two lists of declared members, field by field related; both leave out the same fields. -/
inductive RowsMatch (relates : Schema → Value → Value → Prop) :
    List (Field Schema) → Members → Members → Prop where
  | nil : RowsMatch relates [] [] []
  | row {field : Field Schema} {fields : List (Field Schema)} {value other : Value}
      {entries others : Members} (related : relates field.schema value other)
      (tail : RowsMatch relates fields entries others) :
      RowsMatch relates (field :: fields) ((field.name, value) :: entries)
        ((field.name, other) :: others)
  | leftOut {field : Field Schema} {fields : List (Field Schema)} {entries others : Members}
      (optional : field.optional = true) (tail : RowsMatch relates fields entries others) :
      RowsMatch relates (field :: fields) entries others

structure EntriesMatch (takes : Schema → PropertyKey → Prop)
    (relates : Schema → Value → Value → Prop) (index : IndexSignature Schema)
    (entry other : PropertyKey × Value) : Prop where
  key : other.1 = entry.1
  taken : takes index.parameter entry.1
  related : relates index.schema entry.2 other.2

inductive BlocksMatch (takes : Schema → PropertyKey → Prop)
    (relates : Schema → Value → Value → Prop) (names : List PropertyKey) :
    List (IndexSignature Schema) → Members → Members → Prop where
  | nil : BlocksMatch takes relates names [] [] []
  | cons {index : IndexSignature Schema} {indexes : List (IndexSignature Schema)}
      {block otherBlock entries others : Members}
      (head : List.Forall₂ (EntriesMatch takes relates index) block otherBlock)
      (about : ∀ entry ∈ block, keyFits entry.1 index.parameter = true ∧ entry.1 ∉ names)
      (nodup : (keys block).Nodup) (tail : BlocksMatch takes relates names indexes entries others) :
      BlocksMatch takes relates names (index :: indexes) (block ++ entries) (otherBlock ++ others)

section Matches

variable {takes : Schema → PropertyKey → Prop} {relates : Schema → Value → Value → Prop}
  {fields : List (Field Schema)} {indexes : List (IndexSignature Schema)}
  {entries others : Members}

theorem RowsMatch.swap (rows : RowsMatch relates fields entries others) :
    RowsMatch (fun schema value other => relates schema other value) fields others entries := by
  induction rows with
  | nil => exact .nil
  | row related _ ih => exact .row related ih
  | leftOut optional _ ih => exact .leftOut optional ih

theorem RowsMatch.keys_eq (rows : RowsMatch relates fields entries others) :
    keys others = keys entries := by
  induction rows with
  | nil => rfl
  | row _ _ ih => exact congrArg (_ :: ·) ih
  | leftOut _ _ ih => exact ih

theorem RowsMatch.eq_of (rows : RowsMatch relates fields entries others)
    (same : ∀ schema value other, relates schema value other → other = value) :
    others = entries := by
  induction rows with
  | nil => rfl
  | row related _ ih => rw [same _ _ _ related, ih]
  | leftOut _ _ ih => exact ih

theorem RowsMatch.keys_sublist (rows : RowsMatch relates fields entries others) :
    (keys entries).Sublist (fields.map Field.name) := by
  induction rows with
  | nil => exact .slnil
  | row _ _ ih => exact ih.cons_cons _
  | leftOut _ _ ih => exact ih.cons _

private theorem FieldsYield.exists_rows (yields : FieldsYield run exact members fields entries)
    (each : ∀ field ∈ fields, ∀ value result, run field.schema value = some (.ok result) →
      ∃ other, relates field.schema result other) :
    ∃ others, RowsMatch relates fields entries others := by
  induction yields with
  | nil => exact ⟨[], .nil⟩
  | present _ ran _ ih =>
      obtain ⟨other, related⟩ := each _ List.mem_cons_self _ _ ran
      obtain ⟨others, rows⟩ := ih fun field inFields => each field (List.mem_cons_of_mem _ inFields)
      exact ⟨_, .row related rows⟩
  | leftOut _ optional _ ih =>
      obtain ⟨others, rows⟩ := ih fun field inFields => each field (List.mem_cons_of_mem _ inFields)
      exact ⟨_, .leftOut optional rows⟩
  | supplied _ _ _ ran _ ih =>
      obtain ⟨other, related⟩ := each _ List.mem_cons_self _ _ ran
      obtain ⟨others, rows⟩ := ih fun field inFields => each field (List.mem_cons_of_mem _ inFields)
      exact ⟨_, .row related rows⟩

theorem RowsMatch.fieldsYield (rows : RowsMatch relates fields entries others)
    (distinct : (fields.map Field.name).Nodup)
    (found : ∀ field ∈ fields, Table.find? field.name members = Table.find? field.name entries)
    (runs : ∀ field ∈ fields, ∀ value other, relates field.schema value other →
      run field.schema value = some (.ok other)) :
    FieldsYield run exact members fields others := by
  induction rows with
  | nil => exact .nil
  | @row field fields value other entries others related tail ih =>
      obtain ⟨fresh, distinctRest⟩ := List.nodup_cons.mp distinct
      have here := found field List.mem_cons_self
      rw [Table.find?, if_pos rfl] at here
      refine .present here (runs field List.mem_cons_self value other related) ?_
      refine ih distinctRest (fun later inFields => ?_)
        (fun later inFields => runs later (List.mem_cons_of_mem _ inFields))
      have apart : field.name ≠ later.name := by
        intro same
        rw [same] at fresh
        exact fresh (List.mem_map_of_mem inFields)
      rw [found later (List.mem_cons_of_mem _ inFields), Table.find?, if_neg apart]
  | @leftOut field fields entries others optional tail ih =>
      obtain ⟨fresh, distinctRest⟩ := List.nodup_cons.mp distinct
      refine .leftOut ?_ optional (ih distinctRest
        (fun later inFields => found later (List.mem_cons_of_mem _ inFields))
        (fun later inFields => runs later (List.mem_cons_of_mem _ inFields)))
      rw [found field List.mem_cons_self, Table.find?_eq_none_iff]
      exact fun present => fresh (tail.keys_sublist.subset present)

private theorem keys_eq_of_entries {index : IndexSignature Schema} {block otherBlock : Members}
    (head : List.Forall₂ (EntriesMatch takes relates index) block otherBlock) :
    keys otherBlock = keys block := by
  induction head with
  | nil => rfl
  | cons matched _ ih =>
      change _ :: keys _ = _ :: keys _
      rw [matched.key, ih]

private theorem eq_of_entries {index : IndexSignature Schema} {block otherBlock : Members}
    (head : List.Forall₂ (EntriesMatch takes relates index) block otherBlock)
    (same : ∀ schema value other, relates schema value other → other = value) :
    otherBlock = block := by
  induction head with
  | nil => rfl
  | cons matched _ ih =>
      rw [ih]
      exact congrArg (· :: _) (Prod.ext matched.key (same _ _ _ matched.related))

theorem BlocksMatch.keys_eq {names : List PropertyKey}
    (blocks : BlocksMatch takes relates names indexes entries others) :
    keys others = keys entries := by
  induction blocks with
  | nil => rfl
  | cons head _ _ _ ih =>
      rw [keys, keys, List.map_append, List.map_append]
      exact congrArg₂ _ (keys_eq_of_entries head) ih

theorem BlocksMatch.eq_of {names : List PropertyKey}
    (blocks : BlocksMatch takes relates names indexes entries others)
    (same : ∀ schema value other, relates schema value other → other = value) :
    others = entries := by
  induction blocks with
  | nil => rfl
  | cons head _ _ _ ih =>
      rw [ih, eq_of_entries head same]

theorem BlocksMatch.swap {names : List PropertyKey}
    (blocks : BlocksMatch takes relates names indexes entries others) :
    BlocksMatch takes (fun schema value other => relates schema other value) names indexes others
      entries := by
  induction blocks with
  | nil => exact .nil
  | @cons index indexes block otherBlock entries others head about nodup _ ih =>
      have sameKeys := keys_eq_of_entries head
      refine .cons ?_ ?_ (sameKeys ▸ nodup) ih
      · refine head.flip.imp fun other entry matched => ?_
        exact ⟨matched.key.symm, matched.key ▸ matched.taken, matched.related⟩
      · intro other inBlock
        obtain ⟨entry, inOriginal, matched⟩ := exists_of_forall₂ head inBlock
        rw [matched.key]
        exact about entry inOriginal

theorem BlocksMatch.about {names : List PropertyKey}
    (blocks : BlocksMatch takes relates names indexes entries others)
    {entry : PropertyKey × Value} (contributed : entry ∈ entries) :
    (∃ index ∈ indexes, keyFits entry.1 index.parameter = true) ∧ entry.1 ∉ names := by
  induction blocks with
  | nil => cases contributed
  | cons _ about _ _ ih =>
      rcases List.mem_append.mp contributed with here | later
      · exact ⟨⟨_, List.mem_cons_self, (about entry here).1⟩, (about entry here).2⟩
      · obtain ⟨⟨index, inIndexes, fits⟩, undeclared⟩ := ih later
        exact ⟨⟨index, List.mem_cons_of_mem _ inIndexes, fits⟩, undeclared⟩

private theorem apart_of_kinds {index other : IndexSignature Schema}
    (kinds : ((index :: indexes).map (·.parameter.tellsSymbols)).Nodup) (later : other ∈ indexes)
    {key : PropertyKey} (fits : keyFits key other.parameter = true) :
    keyFits key index.parameter = false := by
  rw [← Bool.not_eq_true, keyFits_eq_true_iff]
  rw [keyFits_eq_true_iff] at fits
  intro same
  have fresh : index.parameter.tellsSymbols ∉ indexes.map (·.parameter.tellsSymbols) :=
    (List.nodup_cons.mp kinds).1
  rw [← same, fits] at fresh
  exact fresh (List.mem_map_of_mem later)

theorem BlocksMatch.nodup {names : List PropertyKey}
    (blocks : BlocksMatch takes relates names indexes entries others)
    (kinds : (indexes.map (·.parameter.tellsSymbols)).Nodup) : (keys entries).Nodup := by
  induction blocks with
  | nil => exact List.nodup_nil
  | @cons index indexes block otherBlock entries others _ about nodup tail ih =>
      rw [keys, List.map_append]
      refine List.nodup_append.mpr ⟨nodup, ih (List.nodup_cons.mp kinds).2, ?_⟩
      intro key inBlock other inEntries same
      obtain ⟨entry, entryIn, rfl⟩ := List.mem_map.mp inBlock
      obtain ⟨later, laterIn, rfl⟩ := List.mem_map.mp inEntries
      obtain ⟨⟨laterIndex, inIndexes, fits⟩, _⟩ := tail.about laterIn
      have unfit := apart_of_kinds kinds inIndexes fits
      rw [← same, (about entry entryIn).1] at unfit
      cases unfit

private theorem IndexesYield.exists_blocks
    (yields : IndexesYield run fields members indexes entries)
    (kinds : (indexes.map (·.parameter.tellsSymbols)).Nodup)
    (taken : ∀ index ∈ indexes, ∀ key : PropertyKey,
      (∃ result, run index.parameter key.toValue = some (.ok result)) → takes index.parameter key)
    (each : ∀ index ∈ indexes, ∀ value result, run index.schema value = some (.ok result) →
      ∃ other, relates index.schema result other) :
    ∃ others, BlocksMatch takes relates (fields.map Field.name) indexes (Table.ofEntries entries)
      others := by
  induction yields with
  | nil => exact ⟨[], .nil⟩
  | @cons index indexes block entries head tail ih =>
      obtain ⟨others, blocks⟩ := ih (List.nodup_cons.mp kinds).2
        (fun later inIndexes => taken later (List.mem_cons_of_mem _ inIndexes))
        (fun later inIndexes => each later (List.mem_cons_of_mem _ inIndexes))
      have fromMember : ∀ entry ∈ block, ∃ member ∈ indexMembers fields index members,
          EntryYields run index member entry := fun entry inBlock => exists_of_forall₂ head inBlock
      have about : ∀ entry ∈ block,
          keyFits entry.1 index.parameter = true ∧ entry.1 ∉ fields.map Field.name := by
        intro entry inBlock
        obtain ⟨member, inMembers, made⟩ := fromMember entry inBlock
        rw [made.key]
        exact (mem_indexMembers.mp inMembers).2
      have split : Table.ofEntries (block ++ entries) =
          Table.ofEntries block ++ Table.ofEntries entries := by
        refine Table.ofEntries_append fun key inEntries inBlock => ?_
        obtain ⟨entry, entryIn, rfl⟩ := List.mem_map.mp inBlock
        obtain ⟨later, laterIn, same⟩ := List.mem_map.mp inEntries
        obtain ⟨laterIndex, inIndexes, member, inMembers, made⟩ := tail.exists_member laterIn
        have fits := (mem_indexMembers.mp inMembers).2.1
        rw [← made.key, same] at fits
        have unfit := apart_of_kinds kinds inIndexes fits
        rw [(about entry entryIn).1] at unfit
        cases unfit
      obtain ⟨otherBlock, matched⟩ : ∃ otherBlock,
          List.Forall₂ (EntriesMatch takes relates index) (Table.ofEntries block) otherBlock := by
        refine exists_forall₂ fun entry inTable => ?_
        obtain ⟨member, _, made⟩ := fromMember entry (Table.mem_of_mem_ofEntries inTable)
        obtain ⟨other, related⟩ := each index List.mem_cons_self _ _ made.ran
        have isTaken := taken index List.mem_cons_self member.1 made.taken
        exact ⟨(entry.1, other), ⟨rfl, made.key ▸ isTaken, related⟩⟩
      refine ⟨otherBlock ++ others, ?_⟩
      rw [split]
      exact .cons matched (fun entry inTable => about entry (Table.mem_of_mem_ofEntries inTable))
        (Table.nodup_ofEntries block) blocks

theorem BlocksMatch.indexesYield
    (blocks : BlocksMatch takes relates (fields.map Field.name) indexes entries others)
    (kinds : (indexes.map (·.parameter.tellsSymbols)).Nodup)
    (found : ∀ index ∈ indexes,
      indexMembers fields index members = indexMembers fields index entries)
    (taken : ∀ index ∈ indexes, ∀ key : PropertyKey, takes index.parameter key →
      ∃ result, run index.parameter key.toValue = some (.ok result))
    (runs : ∀ index ∈ indexes, ∀ value other, relates index.schema value other →
      run index.schema value = some (.ok other)) :
    IndexesYield run fields members indexes others := by
  generalize namesAre : fields.map Field.name = names at blocks
  induction blocks with
  | nil => exact .nil
  | @cons index indexes block otherBlock entries others head about nodup tail ih =>
      subst namesAre
      have here : indexMembers fields index members = block := by
        rw [found index List.mem_cons_self, indexMembers, List.filter_append]
        have all : block.filter (fun member =>
            keyFits member.1 index.parameter && !isDeclared fields member.1) = block := by
          refine List.filter_eq_self.mpr fun entry inBlock => ?_
          have undeclared := mt isDeclared_eq_true_iff.mp (about entry inBlock).2
          simp [(about entry inBlock).1, undeclared]
        have none : entries.filter (fun member =>
            keyFits member.1 index.parameter && !isDeclared fields member.1) = [] := by
          refine List.filter_eq_nil_iff.mpr fun entry inEntries => ?_
          obtain ⟨⟨laterIndex, inIndexes, fits⟩, _⟩ := tail.about inEntries
          simp [apart_of_kinds kinds inIndexes fits]
        rw [all, none, List.append_nil]
      refine .cons ?_ (ih (List.nodup_cons.mp kinds).2 (fun later inIndexes => ?_)
        (fun later inIndexes => taken later (List.mem_cons_of_mem _ inIndexes))
        (fun later inIndexes => runs later (List.mem_cons_of_mem _ inIndexes)))
      · rw [here]
        refine head.imp fun entry other matched => ?_
        exact ⟨matched.key, taken index List.mem_cons_self _ matched.taken,
          runs index List.mem_cons_self _ _ matched.related⟩
      · rw [found later (List.mem_cons_of_mem _ inIndexes), indexMembers, List.filter_append]
        have none : block.filter (fun member =>
            keyFits member.1 later.parameter && !isDeclared fields member.1) = [] := by
          refine List.filter_eq_nil_iff.mpr fun entry inBlock => ?_
          have unfit : ¬keyFits entry.1 later.parameter = true := by
            intro fits
            have apart := apart_of_kinds kinds inIndexes fits
            rw [(about entry inBlock).1] at apart
            cases apart
          simp [unfit]
        rw [none]
        rfl

end Matches

/-! ### Whole objects -/

/-- Two objects of a struct whose parts are related; they preserve the same members. -/
inductive ObjectsMatch (takes : Schema → PropertyKey → Prop)
    (relates : Schema → Value → Value → Prop) (excess : ExcessPolicy) (fields : List (Field Schema))
    (indexes : List (IndexSignature Schema)) : Members → Members → Prop where
  | intro {declared otherDeclared indexed otherIndexed rest : Members}
      (rows : RowsMatch relates fields declared otherDeclared)
      (blocks : BlocksMatch takes relates (fields.map Field.name) indexes indexed otherIndexed)
      (preserved : Preserved excess fields indexes rest) :
      ObjectsMatch takes relates excess fields indexes (declared ++ indexed ++ rest)
        (otherDeclared ++ otherIndexed ++ rest)

namespace ObjectsMatch

variable {takes : Schema → PropertyKey → Prop} {relates : Schema → Value → Value → Prop}
  {excess : ExcessPolicy} {fields : List (Field Schema)} {indexes : List (IndexSignature Schema)}
  {others : Members}

theorem swap (matched : ObjectsMatch takes relates excess fields indexes members others) :
    ObjectsMatch takes (fun schema value other => relates schema other value) excess fields indexes
      others members := by
  cases matched with
  | intro rows blocks preserved => exact .intro rows.swap blocks.swap preserved

theorem keys_eq (matched : ObjectsMatch takes relates excess fields indexes members others) :
    keys others = keys members := by
  cases matched with
  | intro rows blocks preserved =>
      simp only [keys, List.map_append]
      rw [← keys, ← keys, rows.keys_eq, blocks.keys_eq]
      rfl

theorem eq_of (matched : ObjectsMatch takes relates excess fields indexes members others)
    (same : ∀ schema value other, relates schema value other → other = value) :
    others = members := by
  cases matched with
  | intro rows blocks preserved => rw [rows.eq_of same, blocks.eq_of same]

section Parts

variable {declared otherDeclared indexed otherIndexed rest : Members}

private theorem undeclared_of_blocks
    (blocks : BlocksMatch takes relates (fields.map Field.name) indexes indexed otherIndexed) :
    ∀ key ∈ keys indexed, key ∉ fields.map Field.name := by
  intro key inIndexed
  obtain ⟨entry, entryIn, rfl⟩ := List.mem_map.mp inIndexed
  exact (blocks.about entryIn).2

private theorem find?_parts
    (blocks : BlocksMatch takes relates (fields.map Field.name) indexes indexed otherIndexed)
    (preserved : Preserved excess fields indexes rest) {field : Field Schema}
    (inFields : field ∈ fields) :
    Table.find? field.name (declared ++ indexed ++ rest) = Table.find? field.name declared := by
  have named : field.name ∈ fields.map Field.name := List.mem_map_of_mem inFields
  have notIndexed : Table.find? field.name indexed = none :=
    Table.find?_eq_none_iff.mpr fun inIndexed => undeclared_of_blocks blocks _ inIndexed named
  have notRest : Table.find? field.name rest = none := by
    refine Table.find?_eq_none_iff.mpr fun inRest => ?_
    obtain ⟨entry, entryIn, same⟩ := List.mem_map.mp inRest
    exact (preserved.1 entry entryIn).1 (same ▸ named)
  rw [Table.find?_append, Table.find?_append, notIndexed, notRest, Option.or_none, Option.or_none]

private theorem indexMembers_parts (rows : RowsMatch relates fields declared otherDeclared)
    (preserved : Preserved excess fields indexes rest) {index : IndexSignature Schema}
    (inIndexes : index ∈ indexes) :
    indexMembers fields index (declared ++ indexed ++ rest) = indexMembers fields index indexed := by
  have notDeclared : indexMembers fields index declared = [] := by
    refine List.eq_nil_iff_forall_not_mem.mpr fun entry inMembers => ?_
    obtain ⟨inDeclared, _, undeclared⟩ := mem_indexMembers.mp inMembers
    exact undeclared (rows.keys_sublist.subset (List.mem_map_of_mem inDeclared))
  have notRest : indexMembers fields index rest = [] := by
    refine List.eq_nil_iff_forall_not_mem.mpr fun entry inMembers => ?_
    obtain ⟨inRest, fits, _⟩ := mem_indexMembers.mp inMembers
    rw [(preserved.1 entry inRest).2 index inIndexes] at fits
    cases fits
  rw [indexMembers, List.filter_append, List.filter_append, ← indexMembers, ← indexMembers,
    ← indexMembers, notDeclared, notRest, List.append_nil, List.nil_append]

private theorem keys_parts (rows : RowsMatch relates fields declared otherDeclared)
    (blocks : BlocksMatch takes relates (fields.map Field.name) indexes indexed otherIndexed) :
    keys (otherDeclared ++ otherIndexed) = keys (declared ++ indexed) := by
  rw [keys, List.map_append, ← keys, ← keys, rows.keys_eq, blocks.keys_eq, keys, keys,
    ← List.map_append]
  rfl

private theorem structOutput_parts (rows : RowsMatch relates fields declared otherDeclared)
    (blocks : BlocksMatch takes relates (fields.map Field.name) indexes indexed otherIndexed)
    (preserved : Preserved excess fields indexes rest) (distinct : (fields.map Field.name).Nodup)
    (kinds : (indexes.map (·.parameter.tellsSymbols)).Nodup) :
    structOutput excess (declared ++ indexed ++ rest) (otherDeclared ++ otherIndexed) =
      otherDeclared ++ otherIndexed ++ rest := by
  obtain ⟨unmentioned, onlyPreserving⟩ := preserved
  have sameKeys := keys_parts rows blocks
  have nodup : (keys (otherDeclared ++ otherIndexed)).Nodup := by
    rw [sameKeys, keys, List.map_append]
    refine List.nodup_append.mpr ⟨rows.keys_sublist.nodup distinct, blocks.nodup kinds, ?_⟩
    intro key inDeclared other inIndexed same
    rw [← same] at inIndexed
    exact undeclared_of_blocks blocks key inIndexed (rows.keys_sublist.subset inDeclared)
  unfold structOutput
  rw [Table.ofEntries_of_nodup nodup]
  by_cases preserving : excess = .preserve
  · rw [if_pos preserving]
    have there : (declared ++ indexed).filter (fun member =>
        !Table.has member.1 (otherDeclared ++ otherIndexed)) = [] := by
      refine List.filter_eq_nil_iff.mpr fun entry entryIn => ?_
      have present : Table.has entry.1 (otherDeclared ++ otherIndexed) = true := by
        rw [Table.has_eq_true_iff, sameKeys]
        exact List.mem_map_of_mem entryIn
      simp [present]
    have missing : rest.filter (fun member =>
        !Table.has member.1 (otherDeclared ++ otherIndexed)) = rest := by
      refine List.filter_eq_self.mpr fun entry entryIn => ?_
      have absent : ¬Table.has entry.1 (otherDeclared ++ otherIndexed) = true := by
        rw [Table.has_eq_true_iff, sameKeys, keys, List.map_append, List.mem_append]
        rintro (inDeclared | inIndexed)
        · exact (unmentioned entry entryIn).1 (rows.keys_sublist.subset inDeclared)
        · obtain ⟨other, otherIn, same⟩ := List.mem_map.mp inIndexed
          obtain ⟨⟨index, inIndexes, fits⟩, _⟩ := blocks.about otherIn
          rw [same, (unmentioned entry entryIn).2 index inIndexes] at fits
          cases fits
      simp [absent]
    rw [preserve, List.filter_append, there, missing, List.nil_append]
  · rw [if_neg preserving, onlyPreserving preserving, List.append_nil]

end Parts

/-- The parts of the struct run on one object give the other one. -/
theorem runs (matched : ObjectsMatch takes relates excess fields indexes members others)
    (distinct : (fields.map Field.name).Nodup)
    (kinds : (indexes.map (·.parameter.tellsSymbols)).Nodup) (exact : Bool)
    (taken : ∀ index ∈ indexes, ∀ key : PropertyKey, takes index.parameter key →
      ∃ result, run index.parameter key.toValue = some (.ok result))
    (fieldRuns : ∀ field ∈ fields, ∀ value other, relates field.schema value other →
      run field.schema value = some (.ok other))
    (indexRuns : ∀ index ∈ indexes, ∀ value other, relates index.schema value other →
      run index.schema value = some (.ok other)) :
    ∃ declared indexed, FieldsYield run exact members fields declared ∧
      IndexesYield run fields members indexes indexed ∧
      structOutput excess members (declared ++ indexed) = others := by
  cases matched with
  | intro rows blocks preserved =>
      exact ⟨_, _,
        rows.fieldsYield distinct (fun _ inFields => find?_parts blocks preserved inFields) fieldRuns,
        blocks.indexesYield kinds (fun _ inIndexes => indexMembers_parts rows preserved inIndexes)
          taken indexRuns,
        structOutput_parts rows blocks preserved distinct kinds⟩

/-- The object that a run makes has a match as soon as each value has one. -/
theorem of_run {declared indexed : Members} (distinct : (fields.map Field.name).Nodup)
    (kinds : (indexes.map (·.parameter.tellsSymbols)).Nodup)
    (fieldsYield : FieldsYield run exact members fields declared)
    (indexesYield : IndexesYield run fields members indexes indexed)
    (taken : ∀ index ∈ indexes, ∀ key : PropertyKey,
      (∃ result, run index.parameter key.toValue = some (.ok result)) → takes index.parameter key)
    (eachField : ∀ field ∈ fields, ∀ value result, run field.schema value = some (.ok result) →
      ∃ other, relates field.schema result other)
    (eachIndex : ∀ index ∈ indexes, ∀ value result, run index.schema value = some (.ok result) →
      ∃ other, relates index.schema result other) :
    ∃ others, ObjectsMatch takes relates excess fields indexes
      (structOutput excess members (declared ++ indexed)) others := by
  obtain ⟨otherDeclared, rows⟩ := fieldsYield.exists_rows eachField
  obtain ⟨otherIndexed, blocks⟩ := indexesYield.exists_blocks kinds taken eachIndex
  obtain ⟨rest, preserved, _, output⟩ := structOutput_eq distinct fieldsYield indexesYield excess
  rw [output]
  exact ⟨_, .intro rows blocks preserved⟩

end ObjectsMatch

end Run

end SchemaCodec
