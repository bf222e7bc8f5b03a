import SchemaCodec.Proofs.Run.Fields
import SchemaCodec.Proofs.Run.Records

/-!
Structs that are taken apart and put together again. The fields that are picked and those that are left
over are all fields in another order, and the order of fields only shows in the order of members.
-/

namespace SchemaCodec

namespace Schema

variable {id : NodeId} {fields others : List (Field Schema)}
  {indexes signatures : List (IndexSignature Schema)} {keys : List PropertyKey}

/-! ### Construction -/

private theorem checkedStruct_eq_ok (distinct : (fields.map Field.name).Nodup) :
    checkedStruct id fields indexes = .ok (plain id (.struct fields indexes)) := by
  rw [checkedStruct, not_repeated_of_nodup distinct fun _ _ => List.not_mem_nil]

private theorem extend_structs (distinct : ((fields ++ others).map Field.name).Nodup)
    (first second : NodeId) :
    extend id (plain first (.struct fields indexes)) (plain second (.struct others signatures)) =
      .ok (plain id (.struct (fields ++ others) (indexes ++ signatures))) := by
  rw [extend, plain, plain, extendEach, extendBy, extendByStruct]
  · exact checkedStruct_eq_ok distinct
  · nofun

/-! ### Picked and left over -/

private theorem field?_eq_some_iff (distinct : (fields.map Field.name).Nodup) {key : PropertyKey}
    {field : Field Schema} : field? fields key = some field ↔ field ∈ fields ∧ field.name = key := by
  rw [field?]
  constructor
  · intro found
    exact ⟨List.mem_of_find?_eq_some found, by simpa using List.find?_some found⟩
  · rintro ⟨inFields, rfl⟩
    have there : (fields.find? fun other => other.name = field.name).isSome :=
      List.find?_isSome.mpr ⟨field, inFields, by simp⟩
    obtain ⟨other, found⟩ := Option.isSome_iff_exists.mp there
    have sameName : other.name = field.name := by simpa using List.find?_some found
    rw [found, List.inj_on_of_nodup_map distinct (List.mem_of_find?_eq_some found) inFields sameName]

/-- The picked fields and the fields that are left over are all fields. -/
private theorem picked_append_left_perm (distinct : (fields.map Field.name).Nodup)
    (distinctKeys : keys.Nodup) :
    (keys.filterMap (field? fields) ++ fields.filter fun field => !keys.contains field.name).Perm
      fields := by
  have distinctFields := List.Nodup.of_map _ distinct
  have picked : ∀ field, field ∈ keys.filterMap (field? fields) ↔
      field ∈ fields ∧ field.name ∈ keys := by
    intro field
    simp only [List.mem_filterMap, field?_eq_some_iff distinct]
    constructor
    · rintro ⟨_, inKeys, inFields, rfl⟩
      exact ⟨inFields, inKeys⟩
    · rintro ⟨inFields, inKeys⟩
      exact ⟨_, inKeys, inFields, rfl⟩
  have left : ∀ field, field ∈ fields.filter (fun field => !keys.contains field.name) ↔
      field ∈ fields ∧ field.name ∉ keys := by
    simp [List.mem_filter]
  have distinctPicked : (keys.filterMap (field? fields)).Nodup := by
    refine distinctKeys.filterMap fun key other field found foundToo => ?_
    exact ((field?_eq_some_iff distinct).mp found).2.symm.trans
      ((field?_eq_some_iff distinct).mp foundToo).2
  have distinctBoth : (keys.filterMap (field? fields) ++
      fields.filter fun field => !keys.contains field.name).Nodup :=
    List.nodup_append'.mpr ⟨distinctPicked, distinctFields.filter _, fun field inPicked inLeft =>
      ((left field).mp inLeft).2 ((picked field).mp inPicked).2⟩
  refine (List.perm_ext_iff_of_nodup distinctBoth distinctFields).mpr fun field => ?_
  rw [List.mem_append, picked, left]
  tauto

/-- A struct can be split at any keys, and put together again it has the same fields in another order. -/
private theorem exists_split {schema : Schema} (isStruct : schema.kind = .struct fields indexes)
    (distinct : (fields.map Field.name).Nodup) (distinctKeys : keys.Nodup)
    (pickedId leftId id : NodeId) :
    ∃ picked left made, pick pickedId schema keys = .ok picked ∧
      leaveOut leftId schema keys = .ok left ∧ extend id picked left = .ok made ∧
      ∃ others, made.kind = .struct others indexes ∧ fields.Perm others := by
  have perm := picked_append_left_perm distinct distinctKeys
  have distinctParts := (perm.map Field.name).nodup_iff.mpr distinct
  have separate := distinctParts
  rw [List.map_append, List.nodup_append'] at separate
  have parts : ∀ operation, structParts operation schema = .ok (fields, indexes) := by
    intro operation
    rw [structParts, isStruct]
  have picked : pick pickedId schema keys =
      .ok (plain pickedId (.struct (keys.filterMap (field? fields)) [])) := by
    rw [pick, parts]
    exact checkedStruct_eq_ok separate.1
  have left : leaveOut leftId schema keys =
      .ok (plain leftId (.struct (fields.filter fun field => !keys.contains field.name) indexes)) := by
    rw [leaveOut, parts]
    exact checkedStruct_eq_ok separate.2.1
  exact ⟨_, _, _, picked, left, extend_structs distinctParts pickedId leftId, _, rfl, perm.symm⟩

end Schema

namespace Run

open Schema

variable {run : Schema → Value → Option Outcome} {exact : Bool} {fields others : List (Field Schema)}
  {indexes : List (IndexSignature Schema)} {members declared moved indexed : Members}

/-! ### Fields in another order -/

private theorem isDeclared_of_perm (perm : fields.Perm others) :
    isDeclared fields = isDeclared others :=
  funext fun _ => perm.any_eq

private theorem indexMembers_of_perm (perm : fields.Perm others) (index : IndexSignature Schema) :
    indexMembers fields index members = indexMembers others index members := by
  rw [indexMembers, indexMembers, isDeclared_of_perm perm]

private theorem IndexesYield.of_perm (perm : fields.Perm others)
    (yields : IndexesYield run fields members indexes indexed) :
    IndexesYield run others members indexes indexed := by
  induction yields with
  | nil => exact .nil
  | cons head _ ih =>
      rw [indexMembers_of_perm perm] at head
      exact .cons head ih

private theorem expects_of_perm {decodeKey : Schema → Value → Option Outcome}
    (perm : fields.Perm others)
    {key : PropertyKey} (expects : Expects decodeKey fields indexes key) :
    Expects decodeKey others indexes key := by
  rwa [Expects, ← isDeclared_of_perm perm]

/-- What is preserved depends on which keys are there, not on their order. -/
private theorem preserve_perm {output other : Members} (perm : output.Perm other) :
    (preserve output members).Perm (preserve other members) := by
  have sameKeys : ∀ key, Table.has key output = Table.has key other := by
    intro key
    rw [Bool.eq_iff_iff, Table.has_eq_true_iff, Table.has_eq_true_iff]
    exact (perm.map Prod.fst).mem_iff
  rw [preserve, preserve]
  simp only [sameKeys]
  exact perm.append_right _

/-- The declared members in another order leave the others where they are. -/
private theorem structOutput_perm (excess : ExcessPolicy) (perm : declared.Perm moved)
    (distinct : (Table.keys declared).Nodup)
    (apart : ∀ key ∈ Table.keys indexed, key ∉ Table.keys declared) :
    (structOutput excess members (declared ++ indexed)).Perm
      (structOutput excess members (moved ++ indexed)) := by
  have sameKeys := perm.map Prod.fst
  have apartToo : ∀ key ∈ Table.keys indexed, key ∉ Table.keys moved :=
    fun key inIndexed inMoved => apart key inIndexed (sameKeys.mem_iff.mpr inMoved)
  have written : (Table.ofEntries (declared ++ indexed)).Perm (Table.ofEntries (moved ++ indexed)) := by
    rw [Table.ofEntries_append apart, Table.ofEntries_append apartToo,
      Table.ofEntries_of_nodup distinct, Table.ofEntries_of_nodup (sameKeys.nodup_iff.mp distinct)]
    exact perm.append_right _
  unfold structOutput
  split
  · exact preserve_perm written
  · exact written

/-- The values are the same, or objects with the same members in another order. -/
inductive UpToOrder : Value → Value → Prop where
  | same (value : Value) : UpToOrder value value
  | object {members others : Members} (perm : members.Perm others) :
      UpToOrder (.object members) (.object others)

/-- A struct with the fields in another order gives the same members in another order. -/
private theorem exists_yields_of_perm {targets : Targets} {settings : Settings}
    {schema other : Schema}
    (isStruct : schema.kind = .struct fields indexes) (otherStruct : other.kind = .struct others indexes)
    (distinct : (fields.map Field.name).Nodup) (perm : fields.Perm others) {input value : Value}
    (ran : Yields targets settings schema input (.ok value)) :
    ∃ result, Yields targets settings other input (.ok result) ∧ UpToOrder value result := by
  simp only [yields_iff_step] at ran ⊢
  by_cases parts : fields = [] ∧ indexes = []
  · obtain ⟨rfl, rfl⟩ := parts
    cases perm.nil_eq
    rw [step_struct_empty isStruct] at ran
    exact ⟨value, (step_struct_empty otherStruct).mpr ran, .same value⟩
  · have partsToo : ¬(others = [] ∧ indexes = []) := by
      rintro ⟨rfl, rfl⟩
      exact parts ⟨perm.eq_nil, rfl⟩
    obtain ⟨members, rfl, expected, declared, indexed, yields, indexesYield, rfl⟩ :=
      (step_struct isStruct parts).mp ran
    obtain ⟨moved, sameMembers, movedYield⟩ := yields.perm perm
    have sublist := yields.keys_sublist
    have output := @structOutput_perm members _ _ _ settings.options.excess sameMembers
      (sublist.nodup distinct) fun key inIndexed inDeclared =>
        indexesYield.undeclared inIndexed (sublist.subset inDeclared)
    refine ⟨_, (step_struct otherStruct partsToo).mpr ⟨members, rfl, fun strict member inMembers => ?_,
      moved, indexed, movedYield, indexesYield.of_perm perm, rfl⟩, .object output⟩
    exact expects_of_perm perm (expected strict member inMembers)

/-- Picking and leaving out split a struct. Whatever the keys are, what is picked and what is left over
can be built and put together again, and the struct that comes of it succeeds where the first one
does, with the same members up to their order. -/
theorem pick_leaveOut_extend {schema : Schema} {keys : List PropertyKey}
    (isStruct : schema.kind = .struct fields indexes) (formed : schema.kind.WellFormed)
    (distinctKeys : keys.Nodup) (pickedId leftId id : NodeId) :
    ∃ picked left made, pick pickedId schema keys = .ok picked ∧
      leaveOut leftId schema keys = .ok left ∧ extend id picked left = .ok made ∧
      ∀ targets settings input,
        (Succeeds targets settings made input ↔ Succeeds targets settings schema input) ∧
        ∀ value result, Yields targets settings schema input (.ok value) →
          Yields targets settings made input (.ok result) → UpToOrder value result := by
  have distinct : (fields.map Field.name).Nodup := by
    rw [isStruct] at formed
    exact formed.1
  obtain ⟨picked, left, made, ofPicked, ofLeft, ofMade, others, madeStruct, perm⟩ :=
    exists_split isStruct distinct distinctKeys pickedId leftId id
  have distinctOthers := (perm.map Field.name).nodup_iff.mp distinct
  refine ⟨picked, left, made, ofPicked, ofLeft, ofMade, fun targets settings input =>
    ⟨⟨?_, ?_⟩, fun value result ran ranToo => ?_⟩⟩
  · rintro ⟨result, ran⟩
    obtain ⟨value, ranToo, _⟩ := exists_yields_of_perm madeStruct isStruct distinctOthers perm.symm ran
    exact ⟨value, ranToo⟩
  · rintro ⟨value, ran⟩
    obtain ⟨result, ranToo, _⟩ := exists_yields_of_perm isStruct madeStruct distinct perm ran
    exact ⟨result, ranToo⟩
  · obtain ⟨other, ranOther, related⟩ := exists_yields_of_perm isStruct madeStruct distinct perm ran
    cases ranToo.unique ranOther
    exact related

def stock : Schema :=
  .plain (.made 27) (.struct [⟨.string "a", .string, false⟩, ⟨.string "b", .number, true⟩]
    [⟨.string, .boolean⟩])

/-- A struct that is split at one of its names and at a key that is none, on an object with a member
that only the index signature takes. -/
theorem stock_split : ∃ picked left made,
    pick (.made 28) stock [.string "b", .string "z"] = .ok picked ∧
    leaveOut (.made 29) stock [.string "b", .string "z"] = .ok left ∧
    extend (.made 30) picked left = .ok made ∧
    ∃ result, Yields (fun _ => .never) ⟨.sync, { faults := .all, excess := .error }, .decode⟩ made
        (.object [(.string "a", .string "x"), (.string "b", .number 1), (.string "d", .boolean true)])
        (.ok result) ∧
      UpToOrder (.object [(.string "a", .string "x"), (.string "b", .number 1),
        (.string "d", .boolean true)]) result := by
  have formed : stock.kind.WellFormed := ⟨by decide, List.forall_mem_singleton.mpr rfl⟩
  obtain ⟨picked, left, made, ofPicked, ofLeft, ofMade, alike⟩ :=
    @pick_leaveOut_extend _ _ stock [.string "b", .string "z"] rfl formed (by decide) (.made 28)
      (.made 29) (.made 30)
  have ran : Yields (fun _ => .never) ⟨.sync, { faults := .all, excess := .error }, .decode⟩ stock
      (.object [(.string "a", .string "x"), (.string "b", .number 1), (.string "d", .boolean true)])
      (.ok (.object [(.string "a", .string "x"), (.string "b", .number 1),
        (.string "d", .boolean true)])) := ⟨6, rfl⟩
  obtain ⟨succeeds, sameMembers⟩ := alike (fun _ => .never)
    ⟨.sync, { faults := .all, excess := .error }, .decode⟩ (.object [(.string "a", .string "x"),
      (.string "b", .number 1), (.string "d", .boolean true)])
  obtain ⟨result, ranToo⟩ := succeeds.mpr ⟨_, ran⟩
  exact ⟨picked, left, made, ofPicked, ofLeft, ofMade, result, ranToo, sameMembers _ result ran ranToo⟩

end Run

end SchemaCodec
