import SchemaCodec.Proofs.Run.Choices
import SchemaCodec.Proofs.Run.Fields

/-!
Structs with an attached field that are extended. The fields of the extension stand on both sides of the
transformation, so they run twice: on the input, and once more on what they gave. Where they keep what
they gave, the result has the members of both structs around the attached one.
-/

namespace SchemaCodec

namespace Schema

variable {id part : NodeId} {schema right tagged made : Schema} {key : PropertyKey}
  {literal : Literal} {fields others : List (Field Schema)}

def Keyworded (fields : List (Field Schema)) : Prop :=
  ∀ field ∈ fields, ∃ word, field.schema.kind = .keyword word

private theorem Keyworded.map_sideOf (keyworded : Keyworded fields) (side : Side) :
    fields.map (Field.sideOf side) = fields := by
  refine List.map_congr_left (fun field inFields => ?_) |>.trans fields.map_id
  obtain ⟨word, isKeyword⟩ := keyworded field inFields
  have leaf := isLeaf_of_kind isKeyword trivial
  rw [Field.sideOf, sideOf_leaf leaf]
  rfl

def attachedField (id : NodeId) (key : PropertyKey) (literal : Literal) : Field Schema :=
  ⟨key, Schema.literal (.part id 1) literal, false⟩

private theorem exists_target_of_attach (isStruct : schema.kind = .struct fields [])
    (attached : attach id schema key literal = .ok tagged) :
    ∃ target, tagged = transform id schema target (.partialOn (attachValue? key literal))
        (.partialOn (detachValue? key)) ∧
      target.kind =
        .struct (fields.map (Field.sideOf .output) ++ [attachedField id key literal]) [] := by
  obtain ⟨single, ofField, attached⟩ := exists_ok_of_bind attached
  obtain ⟨target, extended, same⟩ := exists_ok_of_bind attached
  cases same
  have checked : checkedStruct (.part id 0) [attachedField id key literal] [] = .ok single := ofField
  obtain ⟨rfl, _⟩ := exists_struct_of_checked checked
  have sideStruct : schema.outputSide.kind = .struct (fields.map (Field.sideOf .output)) [] :=
    kind_sideOf_struct isStruct
  have joins := joins_of_extend sideStruct rfl extended
  rw [sideStruct] at joins
  refine ⟨target, rfl, ?_⟩
  generalize target.kind = kind at joins
  cases joins
  rfl

private theorem exists_sides_of_extended_attach (isStruct : schema.kind = .struct fields [])
    (keyworded : Keyworded fields) (rightStruct : right.kind = .struct others [])
    (attached : attach part schema key literal = .ok tagged)
    (built : extend id tagged right = .ok made) :
    ∃ near far, made.kind = .transform near far (.partialOn (attachValue? key literal))
        (.partialOn (detachValue? key)) true ∧
      near.kind = .struct (fields ++ others) [] ∧
      far.kind = .struct (fields ++ attachedField part key literal :: others) [] ∧
      ((fields ++ attachedField part key literal :: others).map Field.name).Nodup := by
  obtain ⟨target, rfl, targetStruct⟩ := exists_target_of_attach isStruct attached
  rw [keyworded.map_sideOf] at targetStruct
  obtain ⟨near, far, ofSource, ofTarget, rfl⟩ := exists_sides_of_extend rfl rightStruct built
  obtain ⟨rfl, _⟩ := exists_struct_of_extendByStruct isStruct ofSource
  obtain ⟨rfl, distinct⟩ := exists_struct_of_extendByStruct targetStruct ofTarget
  rw [List.append_assoc] at distinct ⊢
  exact ⟨_, _, rfl, rfl, rfl, distinct⟩

private theorem distinct_of_extended_attach (isStruct : schema.kind = .struct fields [])
    (keyworded : Keyworded fields) (rightStruct : right.kind = .struct others [])
    (attached : attach part schema key literal = .ok tagged)
    (built : extend id tagged right = .ok made) :
    (fields.map Field.name).Nodup ∧ (others.map Field.name).Nodup := by
  obtain ⟨_, _, _, _, _, distinct⟩ :=
    exists_sides_of_extended_attach isStruct keyworded rightStruct attached built
  rw [List.map_append, List.nodup_append', List.map_cons, List.nodup_cons] at distinct
  exact ⟨distinct.1, distinct.2.1.2⟩

end Schema

namespace Run

open Schema

variable {targets : Targets} {settings : Settings} {key : PropertyKey} {literal : Literal}
  {fields others : List (Field Schema)} {members given front back entries : Members}

/-! ### The two walks -/

/-- Attaching asks for an object on the near side, and the far side runs on the object with the
attached member. -/
private theorem yields_attached_iff {made near far : Schema} {encode : Transformer}
    (isTransform : made.kind =
      .transform near far (.partialOn (attachValue? key literal)) encode true)
    (decoding : settings.direction = .decode) {input value : Value} :
    Yields targets settings made input (.ok value) ↔
      ∃ given, Yields targets settings near input (.ok (.object given)) ∧
        Yields targets settings far (.object (Table.insert key literal.toValue given))
          (.ok value) := by
  rw [yields_iff_step, step_transform_decode isTransform decoding]
  constructor
  · rintro ⟨reached, result, ran, applied, checked⟩
    have yields := outcome?_eq_some.mp ran
    cases reached with
    | object given =>
        cases applied
        exact ⟨given, yields, outcome?_eq_some.mp checked⟩
    | _ => cases applied
  · rintro ⟨given, ran, checked⟩
    exact ⟨_, _, outcome?_eq_some.mpr ran, rfl, outcome?_eq_some.mpr checked⟩

/-- A keyword keeps what it gave. -/
private theorem keyword_again {schema : Schema} {word : Keyword}
    (isKeyword : schema.kind = .keyword word)
    {value result : Value} (ran : outcome? targets settings schema value = some (.ok result)) :
    outcome? targets settings schema result = some (.ok result) := by
  have leaf := isLeaf_of_kind isKeyword trivial
  rw [outcome?_eq_step, step_leaf leaf] at ran ⊢
  obtain ⟨admitted, rfl⟩ := ran
  exact ⟨admitted, rfl⟩

/-- What is attached is there, so its field contributes it if the literal takes its own value. -/
private theorem attachedField_yields_iff {id : NodeId} {exact : Bool} :
    FieldsYield (outcome? targets settings) exact (Table.insert key literal.toValue members)
        [attachedField id key literal] entries ↔
      literal.accepts literal.toValue = true ∧ entries = [(key, literal.toValue)] := by
  have found : Table.find? key (Table.insert key literal.toValue members) = some literal.toValue := by
    rw [Table.find?_insert, if_pos rfl]
  have takes : ∀ {value result : Value},
      outcome? targets settings (Schema.literal (.part id 1) literal) value = some (.ok result) ↔
        literal.accepts value = true ∧ result = value := by
    intro value result
    rw [outcome?_eq_step, step_leaf (show (Schema.literal (.part id 1) literal).kind.IsLeaf from trivial)]
    rfl
  constructor
  · intro yields
    cases yields with
    | present foundToo ran tail =>
        cases found.symm.trans foundToo
        cases tail
        obtain ⟨accepted, rfl⟩ := takes.mp ran
        exact ⟨accepted, rfl⟩
    | leftOut absent _ _ => cases found.symm.trans absent
    | supplied absent _ _ _ _ => cases found.symm.trans absent
  · rintro ⟨accepted, rfl⟩
    exact .present found (takes.mpr ⟨accepted, rfl⟩) .nil

/-- The far side: the fields of both structs run on what the near side gave, with the attached member
between them. -/
private theorem far_yields_iff {id : NodeId} {exact : Bool}
    (distinct : ((fields ++ attachedField id key literal :: others).map Field.name).Nodup) :
    FieldsYield (outcome? targets settings) exact (Table.insert key literal.toValue given)
        (fields ++ attachedField id key literal :: others) entries ↔
      literal.accepts literal.toValue = true ∧ ∃ front back,
        FieldsYield (outcome? targets settings) exact given fields front ∧
        FieldsYield (outcome? targets settings) exact given others back ∧
        entries = front ++ (key, literal.toValue) :: back := by
  rw [List.map_append, List.nodup_append', List.map_cons, List.nodup_cons] at distinct
  obtain ⟨_, ⟨fresh, _⟩, apart⟩ := distinct
  have untouched : ∀ {list : List (Field Schema)}, key ∉ list.map Field.name → ∀ field ∈ list,
      Table.find? field.name (Table.insert key literal.toValue given) =
        Table.find? field.name given := by
    intro list outside field inList
    have different : key ≠ field.name := fun same => outside (same ▸ List.mem_map_of_mem inList)
    rw [Table.find?_insert, if_neg different]
  have inFields := untouched fun inFields => apart inFields List.mem_cons_self
  have inOthers := untouched fresh
  constructor
  · intro yields
    obtain ⟨front, later, ofFields, ofRest, rfl⟩ := FieldsYield.append_iff.mp yields
    obtain ⟨middle, back, attached, ofOthers, rfl⟩ := FieldsYield.cons_iff.mp ofRest
    obtain ⟨accepted, rfl⟩ := attachedField_yields_iff.mp attached
    exact ⟨accepted, front, back, ofFields.of_same_members fun field member => (inFields field member).symm,
      ofOthers.of_same_members fun field member => (inOthers field member).symm, rfl⟩
  · rintro ⟨accepted, front, back, ofFields, ofOthers, rfl⟩
    exact FieldsYield.append_iff.mpr ⟨front, _, ofFields.of_same_members inFields,
      FieldsYield.cons_iff.mpr ⟨_, back, attachedField_yields_iff.mpr ⟨accepted, rfl⟩,
        ofOthers.of_same_members inOthers, rfl⟩, rfl⟩

/-- What the near side gave has what each struct contributed under the names of its fields. -/
private theorem find?_near {run : Schema → Value → Option Outcome} {exact : Bool}
    (ofFields : FieldsYield run exact members fields front)
    (ofOthers : FieldsYield run exact members others back)
    (apart : (fields.map Field.name).Disjoint (others.map Field.name))
    (same : membersOf (fields ++ others) given = front ++ back) :
    (∀ field ∈ fields, Table.find? field.name given = Table.find? field.name front) ∧
      ∀ field ∈ others, Table.find? field.name given = Table.find? field.name back := by
  have split : ∀ field ∈ fields ++ others, Table.find? field.name given =
      (Table.find? field.name front).or (Table.find? field.name back) := by
    intro field inBoth
    rw [← find?_membersOf (List.mem_map_of_mem inBoth), same, Table.find?_append]
  constructor
  · intro field inFields
    have absent : Table.find? field.name back = none := Table.find?_eq_none_iff.mpr fun inBack =>
      apart (List.mem_map_of_mem inFields) (ofOthers.keys_sublist.subset inBack)
    rw [split field (List.mem_append_left _ inFields), absent, Option.or_none]
  · intro field inOthers
    have absent : Table.find? field.name front = none := Table.find?_eq_none_iff.mpr fun inFront =>
      apart (ofFields.keys_sublist.subset inFront) (List.mem_map_of_mem inOthers)
    rw [split field (List.mem_append_right _ inOthers), absent, Option.none_or]

section Extended

variable {part id : NodeId} {record right tagged made : Schema}
  (isStruct : record.kind = .struct fields []) (keyworded : Keyworded fields)
  (rightStruct : right.kind = .struct others [])
  (attached : attach part record key literal = .ok tagged)
  (built : extend id tagged right = .ok made) (decoding : settings.direction = .decode)
  (ignoring : settings.options.excess = .ignore)
include isStruct keyworded rightStruct attached built decoding ignoring

private theorem yields_extended_attach_iff {input value : Value} :
    Yields targets settings made input (.ok value) ↔
      literal.accepts literal.toValue = true ∧ ∃ members front back again, input = .object members ∧
        Yields targets settings record input (.ok (.object front)) ∧
        Yields targets settings right input (.ok (.object back)) ∧
        Yields targets settings right (.object back) (.ok (.object again)) ∧
        value = .object (membersOf fields front ++
          (key, literal.toValue) :: membersOf others again) := by
  obtain ⟨near, far, isTransform, nearStruct, farStruct, distinct⟩ :=
    exists_sides_of_extended_attach isStruct keyworded rightStruct attached built
  have withoutKey : (fields ++ others).Sublist (fields ++ attachedField part key literal :: others) :=
    (List.Sublist.refl fields).append (List.sublist_cons_self _ others)
  have nearDistinct := (withoutKey.map Field.name).nodup distinct
  have separate := nearDistinct
  rw [List.map_append, List.nodup_append'] at separate
  obtain ⟨distinctFields, distinctOthers, apart⟩ := separate
  have notEmpty : fields ++ attachedField part key literal :: others ≠ [] := by simp
  have keeps : ∀ field ∈ fields, ∀ value result,
      outcome? targets settings field.schema value = some (.ok result) →
        outcome? targets settings field.schema result = some (.ok result) :=
    fun field inFields _ _ ran => keyword_again (keyworded field inFields).choose_spec ran
  rw [yields_attached_iff isTransform decoding]
  constructor
  · rintro ⟨given, ran, checked⟩
    obtain ⟨_, entries, sameGiven, ofFar, rfl⟩ :=
      (yields_fields_iff farStruct notEmpty distinct ignoring).mp checked
    cases sameGiven
    obtain ⟨accepted, front, again, ofFields, ofOthers, rfl⟩ := (far_yields_iff distinct).mp ofFar
    obtain ⟨members, rfl⟩ :=
      (object_iff_object nearStruct nearDistinct ignoring ran).mpr ⟨given, rfl⟩
    obtain ⟨first, back, inFields, inOthers, same⟩ := FieldsYield.append_iff.mp
      ((exists_object_iff nearStruct nearDistinct ignoring).mp ⟨given, ran, rfl⟩)
    obtain ⟨fromFields, fromOthers⟩ := find?_near inFields inOthers apart same
    -- A keyword takes what it gave, so the second walk over the struct gives the same entries.
    obtain rfl : first = front :=
      ((inFields.again distinctFields keeps).of_same_members fromFields).unique ofFields
    obtain ⟨frontGiven, ranFront, sameFront⟩ :=
      (exists_object_iff isStruct distinctFields ignoring).mpr inFields
    obtain ⟨backGiven, ranBack, rfl⟩ :=
      (exists_object_iff rightStruct distinctOthers ignoring).mpr inOthers
    have walkedAgain := ofOthers.of_same_members fun field inList =>
      (find?_membersOf (List.mem_map_of_mem inList)).symm.trans (fromOthers field inList).symm
    obtain ⟨againGiven, ranAgain, sameAgain⟩ :=
      (exists_object_iff rightStruct distinctOthers ignoring).mpr walkedAgain
    refine ⟨accepted, members, frontGiven, backGiven, againGiven, rfl, ranFront, ranBack, ranAgain, ?_⟩
    rw [sameFront, sameAgain]
  · rintro ⟨accepted, members, front, back, again, rfl, ranFront, ranBack, ranAgain, rfl⟩
    have inFields := (exists_object_iff isStruct distinctFields ignoring).mp ⟨front, ranFront, rfl⟩
    have inOthers := (exists_object_iff rightStruct distinctOthers ignoring).mp ⟨back, ranBack, rfl⟩
    have walkedAgain :=
      (exists_object_iff rightStruct distinctOthers ignoring).mp ⟨again, ranAgain, rfl⟩
    obtain ⟨given, ran, same⟩ := (exists_object_iff nearStruct nearDistinct ignoring).mpr
      (FieldsYield.append_iff.mpr ⟨_, _, inFields, inOthers, rfl⟩)
    obtain ⟨fromFields, fromOthers⟩ := find?_near inFields inOthers apart same
    have ofFar := (far_yields_iff distinct).mpr ⟨accepted, _, _,
      (inFields.again distinctFields keeps).of_same_members fromFields,
      walkedAgain.of_same_members fun field inList =>
        (fromOthers field inList).trans (find?_membersOf (List.mem_map_of_mem inList)), rfl⟩
    exact ⟨given, ran, (yields_fields_iff farStruct notEmpty distinct ignoring).mpr
      ⟨_, _, rfl, ofFar, rfl⟩⟩

variable {input value : Value} (accepted : literal.accepts literal.toValue = true)
  (keeps : ∀ back, Yields targets settings right input (.ok back) →
    Yields targets settings right back (.ok back))
include accepted keeps

/-- Where the extension keeps what it decoded, what both structs decode is decoded. -/
private theorem succeeds_extended_attach_iff (some : fields ≠ [] ∨ others ≠ []) :
    Succeeds targets settings made input ↔
      Succeeds targets settings record input ∧ Succeeds targets settings right input := by
  obtain ⟨distinctFields, distinctOthers⟩ :=
    distinct_of_extended_attach isStruct keyworded rightStruct attached built
  have law : ∀ value, Yields targets settings made input (.ok value) ↔ _ := fun _ =>
    yields_extended_attach_iff isStruct keyworded rightStruct attached built decoding ignoring
  constructor
  · rintro ⟨value, ran⟩
    obtain ⟨_, _, front, back, _, _, ranFront, ranBack, _⟩ := (law value).mp ran
    exact ⟨⟨_, ranFront⟩, _, ranBack⟩
  · rintro ⟨⟨front, ranFront⟩, back, ranBack⟩
    -- Without fields on either side the input might be no object, which nothing is attached to.
    have isObject : ∃ members, input = .object members := by
      rcases some with someFields | someOthers
      · obtain ⟨members, _, same, _⟩ :=
          (yields_fields_iff isStruct someFields distinctFields ignoring).mp ranFront
        exact ⟨members, same⟩
      · obtain ⟨members, _, same, _⟩ :=
          (yields_fields_iff rightStruct someOthers distinctOthers ignoring).mp ranBack
        exact ⟨members, same⟩
    obtain ⟨frontGiven, rfl⟩ := (object_iff_object isStruct distinctFields ignoring ranFront).mp isObject
    obtain ⟨backGiven, rfl⟩ := (object_iff_object rightStruct distinctOthers ignoring ranBack).mp isObject
    obtain ⟨members, isObject⟩ := isObject
    exact ⟨_, (law _).mpr ⟨accepted, members, frontGiven, backGiven, backGiven, isObject, ranFront,
      ranBack, keeps _ ranBack, rfl⟩⟩

/-- Where the extension keeps what it decoded, the value has the members of both structs around the
attached one. -/
private theorem yields_extended_attach_of_kept (someFields : fields ≠ [])
    (someOthers : others ≠ []) :
    Yields targets settings made input (.ok value) ↔
      ∃ front back, Yields targets settings record input (.ok (.object front)) ∧
        Yields targets settings right input (.ok (.object back)) ∧
        value = .object (front ++ (key, literal.toValue) :: back) := by
  obtain ⟨distinctFields, distinctOthers⟩ :=
    distinct_of_extended_attach isStruct keyworded rightStruct attached built
  rw [yields_extended_attach_iff isStruct keyworded rightStruct attached built decoding ignoring]
  constructor
  · rintro ⟨_, members, front, back, again, rfl, ranFront, ranBack, ranAgain, rfl⟩
    cases ranAgain.unique (keeps _ ranBack)
    rw [membersOf_eq_of_yields isStruct someFields distinctFields ignoring ranFront,
      membersOf_eq_of_yields rightStruct someOthers distinctOthers ignoring ranBack]
    exact ⟨front, back, ranFront, ranBack, rfl⟩
  · rintro ⟨front, back, ranFront, ranBack, rfl⟩
    obtain ⟨members, isObject⟩ :=
      (object_iff_object isStruct distinctFields ignoring ranFront).mpr ⟨front, rfl⟩
    refine ⟨accepted, members, front, back, back, isObject, ranFront, ranBack, keeps _ ranBack, ?_⟩
    rw [membersOf_eq_of_yields isStruct someFields distinctFields ignoring ranFront,
      membersOf_eq_of_yields rightStruct someOthers distinctOthers ignoring ranBack]

omit accepted keeps

/-- A struct with an attached field that is extended. Its decoding takes an object that both structs
decode, if the extension also decodes what it decoded and the literal takes its own value; it gives
the members that the struct decoded, the attached one, and those that the extension decoded the second
time. So where the extension keeps what it decoded, and there are fields at all, it takes what both
structs take, and gives what both give. -/
theorem extended_attach_decodes (input : Value) :
    (∀ value, Yields targets settings made input (.ok value) ↔
      literal.accepts literal.toValue = true ∧ ∃ members front back again, input = .object members ∧
        Yields targets settings record input (.ok (.object front)) ∧
        Yields targets settings right input (.ok (.object back)) ∧
        Yields targets settings right (.object back) (.ok (.object again)) ∧
        value = .object (membersOf fields front ++
          (key, literal.toValue) :: membersOf others again)) ∧
    (literal.accepts literal.toValue = true → (fields ≠ [] ∨ others ≠ []) →
      (∀ back, Yields targets settings right input (.ok back) →
        Yields targets settings right back (.ok back)) →
      (Succeeds targets settings made input ↔
        Succeeds targets settings record input ∧ Succeeds targets settings right input)) ∧
    (literal.accepts literal.toValue = true → fields ≠ [] → others ≠ [] →
      (∀ back, Yields targets settings right input (.ok back) →
        Yields targets settings right back (.ok back)) →
      ∀ value, Yields targets settings made input (.ok value) ↔
        ∃ front back, Yields targets settings record input (.ok (.object front)) ∧
          Yields targets settings right input (.ok (.object back)) ∧
          value = .object (front ++ (key, literal.toValue) :: back)) := by
  refine ⟨fun value => ?_, fun accepted some keeps => ?_, fun accepted someFields someOthers keeps _ => ?_⟩
  · exact yields_extended_attach_iff isStruct keyworded rightStruct attached built decoding ignoring
  · exact succeeds_extended_attach_iff isStruct keyworded rightStruct attached built decoding ignoring
      accepted keeps some
  · exact yields_extended_attach_of_kept isStruct keyworded rightStruct attached built decoding
      ignoring accepted keeps someFields someOthers

end Extended

def named : Schema := .plain (.made 20) (.struct [⟨.string "a", .string, false⟩] [])

def counted : Schema := .plain (.made 21) (.struct [⟨.string "c", .number, false⟩] [])

/-- A struct with an attached tag and one more field, as both are decoded. -/
theorem tagged_counted_decoded : ∃ tagged made,
    attach (.made 22) named (.string "_tag") (.string "b") = .ok tagged ∧
    extend (.made 23) tagged counted = .ok made ∧
    Yields (fun _ => .never) ⟨.sync, {}, .decode⟩ made
      (.object [(.string "a", .string "a"), (.string "c", .number 1)])
      (.ok (.object [(.string "a", .string "a"), (.string "_tag", .string "b"),
        (.string "c", .number 1)])) := by
  obtain ⟨tagged, attached⟩ : ∃ tagged,
      attach (.made 22) named (.string "_tag") (.string "b") = .ok tagged := ⟨_, rfl⟩
  obtain ⟨made, built⟩ : ∃ made, extend (.made 23) tagged counted = .ok made := by
    cases attached
    exact ⟨_, rfl⟩
  have keyworded : Keyworded [⟨.string "a", .string, false⟩] :=
    List.forall_mem_singleton.mpr ⟨.string, rfl⟩
  have ranCounted : Yields (fun _ => .never) ⟨.sync, {}, .decode⟩ counted
      (.object [(.string "a", .string "a"), (.string "c", .number 1)])
      (.ok (.object [(.string "c", .number 1)])) := ⟨6, rfl⟩
  have keeps : ∀ back, Yields (fun _ => .never) ⟨.sync, {}, .decode⟩ counted
      (.object [(.string "a", .string "a"), (.string "c", .number 1)]) (.ok back) →
      Yields (fun _ => .never) ⟨.sync, {}, .decode⟩ counted back (.ok back) := by
    intro back ran
    cases ranCounted.unique ran
    exact ⟨6, rfl⟩
  have decodes := @extended_attach_decodes (fun _ => .never) ⟨.sync, {}, .decode⟩ _ _ _ _ _ _ _ _ _ _
    rfl keyworded rfl attached built rfl rfl
    (.object [(.string "a", .string "a"), (.string "c", .number 1)])
  exact ⟨tagged, made, attached, built,
    (decodes.2.2 (by decide) nofun nofun keeps _).mpr ⟨_, _, ⟨6, rfl⟩, ranCounted, rfl⟩⟩

/-- Both structs decode the input, and the extension of the first with an attached field by the second
does not. -/
def OnlyApart (record right : Schema) (key : PropertyKey) (literal : Literal) (input : Value) : Prop :=
  ∃ tagged made, attach (.made 22) record key literal = .ok tagged ∧
    extend (.made 23) tagged right = .ok made ∧
    Succeeds (fun _ => .never) ⟨.sync, {}, .decode⟩ record input ∧
    Succeeds (fun _ => .never) ⟨.sync, {}, .decode⟩ right input ∧
    Rejects (fun _ => .never) ⟨.sync, {}, .decode⟩ made input

def written : Schema :=
  .plain (.made 24) (.struct [⟨.string "c", Schema.bigintFromString (.made 25) .string, false⟩] [])

def bare : Schema := .plain (.made 26) (.struct [] [])

/-- A whole number that was read is not a text that writes one; the undefined number is not itself;
without any fields a text is taken, which nothing can be attached to; and a struct without fields
keeps members that are not mentioned. -/
theorem extended_attach_falls_short :
    OnlyApart named written (.string "_tag") (.string "b")
      (.object [(.string "a", .string "a"), (.string "c", .string "2")]) ∧
    OnlyApart named counted (.string "_tag") (.number Number.undefined)
      (.object [(.string "a", .string "a"), (.string "c", .number 1)]) ∧
    OnlyApart bare bare (.string "_tag") (.string "b") (.string "a") ∧
    ∃ tagged made, attach (.made 22) bare (.string "_tag") (.string "b") = .ok tagged ∧
      extend (.made 23) tagged counted = .ok made ∧
      Yields (fun _ => .never) ⟨.sync, {}, .decode⟩ bare
        (.object [(.string "a", .string "a"), (.string "c", .number 1)])
        (.ok (.object [(.string "a", .string "a"), (.string "c", .number 1)])) ∧
      Yields (fun _ => .never) ⟨.sync, {}, .decode⟩ made
        (.object [(.string "a", .string "a"), (.string "c", .number 1)])
        (.ok (.object [(.string "_tag", .string "b"), (.string "c", .number 1)])) := by
  refine ⟨?_, ?_, ?_, ?_⟩
  · exact ⟨_, _, rfl, rfl, ⟨_, 6, rfl⟩, ⟨_, 6, rfl⟩, _, 6, rfl⟩
  · exact ⟨_, _, rfl, rfl, ⟨_, 6, rfl⟩, ⟨_, 6, rfl⟩, _, 6, rfl⟩
  · exact ⟨_, _, rfl, rfl, ⟨_, 6, rfl⟩, ⟨_, 6, rfl⟩, _, 6, rfl⟩
  · exact ⟨_, _, rfl, rfl, ⟨6, rfl⟩, 6, rfl⟩

end Run

end SchemaCodec
