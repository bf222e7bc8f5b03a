import SchemaCodec.Proofs.Run.Rejection

/-!
What the side of a node admits, level by level. Each kind of node asks for what the sides of the
schemas below it admit; a struct also asks that its literals, which are the tags of a union's
member, are there.
-/

namespace SchemaCodec.Run

open Schema

variable {targets : Targets} {settings : Settings} {schema : Schema} {side : Side} {value : Value}

/-! ### Literals -/

/-- A schema without transformations whose input side comes down to literals does not recurse. -/
private theorem ends_of_onlyLiterals {roots : List Schema} (tell : IdentitiesTell roots)
    (derived : Derived roots schema) (plain : schema.All (¬·.kind.IsTransform))
    (only : (schema.sideOf .input).OnlyLiterals) (decoding : settings.direction = .decode)
    (value : Value) : Ends targets settings schema value := by
  induction schema using childInduction generalizing settings with
  | node schema ih =>
      have shape := only.mayBe
      generalize kindAt : schema.kind = kind at shape
      cases shape with
      | leaf isLeaf => exact ends_leaf (isLeaf_of_kind kindAt isLeaf) value
      | union members =>
          refine ends_union kindAt fun member inMembers => ?_
          have below := member_mem_children kindAt inMembers
          exact ih member below (derived.child below) (plain.child below)
            (only.of_member tell derived kindAt inMembers) decoding
      | refinement source filter =>
          have below := refined_mem_children kindAt
          rw [inputSide_refinement kindAt] at only
          exact ends_refinement kindAt decoding
            (ih source below (derived.child below) (plain.child below) only decoding)
      | transform source target decode encode strict =>
          have here := plain.here
          rw [kindAt] at here
          exact absurd trivial here

/-- What is admitted by the side of a schema is the literal that it starts from, if it does. -/
private theorem accepts_of_literal {roots : List Schema} (tell : IdentitiesTell roots)
    (derived : Derived roots schema) {literal : Literal}
    (isLiteral : ((schema.sideOf side).sideOf .input).kind = .literal literal)
    (admits : Admits targets settings (schema.sideOf side) value) :
    literal.accepts value = true := by
  have only := onlyLiterals_of_literal isLiteral
  obtain ⟨result, ran⟩ := ok_of_not_rejects (admits.accepts .first)
    (ends_of_onlyLiterals tell (derived.side side) (sideOf_without_transform side schema) only rfl
      value)
  have taken := @literal_of_run targets roots tell (settings.decoding.withFaults .first) _
    (derived.side side) _ _ only ran
  exact accepts_of_flattened isLiteral taken

/-! ### Nodes that have no tags -/

theorem tags_of_other
    (notStruct : ∀ fields indexes, schema.kind ≠ .struct fields indexes)
    (notRefinement : ∀ source filter, schema.kind ≠ .refinement source filter)
    (notTransform : ¬schema.kind.IsTransform) (direction : Direction) :
    schema.tags direction = [] := by
  obtain ⟨id, annotations, kind⟩ := schema
  cases kind with
  | struct fields indexes => exact absurd rfl (notStruct fields indexes)
  | refinement source filter => exact absurd rfl (notRefinement source filter)
  | transform source target decode encode strict => exact absurd trivial notTransform
  | _ => rfl

theorem tags_of_leaf (leaf : schema.kind.IsLeaf) (direction : Direction) :
    schema.tags direction = [] := by
  obtain ⟨id, annotations, kind⟩ := schema
  cases kind <;> first | rfl | exact leaf.elim

theorem admits_leaf (leaf : schema.kind.IsLeaf) (admits : schema.kind.admits value = true) :
    Admits targets settings (schema.sideOf side) value := by
  rw [sideOf_leaf leaf]
  have notPlain : ¬schema.IsPlainUnion := by
    rintro ⟨_, members, isUnion⟩
    rw [isUnion] at leaf
    exact leaf
  refine .of_not_plain notPlain (fun mode => ?_) ?_
  · have ran : Yields targets (settings.decoding.withFaults mode) schema value (.ok value) :=
      yields_iff_step.mpr ((step_leaf leaf).mpr ⟨admits, rfl⟩)
    exact ran.not_rejects
  · rw [tags_of_leaf leaf]
    exact nofun

theorem admits_side_lazy {cell : LazyCell} (isLazy : schema.kind = .lazy cell)
    (admits : Admits targets settings ((cell.resolve targets).sideOf side) value) :
    Admits targets settings (schema.sideOf side) value := by
  have viewed : (schema.sideOf side).kind = _ := kind_sideOf_lazy isLazy
  refine .of_not_plain (not_plain_of_kind viewed nofun) ?_ ?_
  · rintro mode ⟨failure, failed⟩
    rw [yields_iff_step, step_lazy viewed, outcome?_eq_some] at failed
    exact admits.accepts mode ⟨failure, failed⟩
  · rw [tags_of_other (by rw [viewed]; nofun) (by rw [viewed]; nofun) (by rw [viewed]; exact id)]
    exact nofun

/-! ### Tuples -/

theorem admits_side_tuple {elements : List (Element Schema)} {rest : List Schema}
    (isTuple : schema.kind = .tuple elements rest) {items : List Value}
    (required : requiredCount elements rest ≤ items.length)
    (bounded : rest = [] → items.length ≤ elements.length)
    (each : ∀ child item, (child, item) ∈ (slots elements rest items.length).zip items →
      Admits targets settings (child.sideOf side) item) :
    Admits targets settings (schema.sideOf side) (.array items) := by
  have viewed : (schema.sideOf side).kind = _ := kind_sideOf_tuple isTuple
  refine .of_not_plain (not_plain_of_kind viewed nofun) ?_ ?_
  · rintro mode ⟨failure, failed⟩
    rw [yields_iff_step, step_array viewed] at failed
    rcases exists_error_of_tuple failed with
      few | ⟨closed, many⟩ | ⟨child, item, inZip, faults, itemFailed⟩
    · rw [requiredCount_sides] at few
      omega
    · have few := bounded (List.map_eq_nil_iff.mp closed)
      rw [List.length_map] at many
      omega
    · rw [slots_map, List.zip_map_left] at inZip
      obtain ⟨⟨original, given⟩, inOriginal, isPair⟩ := List.mem_map.mp inZip
      cases isPair
      exact (each original given inOriginal).accepts mode ⟨faults, outcome?_eq_some.mp itemFailed⟩
  · rw [tags_of_other (by rw [viewed]; nofun) (by rw [viewed]; nofun) (by rw [viewed]; exact id)]
    exact nofun

/-! ### Structs -/

/-- What the sides of a struct's parts must admit of an object. -/
structure Suits (targets : Targets) (settings : Settings) (side : Side)
    (fields : List (Field Schema)) (indexes : List (IndexSignature Schema)) (members : Members) :
    Prop where
  expected : settings.options.excess = .error → ∀ member ∈ members,
    member.1 ∈ fields.map Field.name ∨ ∃ index ∈ indexes,
      keyFits member.1 index.parameter = true ∧
        Admits targets settings (index.parameter.sideOf side) member.1.toValue
  declared : ∀ field ∈ fields,
    (∃ item, Table.find? field.name members = some item ∧
      Admits targets settings (field.schema.sideOf side) item) ∨
    (Table.find? field.name members = none ∧ (field.optional = true ∨
      (settings.options.exact = false ∧
        Admits targets settings (field.schema.sideOf side) .undefined)))
  indexed : ∀ index ∈ indexes, ∀ member ∈ indexMembers fields index members,
    Admits targets settings (index.parameter.sideOf side) member.1.toValue ∧
      Admits targets settings (index.schema.sideOf side) member.2

private theorem tellsSymbols_sideOf {parameter : Schema} (tells : parameter.isParameter = true)
    (side : Side) : (parameter.sideOf side).tellsSymbols = parameter.tellsSymbols := by
  cases side with
  | output => rw [sideOf_output_of_isParameter tells]
  | input =>
      refine parameter_induction tells (fun schema leaf => ?_)
        (fun schema source filter isRefinement ih => ?_)
      · rw [sideOf_leaf leaf]
      · rw [inputSide_refinement isRefinement, ih]
        obtain ⟨id, annotations, kind⟩ := schema
        cases isRefinement
        rfl

private theorem keyFits_sideOf {parameter : Schema} (tells : parameter.isParameter = true)
    (side : Side)
    (key : PropertyKey) : keyFits key (parameter.sideOf side) = keyFits key parameter := by
  rw [Bool.eq_iff_iff, keyFits_eq_true_iff, keyFits_eq_true_iff, tellsSymbols_sideOf tells]

private theorem mem_indexMembers_sideOf {fields : List (Field Schema)}
    {index : IndexSignature Schema}
    (tells : index.parameter.isParameter = true) {members : Members}
    {member : PropertyKey × Value} :
    member ∈ indexMembers (fields.map (Field.sideOf side)) (index.sideOf side) members ↔
      member ∈ indexMembers fields index members := by
  rw [mem_indexMembers, mem_indexMembers, List.map_map]
  exact and_congr_right fun _ => and_congr_left fun _ => by
    rw [IndexSignature.sideOf, keyFits_sideOf tells]

section Structs

variable {fields : List (Field Schema)} {indexes : List (IndexSignature Schema)} {members : Members}

theorem admits_side_struct_empty (isStruct : schema.kind = .struct [] [])
    (notNullish : value.isNullish = false) :
    Admits targets settings (schema.sideOf side) value := by
  have viewed : (schema.sideOf side).kind = _ := kind_sideOf_struct isStruct
  refine .of_not_plain (not_plain_of_kind viewed nofun) (fun mode => ?_) ?_
  · have ran : Yields targets (settings.decoding.withFaults mode) (schema.sideOf side) value
        (.ok value) := yields_iff_step.mpr ((step_struct_empty viewed).mpr ⟨notNullish, rfl⟩)
    exact ran.not_rejects
  · rw [tags_of_struct viewed]
    exact nofun

private theorem accepts_struct (isStruct : schema.kind = .struct fields indexes)
    (wellFormed : schema.kind.WellFormed)
    (suits : Suits targets settings side fields indexes members) :
    Accepts targets settings (schema.sideOf side) (.object members) := by
  rintro mode ⟨failure, failed⟩
  have viewed : (schema.sideOf side).kind = _ := kind_sideOf_struct isStruct
  rw [isStruct] at wellFormed
  by_cases parts : fields = [] ∧ indexes = []
  · obtain ⟨rfl, rfl⟩ := parts
    exact (admits_side_struct_empty isStruct rfl).accepts mode ⟨failure, failed⟩
  have viewedParts : ¬(fields.map (Field.sideOf side) = [] ∧
      indexes.map (IndexSignature.sideOf side) = []) := by
    simpa only [List.map_eq_nil_iff] using parts
  rw [yields_iff_step, step_object viewed viewedParts] at failed
  rcases exists_error_of_struct failed with ⟨strict, member, inMembers, undeclared, untaken⟩ |
    ⟨viewedField, inFields, broken⟩ | ⟨viewedIndex, inIndexes, member, about, faults, partFailed⟩
  · rcases suits.expected strict member inMembers with named | ⟨index, inIndexes, fits, admits⟩
    · rw [isDeclared_sides] at undeclared
      rw [isDeclared_eq_true_iff.mpr named] at undeclared
      cases undeclared
    · rw [← keyFits_sideOf (wellFormed.2 index inIndexes) side] at fits
      obtain ⟨faults, keyFailed⟩ :=
        error_of_takesKey untaken (List.mem_map_of_mem inIndexes) fits
      exact admits.accepts mode ⟨faults, outcome?_eq_some.mp keyFailed⟩
  · obtain ⟨field, inOriginal, rfl⟩ := List.mem_map.mp inFields
    rcases suits.declared field inOriginal with ⟨item, found, admits⟩ | ⟨absent, allowed⟩
    · rcases broken with ⟨missing, _⟩ | ⟨other, faults, present, fieldFailed⟩
      · cases found.symm.trans missing
      · cases found.symm.trans present
        exact admits.accepts mode ⟨faults, outcome?_eq_some.mp fieldFailed⟩
    · rcases broken with ⟨_, required, needed⟩ | ⟨other, faults, present, _⟩
      · rcases allowed with optional | ⟨loose, admits⟩
        · cases optional.symm.trans required
        · rcases needed with isExact | ⟨faults, fieldFailed⟩
          · cases loose.symm.trans isExact
          · exact admits.accepts mode ⟨faults, outcome?_eq_some.mp fieldFailed⟩
      · cases absent.symm.trans present
  · obtain ⟨index, inOriginal, rfl⟩ := List.mem_map.mp inIndexes
    rw [mem_indexMembers_sideOf (wellFormed.2 index inOriginal)] at about
    obtain ⟨keyAdmits, valueAdmits⟩ := suits.indexed index inOriginal member about
    rcases partFailed with keyFailed | valueFailed
    · exact keyAdmits.accepts mode ⟨faults, outcome?_eq_some.mp keyFailed⟩
    · exact valueAdmits.accepts mode ⟨faults, outcome?_eq_some.mp valueFailed⟩

theorem admits_side_struct (tell : IdentitiesTell [schema])
    (isStruct : schema.kind = .struct fields indexes) (wellFormed : schema.kind.WellFormed)
    (suits : Suits targets settings side fields indexes members) :
    Admits targets settings (schema.sideOf side) (.object members) := by
  have viewed : (schema.sideOf side).kind = _ := kind_sideOf_struct isStruct
  have accepts := accepts_struct isStruct wellFormed suits
  refine .of_not_plain (not_plain_of_kind viewed nofun) accepts ?_
  intro tag inTags
  rw [tags_of_struct viewed] at inTags
  obtain ⟨viewedField, inFields, required, named, isLiteral⟩ := exists_field_of_mem_tags inTags
  obtain ⟨field, inOriginal, rfl⟩ := List.mem_map.mp inFields
  have derived : Derived [schema] field.schema :=
    (Derived.root List.mem_cons_self).child (field_mem_children isStruct inOriginal)
  have accepted : ∀ item, Admits targets settings (field.schema.sideOf side) item →
      tag.literal.accepts item = true := fun item =>
    accepts_of_literal tell derived isLiteral
  have atTag : field.name = tag.key := named
  rcases suits.declared field inOriginal with ⟨item, found, admits⟩ | ⟨_, optional | ⟨_, admits⟩⟩
  · rw [atTag] at found
    exact fits_of_field (accepted item admits) (Or.inl found)
  · cases optional.symm.trans required
  · exact fits_of_field (accepted .undefined admits) (Or.inr rfl)

end Structs

end SchemaCodec.Run
