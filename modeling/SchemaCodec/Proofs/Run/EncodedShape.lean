import SchemaCodec.Proofs.Run.StartSide

/-!
The shape of what encoding gives. It is put together from the results of functions, from what
refinements leave unchecked and from the members that unions choose; where the functions' results
are checked, the input side of the schema does not fail on it.
-/

namespace SchemaCodec

/-- What encoding asks of a node for its results to be of the input shape: a transformation checks
what its function gives, and no two index signatures are about the same keys. -/
def Kind.ChecksEncoded : Kind Schema → Prop
  | .struct fields indexes =>
    (Kind.struct fields indexes).WellFormed ∧
      (indexes.map fun index => index.parameter.tellsSymbols).Nodup
  | .transform _ _ _ _ strict => strict = true
  | .declaration _ _ _ => False
  | _ => True

namespace Run

open Schema

variable {targets : Targets} {settings : Settings} {schema : Schema} {input value : Value}

/-- A key that a parameter encodes is taken by the input side of the parameter. -/
private theorem admits_inputSide_of_encoded_key (parameter : schema.isParameter = true)
    (ran : Yields targets settings.encoding schema input (.ok value)) :
    Admits targets settings (schema.sideOf .input) input := by
  have shape : schema.kind.IsLeaf ∨ ∃ source filter, schema.kind = .refinement source filter :=
    parameter_induction parameter (fun _ leaf => Or.inl leaf)
      (fun _ source filter isRefinement _ => Or.inr ⟨source, filter, isRefinement⟩)
  rw [yields_iff_step] at ran
  rcases shape with leaf | ⟨source, filter, isRefinement⟩
  · exact admits_leaf leaf ((step_leaf leaf).mp ran).1
  · -- The parameter is its own output side, which has decoded the key.
    obtain ⟨given, validated, _⟩ := (step_refinement_encode isRefinement rfl).mp ran
    rw [outcome?_eq_some, outputSide, sideOf_output_of_isParameter parameter] at validated
    exact admits_inputSide_of_parameter parameter validated

/-! ### One level -/

private def EncodesToShape (targets : Targets) (settings : Settings) (depth : Nat)
    (schema : Schema) : Prop :=
  ∀ input value, parse targets depth settings.encoding schema input = some (.ok value) →
    Admits targets settings (schema.sideOf .input) value

private theorem encodesToShape_tuple {depth : Nat} {elements : List (Element Schema)}
    {rest : List Schema} (isTuple : schema.kind = .tuple elements rest)
    (children : ∀ child ∈ schema.kind.children, EncodesToShape targets settings depth child) :
    EncodesToShape targets settings (depth + 1) schema := by
  intro input value found
  rw [parse_succ] at found
  obtain ⟨items, rfl, required, bounded, results, yields, rfl⟩ := (step_tuple isTuple).mp found
  have sameLength := yields.length_eq
  rw [← sameLength] at required bounded
  refine admits_side_tuple isTuple required bounded fun child result inZip => ?_
  have below : child ∈ schema.kind.children := by
    rw [isTuple]
    exact mem_slots (List.of_mem_zip inZip).1
  rw [sameLength] at inZip
  obtain ⟨item, ran⟩ := yields.exists_of_mem_zip inZip
  exact children child below item result ran

private theorem encodesToShape_struct {depth : Nat} {fields : List (Field Schema)}
    {indexes : List (IndexSignature Schema)} (isStruct : schema.kind = .struct fields indexes)
    (checks : schema.kind.ChecksEncoded) (tell : IdentitiesTell [schema])
    (children : ∀ child ∈ schema.kind.children, EncodesToShape targets settings depth child) :
    EncodesToShape targets settings (depth + 1) schema := by
  intro input value found
  rw [parse_succ] at found
  by_cases parts : fields = [] ∧ indexes = []
  · obtain ⟨rfl, rfl⟩ := parts
    obtain ⟨notNullish, rfl⟩ := (step_struct_empty isStruct).mp found
    exact admits_side_struct_empty isStruct notNullish
  rw [isStruct] at checks
  obtain ⟨wellFormed, kinds⟩ := checks
  obtain ⟨distinct, parameters⟩ := wellFormed
  obtain ⟨members, rfl, expected, declared, indexed, fieldsYield, indexesYield, rfl⟩ :=
    (step_struct isStruct parts).mp found
  refine admits_side_struct tell isStruct (by rw [isStruct]; exact ⟨distinct, parameters⟩)
    { expected := fun strict member inOutput => ?_
      declared := fun field inFields => ?_
      indexed := fun index inIndexes member about => ?_ }
  · have keyExpected := expects_structOutput distinct fieldsYield indexesYield (expected strict)
      inOutput
    refine keyExpected.imp isDeclared_eq_true_iff.mp fun taken => ?_
    obtain ⟨index, inIndexes, fits, result, keyRan⟩ := exists_index_of_takesKey taken
    exact ⟨index, inIndexes, fits,
      admits_inputSide_of_parameter (parameters index inIndexes) ⟨depth, keyRan⟩⟩
  · cases present : Table.find? field.name
        (structOutput settings.encoding.options.excess members (declared ++ indexed)) with
    | some result =>
        obtain ⟨given, ran⟩ :=
          exists_ran_of_find? distinct fieldsYield indexesYield inFields present
        exact Or.inl ⟨result, rfl,
          children _ (field_mem_children isStruct inFields) given result ran⟩
    | none =>
        refine Or.inr ⟨rfl, Or.inl ?_⟩
        by_contra notOptional
        obtain ⟨_, result, _, _, contributed⟩ :=
          fieldsYield.of_required inFields (by simpa using notOptional)
        have there := find?_structOutput settings.encoding.options.excess distinct fieldsYield
          indexesYield contributed
        cases there.symm.trans present
  · have kept := mem_ofEntries_of_indexMembers distinct fieldsYield indexesYield inIndexes about
    have fits := (mem_indexMembers.mp about).2.1
    obtain ⟨last, inLast, related, origin, aboutLast, made, _⟩ :=
      indexesYield.exists_last (List.pairwise_map.mp kinds) kept inIndexes fits
    have same : index = last := by
      refine related.resolve_right fun apart => apart ?_
      have lastFits := (mem_indexMembers.mp aboutLast).2.1
      rw [← made.key, keyFits_eq_true_iff] at lastFits
      rw [keyFits_eq_true_iff] at fits
      exact fits.symm.trans lastFits
    subst same
    obtain ⟨key, taken⟩ := made.taken
    rw [← made.key] at taken
    exact ⟨admits_inputSide_of_encoded_key (parameters index inIndexes) ⟨depth, taken⟩,
      children _ (index_mem_children isStruct inIndexes).2 _ _ made.ran⟩

/-! ### Whole runs -/

private theorem encodesToShape (checks : schema.Throughout targets (·.kind.ChecksEncoded))
    (tell : schema.Throughout targets fun node => IdentitiesTell [node]) (depth : Nat) :
    EncodesToShape targets settings depth schema := by
  induction depth generalizing settings schema with
  | zero =>
      intro input value found
      cases found
  | succ depth ih =>
      have children : ∀ child ∈ schema.kind.children,
          EncodesToShape targets settings depth child :=
        fun child below => ih (checks.child below) (tell.child below)
      cases kindAt : schema.kind with
      | tuple elements rest => exact encodesToShape_tuple kindAt children
      | struct fields indexes => exact encodesToShape_struct kindAt checks.here tell.here children
      | union members =>
          intro input value found
          rw [parse_succ] at found
          unfold step at found
          rw [kindAt] at found
          obtain ⟨member, inMembers, memberRan⟩ := exists_of_union_ok found
          have below := member_mem_children kindAt inMembers
          exact admits_side_union tell.here kindAt inMembers nofun
            (@ih settings.failingFast member (checks.child below) (tell.child below) input value
              memberRan)
      | lazy cell =>
          intro input value found
          rw [parse_succ, step_lazy kindAt] at found
          exact admits_side_lazy kindAt
            (ih (checks.enter kindAt) (tell.enter kindAt) input value found)
      | refinement source filter =>
          intro input value found
          have below := refined_mem_children kindAt
          rw [parse_succ] at found
          -- Encoding leaves all refinements at the top out at once, and so does the input side.
          obtain ⟨given, _, ran⟩ := (step_refinement_encode kindAt rfl).mp found
          have admits := ih (checks.child below).withoutRefinements
            (tell.child below).withoutRefinements given value ran
          rw [inputSide_withoutRefinements] at admits
          rw [inputSide_refinement kindAt]
          exact admits
      | transform source target decode encode strict =>
          intro input value found
          have strictly := checks.here
          rw [kindAt] at strictly
          cases strictly
          rw [parse_succ] at found
          obtain ⟨given, result, _, _, after⟩ := (step_transform_encode kindAt rfl).mp found
          rw [inputSide_transform kindAt]
          exact children source (source_mem_children kindAt) result value after
      | declaration parameters decode encode =>
          have refuted := checks.here
          rw [kindAt] at refuted
          exact refuted.elim
      | _ =>
          intro input value found
          have leaf := isLeaf_of_kind kindAt trivial
          rw [parse_succ] at found
          obtain ⟨admits, rfl⟩ := (step_leaf leaf).mp found
          exact admits_leaf leaf admits

/-- What a schema encodes a value to, its input side decodes. Decoding by the input side never fails
on it, and where recursion is guarded it comes to an end. -/
theorem inputSide_takes_encoding (settings : Settings) (schema : Schema) (input encoded : Value)
    (checks : schema.Throughout targets (·.kind.ChecksEncoded))
    (tell : schema.Throughout targets fun node => IdentitiesTell [node])
    (ran : Yields targets settings.encoding schema input (.ok encoded)) :
    (∀ failure, ¬Yields targets settings.decoding schema.inputSide encoded (.error failure)) ∧
    (schema.Throughout targets (Guarded targets .input) →
      ∃ given, Yields targets settings.decoding schema.inputSide encoded (.ok given)) := by
  obtain ⟨depth, found⟩ := ran
  have accepts :=
    (encodesToShape checks tell depth input encoded found).accepts settings.options.faults
  refine ⟨fun failure failed => accepts ⟨failure, failed⟩, fun guarded => ?_⟩
  refine ok_of_not_rejects accepts ?_
  refine (endsFlat_side (fun node reached => ⟨guarded node reached, ?_⟩) encoded).ends _
  have here : node.kind.ChecksEncoded := checks node reached
  cases kindAt : node.kind with
  | declaration parameters decode encode =>
      rw [kindAt] at here
      exact here.elim
  | _ => exact True.intro

private theorem visitorNodes_checkEncoded : ∀ node ∈ visitorNodes, node.kind.ChecksEncoded := by
  simp only [visitorNodes, List.forall_mem_cons]
  exact ⟨trivial, ⟨⟨by decide, List.forall_mem_nil _⟩, by decide⟩,
    ⟨⟨by decide, List.forall_mem_nil _⟩, by decide⟩, trivial, trivial, rfl, trivial, trivial,
    List.forall_mem_nil _⟩

/-- A member is encoded by another way than a guest is, and the input side takes what it gives. -/
theorem visitor_inputSide_takes :
    (∀ failure, ¬Yields (fun _ => visitor) ⟨.async, { excess := .error }, .decode⟩
      visitor.inputSide
      (.object [(.string "kind", .string "member"), (.string "name", .string "x")])
      (.error failure)) ∧
    ∃ given, Yields (fun _ => visitor) ⟨.async, { excess := .error }, .decode⟩
      visitor.inputSide
      (.object [(.string "kind", .string "member"), (.string "name", .string "x")])
      (.ok given) := by
  have takes := @inputSide_takes_encoding (fun _ => visitor)
    ⟨.async, { excess := .error }, .encode⟩ visitor
    (.object [(.string "name", .string "x"), (.string "kind", .string "member")]) _
    (visitor_throughout visitorNodes_checkEncoded) (visitor_throughout visitorNodes_tell)
    ⟨8, rfl⟩
  exact ⟨takes.1, takes.2 visitor_guarded⟩

/-- What the first member encodes has the tag of the other one for decoding, which has no end. -/
theorem inputSide_of_encoding_may_not_end :
    (keptOrLinked.Throughout (fun _ => circular) fun node => node.kind.ChecksEncoded) ∧
    (keptOrLinked.Throughout (fun _ => circular) fun node => IdentitiesTell [node]) ∧
    Yields (fun _ => circular) ⟨.sync, { excess := .preserve }, .encode⟩ keptOrLinked
      (.object [(.string "kept", .boolean true), (.string "mark", .string "t")])
      (.ok (.object [(.string "kept", .boolean true), (.string "mark", .string "t")])) ∧
    ¬Ends (fun _ => circular) ⟨.sync, { excess := .preserve }, .decode⟩ keptOrLinked.inputSide
      (.object [(.string "kept", .boolean true), (.string "mark", .string "t")]) := by
  refine ⟨keptOrLinked_throughout ?_, keptOrLinked_tell, ⟨4, rfl⟩, ?_⟩
  · simp only [keptOrLinkedNodes, List.forall_mem_cons]
    exact ⟨trivial, ⟨⟨by decide, List.forall_mem_nil _⟩, by decide⟩,
      ⟨⟨by decide, List.forall_mem_nil _⟩, by decide⟩, trivial, trivial, trivial, trivial,
      List.forall_mem_nil _⟩
  · refine not_ends_of_member rfl rfl ?_
    exact not_ends_of_absent_field rfl (by decide) rfl rfl rfl side_of_circular_endless

end Run

end SchemaCodec
