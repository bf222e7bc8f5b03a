import SchemaCodec.Proofs.Run.Choices
import SchemaCodec.Proofs.Run.Endless
import SchemaCodec.Proofs.Run.Fields

/-!
Extended schemas ask for what both schemas ask for. Two structs put their fields side by side; unions
put each choice on the left beside each on the right. The members of such a product have the tags of
both sides, so the one whose two halves succeed is tried, whichever of the tags it is listed under.
-/

namespace SchemaCodec.Run

open Schema

variable {targets : Targets} {settings : Settings} {left right made : Schema}

/-! ### Two structs -/

private theorem tags_of_joins (joins : Joins left.kind right.kind made.kind)
    (direction : Direction) :
    made.tags direction = left.tags direction ++ right.tags direction := by
  generalize leftKind : left.kind = first at joins
  generalize rightKind : right.kind = second at joins
  generalize madeKind : made.kind = third at joins
  cases joins with
  | struct fields others indexes signatures distinct =>
      rw [tags_of_struct leftKind, tags_of_struct rightKind, tags_of_struct madeKind,
        List.filterMap_append]

private theorem children_of_joins {first second third : Kind Schema}
    (joins : Joins first second third)
    {child : Schema} (below : child ∈ third.children) :
    child ∈ first.children ∨ child ∈ second.children := by
  cases joins with
  | struct fields others indexes signatures distinct =>
      simp only [Kind.children, List.map_append, List.flatMap_append, List.mem_append] at below ⊢
      tauto

private theorem regular_of_joins (leftRegular : Regular targets left)
    (rightRegular : Regular targets right)
    (joins : Joins left.kind right.kind made.kind) : Regular targets made := by
  have here : made.kind.WellFormed ∧ made.kind.IgnoresFaultMode ∧
      ∀ other, ¬made.kind.LeadsTo targets other := by
    have leftFormed := leftRegular.here.1
    have rightFormed := rightRegular.here.1
    generalize left.kind = first at joins leftFormed
    generalize right.kind = second at joins rightFormed
    generalize made.kind = third at joins
    cases joins with
    | struct fields others indexes signatures distinct =>
        exact ⟨⟨distinct, List.forall_mem_append.mpr ⟨leftFormed.2, rightFormed.2⟩⟩, trivial,
          fun _ leads => leads⟩
  refine Throughout.intro ⟨here.1, here.2.1⟩ here.2.2 fun child below => ?_
  rcases children_of_joins joins below with inLeft | inRight
  · exact leftRegular.child inLeft
  · exact rightRegular.child inRight

private theorem alwaysEnds_of_joins (leftEnds : left.Throughout targets (AlwaysEnds targets))
    (rightEnds : right.Throughout targets (AlwaysEnds targets))
    (joins : Joins left.kind right.kind made.kind) : AlwaysEnds targets made := by
  have isStruct : ∃ fields indexes, made.kind = .struct fields indexes := by
    generalize left.kind = first at joins
    generalize right.kind = second at joins
    generalize made.kind = third at joins
    cases joins
    exact ⟨_, _, rfl⟩
  refine alwaysEnds_of_children (Or.inl isStruct) fun child below => ?_
  rcases children_of_joins joins below with inLeft | inRight
  · exact (leftEnds.child inLeft).here
  · exact (rightEnds.child inRight).here

/-- The fields of two structs side by side succeed where the fields of both do. -/
private theorem succeeds_joined_iff {fields others : List (Field Schema)}
    (leftStruct : left.kind = .struct fields []) (rightStruct : right.kind = .struct others [])
    (joins : Joins left.kind right.kind made.kind) (ignoring : settings.options.excess = .ignore)
    {input : Value} :
    Succeeds targets settings made input ↔
      Succeeds targets settings left input ∧ Succeeds targets settings right input := by
  rw [leftStruct, rightStruct] at joins
  generalize madeStruct : made.kind = third at joins
  cases joins with
  | struct _ _ _ _ distinct =>
      have apart := distinct
      rw [List.map_append, List.nodup_append'] at apart
      unfold Succeeds
      rw [succeeds_fields_iff leftStruct apart.1 ignoring,
        succeeds_fields_iff rightStruct apart.2.1 ignoring,
        succeeds_fields_iff madeStruct distinct ignoring]
      constructor
      · rintro ⟨present, none | ⟨members, entries, rfl, yields⟩⟩
        · obtain ⟨noFields, noOthers⟩ := List.append_eq_nil_iff.mp none
          exact ⟨⟨present, Or.inl noFields⟩, present, Or.inl noOthers⟩
        · obtain ⟨front, back, inFront, inBack, _⟩ := FieldsYield.append_iff.mp yields
          exact ⟨⟨present, Or.inr ⟨members, front, rfl, inFront⟩⟩, present,
            Or.inr ⟨members, back, rfl, inBack⟩⟩
      · rintro ⟨⟨present, leftYields⟩, _, rightYields⟩
        refine ⟨present, ?_⟩
        rcases leftYields with rfl | ⟨members, front, rfl, inFront⟩
        · exact rightYields
        · refine Or.inr ⟨members, ?_⟩
          rcases rightYields with rfl | ⟨_, back, same, inBack⟩
          · exact ⟨front, rfl, by rwa [List.append_nil]⟩
          · cases same
            exact ⟨_, rfl, FieldsYield.append_iff.mpr ⟨front, back, inFront, inBack, rfl⟩⟩

/-- The output of two structs side by side is the output of the one and then that of the other. -/
private theorem yields_joined_iff {fields others : List (Field Schema)}
    (leftStruct : left.kind = .struct fields []) (rightStruct : right.kind = .struct others [])
    (joins : Joins left.kind right.kind made.kind) (ignoring : settings.options.excess = .ignore)
    (someLeft : fields ≠ []) (someRight : others ≠ []) {input value : Value} :
    Yields targets settings made input (.ok value) ↔
      ∃ front back, Yields targets settings left input (.ok (.object front)) ∧
        Yields targets settings right input (.ok (.object back)) ∧ value = .object (front ++ back) := by
  rw [leftStruct, rightStruct] at joins
  generalize madeStruct : made.kind = third at joins
  cases joins with
  | struct _ _ _ _ distinct =>
      have apart := distinct
      rw [List.map_append, List.nodup_append'] at apart
      have someBoth : fields ++ others ≠ [] := fun none => someLeft (List.append_eq_nil_iff.mp none).1
      simp only [yields_fields_iff leftStruct someLeft apart.1 ignoring,
        yields_fields_iff rightStruct someRight apart.2.1 ignoring,
        yields_fields_iff madeStruct someBoth distinct ignoring]
      constructor
      · rintro ⟨members, entries, rfl, yields, rfl⟩
        obtain ⟨front, back, inFront, inBack, rfl⟩ := FieldsYield.append_iff.mp yields
        exact ⟨front, back, ⟨members, front, rfl, inFront, rfl⟩, ⟨members, back, rfl, inBack, rfl⟩, rfl⟩
      · rintro ⟨_, _, ⟨members, front, rfl, inFront, same⟩, ⟨_, back, sameMembers, inBack, sameToo⟩, rfl⟩
        cases sameMembers
        cases same
        cases sameToo
        exact ⟨members, _, rfl, FieldsYield.append_iff.mpr ⟨_, _, inFront, inBack, rfl⟩, rfl⟩

/-! ### Unions of structs -/

/-- The schema chooses from structs that have nothing but fields. -/
def ChoosesFields (schema : Schema) : Prop :=
  ∀ choice ∈ schema.choices, ∃ fields, choice.kind = .struct fields []

theorem ChoosesFields.structs {schema : Schema} (chooses : ChoosesFields schema) :
    ∀ choice ∈ schema.choices, ∃ fields indexes, choice.kind = .struct fields indexes :=
  fun choice inChoices => (chooses choice inChoices).imp fun _ isStruct => ⟨[], isStruct⟩

private theorem choosesFields_of_union {schema : Schema} {members : List Schema}
    (isUnion : schema.kind = .union members)
    (structs : ∀ member ∈ members, ∃ fields, member.kind = .struct fields []) :
    ChoosesFields schema := by
  intro choice inChoices
  rw [choices_of_union isUnion] at inChoices
  obtain ⟨member, inMembers, chosen⟩ := List.mem_flatMap.mp inChoices
  obtain ⟨fields, isStruct⟩ := structs member inMembers
  rw [choices_of_not_union fun _ same => nomatch isStruct.symm.trans same] at chosen
  rw [List.mem_singleton.mp chosen]
  exact ⟨fields, isStruct⟩

private theorem derived_choice {schema choice : Schema} (inChoices : choice ∈ schema.choices) :
    Derived [schema] choice :=
  Derived.nested (.root List.mem_cons_self) (nested_of_choice inChoices)

section Extend

variable {id : NodeId} (built : extend id left right = .ok made) (leftFields : ChoosesFields left)
include built leftFields

private theorem regular_of_extend (leftRegular : Regular targets left)
    (rightRegular : Regular targets right) :
    Regular targets made := by
  refine possible_induction (fun _ => regular_never) (fun _ _ => regular_union) fun node member => ?_
  obtain ⟨first, inLeft, second, inRight, joins⟩ :=
    exists_joins_of_extend leftFields.structs built member
  exact regular_of_joins (leftRegular.nested (nested_of_choice inLeft))
    (rightRegular.nested (nested_of_choice inRight)) joins

private theorem alwaysEnds_of_extend (leftEnds : left.Throughout targets (AlwaysEnds targets))
    (rightEnds : right.Throughout targets (AlwaysEnds targets)) : AlwaysEnds targets made := by
  refine possible_induction (fun _ => alwaysEnds_never) (fun _ _ => alwaysEnds_union)
    fun node member => ?_
  obtain ⟨first, inLeft, second, inRight, joins⟩ :=
    exists_joins_of_extend leftFields.structs built member
  exact alwaysEnds_of_joins (leftEnds.nested (nested_of_choice inLeft))
    (rightEnds.nested (nested_of_choice inRight)) joins

variable (rightFields : ChoosesFields right) (leftRegular : Regular targets left)
  (rightRegular : Regular targets right) (ignoring : settings.options.excess = .ignore)
  {input : Value}
include rightFields leftRegular rightRegular ignoring

/-- Where the extended schema succeeds a choice on the left does and one on the right. -/
private theorem exists_choices_of_extended (succeeds : Succeeds targets settings made input) :
    (∃ first ∈ left.choices, Succeeds targets settings.failingFast first input) ∧
      ∃ second ∈ right.choices, Succeeds targets settings.failingFast second input := by
  obtain ⟨value, ran⟩ :=
    succeeds.failingFast (regular_of_extend built leftFields leftRegular rightRegular)
  obtain ⟨node, inFlattened, nodeRan⟩ := exists_flattened_of_ok ran
  obtain ⟨first, inLeft, second, inRight, joins⟩ := exists_joins_of_extend leftFields.structs built
    (mem_possible.mpr ⟨inFlattened, isNever_of_ok nodeRan⟩)
  obtain ⟨fields, firstStruct⟩ := leftFields first inLeft
  obtain ⟨others, secondStruct⟩ := rightFields second inRight
  have stillIgnoring : settings.failingFast.options.excess = .ignore := ignoring
  obtain ⟨firstSucceeds, secondSucceeds⟩ :=
    (succeeds_joined_iff firstStruct secondStruct joins stillIgnoring).mp ⟨value, nodeRan⟩
  exact ⟨⟨first, inLeft, firstSucceeds⟩, second, inRight, secondSucceeds⟩

/-- Where both schemas succeed the extended one does not fail: two choices that succeed stand side by
side in a member that has the tags of both. -/
private theorem extended_not_rejects (leftTell : IdentitiesTell [left])
    (rightTell : IdentitiesTell [right])
    (leftSucceeds : Succeeds targets settings left input)
    (rightSucceeds : Succeeds targets settings right input) :
    ¬Rejects targets settings made input := by
  obtain ⟨first, inLeft, firstSucceeds⟩ :=
    exists_choice_of_succeeds (leftSucceeds.failingFast leftRegular)
  obtain ⟨second, inRight, secondSucceeds⟩ :=
    exists_choice_of_succeeds (rightSucceeds.failingFast rightRegular)
  obtain ⟨node, inPossible, joins⟩ := exists_of_forall₂
    (provides_of_extend leftFields.structs built).matched.flip
    (List.pair_mem_product.mpr ⟨inLeft, inRight⟩)
  obtain ⟨fields, firstStruct⟩ := leftFields first inLeft
  obtain ⟨others, secondStruct⟩ := rightFields second inRight
  have stillIgnoring : settings.failingFast.options.excess = .ignore := ignoring
  obtain ⟨_, nodeRan⟩ := (succeeds_joined_iff firstStruct secondStruct joins stillIgnoring).mpr
    ⟨firstSucceeds, secondSucceeds⟩
  obtain ⟨_, firstRan⟩ := firstSucceeds
  obtain ⟨_, secondRan⟩ := secondSucceeds
  refine not_rejects_of_nested (regular_of_extend built leftFields leftRegular rightRegular)
    (nested_of_flattened (mem_possible.mp inPossible).1) (fun tag inTags => ?_) nodeRan.not_rejects
  rw [tags_of_joins joins] at inTags
  rcases List.mem_append.mp inTags with ofFirst | ofSecond
  · exact fits_of_run leftTell (derived_choice inLeft) firstRan ofFirst
  · exact fits_of_run rightTell (derived_choice inRight) secondRan ofSecond

end Extend

def smallTag : Schema := .plain (.made 10) (.literal (.string "small"))

def small : Schema := .plain (.made 11) (.struct [⟨.string "size", smallTag, false⟩] [])

def largeTag : Schema := .plain (.made 12) (.literal (.string "large"))

def large : Schema := .plain (.made 13) (.struct [⟨.string "size", largeTag, false⟩] [])

def sizes : Schema := .plain (.made 14) (.union [small, large])

def sizedNodes : List Schema :=
  [shapes, circle, circleTag, square, squareName, squareTag, .string, sizes, small, smallTag, large,
    largeTag]

private theorem sizedNodes_children : sizedNodes.flatMap (·.kind.children) ⊆ sizedNodes := by
  have children : sizedNodes.flatMap (·.kind.children) =
      [circle, square, circleTag, squareName, squareTag, .string, small, large, smallTag,
        largeTag] := rfl
  rw [children]
  simp [sizedNodes]

private theorem sizedNodes_tell {schema : Schema} (member : schema ∈ sizedNodes) :
    IdentitiesTell [schema] := by
  apply identitiesTell_of_written sizedNodes (by decide) (by decide)
  · exact List.cons_subset.mpr ⟨member, List.nil_subset _⟩
  · exact sizedNodes_children

private theorem sizedNodes_tame {schema : Schema} (member : schema ∈ sizedNodes) :
    schema.Throughout targets fun node => Tame node.kind := by
  refine Tame.of_closed sizedNodes sizedNodes_children ?_ member
  have copied : Tame squareName.kind :=
    ⟨trivial, ⟨fun _ _ _ _ => rfl, fun _ _ _ _ => rfl⟩,
      ⟨still_of_leaf trivial, still_of_leaf trivial⟩, nofun⟩
  simp only [sizedNodes, List.forall_mem_cons]
  exact ⟨.union _, .single _, .leaf trivial, .single _, copied, .leaf trivial, .leaf trivial, .union _,
    .single _, .leaf trivial, .single _, .leaf trivial, nofun⟩

def otherMark : Schema := .plain (.made 6) (.literal (.string "u"))

def otherMarked : Schema := .plain (.made 7) (.struct [⟨.string "other", otherMark, false⟩] [])

private theorem otherMarked_tell : IdentitiesTell [otherMarked] := by
  apply identitiesTell_of_written [otherMarked, otherMark] (by decide) (by decide)
  · simp
  · change [otherMark] ⊆ _
    simp

private theorem otherMarked_regular : Regular targets otherMarked := by
  refine .of_closed [otherMarked, otherMark] ?_ ?_ (by simp)
  · change [otherMark] ⊆ _
    simp
  · simp only [List.forall_mem_cons]
    exact ⟨⟨nofun, ⟨by decide, nofun⟩, trivial⟩, ⟨nofun, trivial, trivial⟩, nofun⟩

end SchemaCodec.Run
