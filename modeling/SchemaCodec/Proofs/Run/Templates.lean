import SchemaCodec.Proofs.Run.Records
import SchemaCodec.Proofs.Schema.TemplateTexts

/-!
Runs of texts made from parts. What is built is one leaf for each combination of alternatives, a literal
if nothing but fixed texts came together, so a run tries these leaves in turn and none of them can be
left out: the schema takes the texts that can be cut into pieces of the parts.
-/

namespace SchemaCodec

namespace Schema

variable {α : Type} {id : NodeId} {make : NodeId → α → Schema}

private theorem exists_parts_iff {holds : Schema → Prop} {holdsOf : α → Prop}
    (each : ∀ node given, holds (make node given) ↔ holdsOf given) {first : Nat} {list : List α} :
    (∃ part ∈ parts id make first list, holds part) ↔ ∃ given ∈ list, holdsOf given := by
  induction list generalizing first with
  | nil =>
      constructor
      · rintro ⟨_, member, _⟩
        cases member
      · rintro ⟨_, member, _⟩
        cases member
  | cons given rest ih =>
      rw [parts, List.exists_mem_cons_iff, List.exists_mem_cons_iff, each, ih]

private theorem number_of_mem_parts (named : ∀ node given, (make node given).id = node)
    {first : Nat}
    {list : List α} {part : Schema} (member : part ∈ parts id make first list) :
    ∃ number, first ≤ number ∧ part.id = .part id number := by
  induction list generalizing first with
  | nil => cases member
  | cons given rest ih =>
      rcases List.mem_cons.mp member with rfl | inRest
      · exact ⟨first, le_rfl, named _ _⟩
      · obtain ⟨number, later, isNumber⟩ := ih inRest
        exact ⟨number, by omega, isNumber⟩

private theorem nodup_parts (named : ∀ node given, (make node given).id = node) (first : Nat)
    (list : List α) : ((parts id make first list).map Schema.id).Nodup := by
  induction list generalizing first with
  | nil => exact List.nodup_nil
  | cons given rest ih =>
      rw [parts, List.map_cons, List.nodup_cons]
      refine ⟨fun again => ?_, ih (first + 1)⟩
      obtain ⟨other, inRest, same⟩ := List.mem_map.mp again
      obtain ⟨number, later, isNumber⟩ := number_of_mem_parts named inRest
      rw [isNumber, named] at same
      cases same
      omega

end Schema

namespace Run

open Schema

variable {targets : Targets} {settings : Settings}

theorem succeeds_leaf_iff {schema : Schema} (leaf : schema.kind.IsLeaf) {value : Value} :
    Succeeds targets settings schema value ↔ schema.kind.admits value = true := by
  constructor
  · rintro ⟨result, ran⟩
    exact ((step_leaf leaf).mp (yields_iff_step.mp ran)).1
  · exact fun admitted => ⟨value, yields_iff_step.mpr ((step_leaf leaf).mpr ⟨admitted, rfl⟩)⟩

/-- A union of leaves of different identities takes what one of them takes. -/
private theorem leaves_succeed_iff {id : NodeId} {schemas : List Schema}
    (nodup : (schemas.map Schema.id).Nodup) (leaves : ∀ schema ∈ schemas, schema.kind.IsLeaf)
    (possible : ∀ schema ∈ schemas, schema.isNever = false) {value : Value} :
    Ends targets settings (Schema.union id schemas) value ∧
      (Succeeds targets settings (Schema.union id schemas) value ↔
        ∃ schema ∈ schemas, schema.kind.admits value = true) := by
  have notPlain : ∀ schema ∈ schemas, ¬schema.IsPlainUnion := by
    rintro schema member ⟨_, members, isUnion⟩
    have leaf := leaves schema member
    rw [isUnion] at leaf
    exact leaf
  have all := unionMembers_of_nodup nodup notPlain possible
  rcases union_cases id schemas with ⟨none, isNever⟩ | ⟨single, only, isSingle⟩ | isUnion
  · rw [all] at none
    subst none
    have leaf : (plain id (.keyword .never)).kind.IsLeaf := trivial
    rw [isNever]
    refine ⟨ends_leaf leaf value, (succeeds_leaf_iff leaf).trans ⟨nofun, ?_⟩⟩
    rintro ⟨_, member, _⟩
    cases member
  · rw [all] at only
    subst only
    have leaf := leaves single List.mem_cons_self
    rw [isSingle]
    refine ⟨ends_leaf leaf value, (succeeds_leaf_iff leaf).trans ?_⟩
    simp only [List.mem_singleton, exists_eq_left]
  · rw [isUnion, all]
    have ofUnion : (plain id (.union schemas)).kind = .union schemas := rfl
    have each : ∀ member ∈ schemas, Ends targets settings.failingFast member value :=
      fun member inUnion => ends_leaf (leaves member inUnion) value
    refine ⟨ends_union ofUnion each, (succeeds_untagged_union_iff ofUnion each
      fun member inUnion => tags_of_leaf (leaves member inUnion) _).trans ?_⟩
    exact exists_congr fun member => and_congr_right fun inUnion =>
      succeeds_leaf_iff (leaves member inUnion)

theorem toSchema_admits (id : NodeId) (template : Template) (text : String) :
    (template.toSchema id).kind.admits (.string text) = true ↔ text.toList ∈ template.texts := by
  obtain ⟨head, spans⟩ := template
  cases spans with
  | nil =>
      have texts : (⟨head, []⟩ : Template).texts = {head.toList} := mul_one _
      have isLiteral : ((⟨head, []⟩ : Template).toSchema id).kind = .literal (.string head) := rfl
      rw [isLiteral, texts]
      change (head == text) = true ↔ text.toList = head.toList
      rw [beq_iff_eq, String.toList_inj]
      exact eq_comm
  | cons span rest => exact Template.accepts_iff

/-- A schema made from parts takes exactly the texts that can be cut into pieces, one for each part. -/
theorem templateLiteral_takes {id : NodeId} {parts : List Schema} {schema : Schema}
    (made : Schema.templateLiteral id parts = .ok schema) (targets : Targets) (settings : Settings)
    (text : String) :
    Ends targets settings schema (.string text) ∧
      (Succeeds targets settings schema (.string text) ↔
        ∃ pieces : List (List Char),
          List.Forall₂ PieceOf parts pieces ∧ pieces.flatten = text.toList) := by
  obtain ⟨templates, expanded, made⟩ := exists_ok_of_bind made
  cases made
  have named : ∀ node template, (Template.toSchema node template).id = node := by
    intro node template
    unfold Template.toSchema
    split <;> rfl
  have leaves : ∀ part ∈ Schema.parts id Template.toSchema 0 templates, part.kind.IsLeaf := by
    intro part member
    obtain ⟨node, template, rfl⟩ := exists_made_of_mem_parts member
    exact template.toSchema_leaf node
  have possible : ∀ part ∈ Schema.parts id Template.toSchema 0 templates, part.isNever = false := by
    intro part member
    obtain ⟨node, template, rfl⟩ := exists_made_of_mem_parts member
    unfold Template.toSchema
    split <;> rfl
  obtain ⟨ends, succeeds⟩ := leaves_succeed_iff (nodup_parts named 0 templates) leaves possible
  refine ⟨ends, succeeds.trans ?_⟩
  rw [exists_parts_iff fun node template => toSchema_admits node template text]
  exact Template.exists_template_iff expanded

def priceParts : List Schema :=
  [literal (.made 1) (.string "price: "), number,
    literals (.made 2) [.string "EUR", .string "€"], string]

/-- The dot belongs to the amount and the second currency is taken. -/
theorem price_taken : ∃ schema, Schema.templateLiteral (.made 3) priceParts = .ok schema ∧
    Succeeds (fun _ => .never) ⟨.sync, {}, .decode⟩ schema (.string "price: -1.5€ (net)") := by
  obtain ⟨schema, made⟩ : ∃ schema, Schema.templateLiteral (.made 3) priceParts = .ok schema :=
    ⟨_, rfl⟩
  refine ⟨schema, made, ?_⟩
  refine (templateLiteral_takes made (fun _ => .never) ⟨.sync, {}, .decode⟩ _).2.mpr
    ⟨["price: ".toList, "-1.5".toList, "€".toList, " (net)".toList], ?_, rfl⟩
  have amount : TemplateSlot.IsNumber "-1.5".toList :=
    @TemplateSlot.IsNumber.mk ['-'] ['1'] ['.'] ['5'] [] (Or.inr (Or.inr rfl))
      (List.forall_mem_singleton.mpr rfl) (Or.inr rfl)
      ⟨List.cons_ne_nil _ _, List.forall_mem_singleton.mpr rfl⟩ (Or.inl rfl)
  have currency : PieceOf (literals (.made 2) [.string "EUR", .string "€"]) "€".toList :=
    .union rfl (List.mem_cons_of_mem _ List.mem_cons_self)
      (@PieceOf.literal _ (.string "€") rfl)
  have label : PieceOf (literal (.made 1) (.string "price: ")) "price: ".toList :=
    @PieceOf.literal _ (.string "price: ") rfl
  have remark : PieceOf string " (net)".toList := .string rfl (by decide)
  exact .cons label (.cons (.number rfl amount) (.cons currency (.cons remark .nil)))

end Run

end SchemaCodec
