import SchemaCodec.Proofs.Run.Ending

/-!
Properties of values that runs keep. For arrays and objects such a property is a matter of a second
property of their parts; if the functions of all transformations on the way keep both, then so does
the run. Checks, choices and references only hand on what they are given.
-/

namespace SchemaCodec

variable {counts : PropertyKey → Prop} {holds inside : Value → Prop}

/-- The first property holds of arrays and objects exactly if the second one does of their parts;
members count under some keys only. -/
structure Value.Spreads (counts : PropertyKey → Prop) (holds inside : Value → Prop) : Prop where
  array : ∀ {items : List Value}, holds (.array items) ↔ ∀ item ∈ items, inside item
  object : ∀ {members : Members},
    holds (.object members) ↔ ∀ member ∈ members, counts member.1 → inside member.2
  /-- An absent member counts as undefined. -/
  undefined : inside .undefined

/-- What comes out has each of the two properties that what goes in has. -/
def Value.HandsOn (holds inside : Value → Prop) (value result : Value) : Prop :=
  (holds value → holds result) ∧ (inside value → inside result)

def Transformer.HandsOn (holds inside : Value → Prop) (function : Transformer) : Prop :=
  ∀ ⦃options expected⦄ ⦃value result : Value⦄,
    function.apply options expected value = .ok result → value.HandsOn holds inside result

namespace Transformer.HandsOn

theorem identity : Transformer.identity.HandsOn holds inside := by
  rintro options expected value result ⟨⟩
  exact ⟨id, id⟩

theorem total {apply : Value → Value}
    (each : ∀ value : Value, value.HandsOn holds inside (apply value)) :
    (Transformer.total apply).HandsOn holds inside := by
  rintro options expected value result ⟨⟩
  exact each value

theorem partialOn {apply : Value → Option Value}
    (each : ∀ {value result}, apply value = some result → holds result ∧ inside result) :
    (Transformer.partialOn apply).HandsOn holds inside := by
  intro options expected value result applied
  dsimp only [Transformer.partialOn, fallible] at applied
  split at applied
  case h_1 given found =>
    cases applied
    exact ⟨fun _ => (each found).1, fun _ => (each found).2⟩
  case h_2 => cases applied

end Transformer.HandsOn

namespace Kind

/-- What the kind itself does in a direction keeps the properties. -/
def HandsOn (holds inside : Value → Prop) (direction : Direction) : Kind Schema → Prop
  | .transform _ _ decode encode _ =>
    match direction with
    | .decode => decode.HandsOn holds inside
    | .encode => encode.HandsOn holds inside
  | .declaration _ decode encode => Hook.OnlyChecks decode ∧ Hook.OnlyChecks encode
  | _ => True

theorem HandsOn.parts {direction : Direction} {kind : Kind Schema}
    (here : kind.HandsOn holds inside direction) : kind.HandsOn inside inside direction := by
  cases kind with
  | transform source target decode encode strict =>
      cases direction <;> exact fun _ _ _ _ applied => ⟨(here applied).2, (here applied).2⟩
  | declaration parameters decode encode => exact here
  | _ => trivial

/-- No transformation is left on a side, so it keeps everything in either direction. -/
private theorem handsOn_projects (side : Side) (direction other : Direction) :
    Kind.Projects side (HandsOn holds inside direction) (HandsOn holds inside other) where
  leaf kind leaf _ := by cases kind <;> trivial
  tuple _ _ _ := trivial
  struct _ _ _ := trivial
  union _ _ _ := ⟨trivial, trivial⟩
  lazy _ _ _ := trivial
  refinement _ _ _ := trivial
  declaration _ _ _ here := here

end Kind

namespace Run

open Schema

variable {targets : Targets} {settings : Settings} {schema : Schema}
  {run : Settings → Schema → Value → Option Outcome}

/-- What the run gives has each of the two properties that what it is given has. -/
def HandsOn (holds inside : Value → Prop) (run : Value → Option Outcome) : Prop :=
  ∀ ⦃value result : Value⦄, run value = some (.ok result) → value.HandsOn holds inside result

theorem HandsOn.parts {run : Value → Option Outcome} (handsOn : HandsOn holds inside run) :
    HandsOn inside inside run :=
  fun _ _ ran => ⟨(handsOn ran).2, (handsOn ran).2⟩

/-! ### Composites -/

private theorem inside_of_itemsYield {run : Schema → Value → Option Outcome} {schemas : List Schema}
    {items results : List Value} (yields : ItemsYield run schemas items results)
    (each : ∀ schema ∈ schemas, HandsOn holds inside (run schema))
    (given : ∀ item ∈ items, inside item) : ∀ result ∈ results, inside result := by
  induction yields with
  | nil => nofun
  | cons ran _ ih =>
      rw [List.forall_mem_cons] at each given ⊢
      exact ⟨(each.1 ran).2 given.1, ih each.2 given.2⟩

/-- Members of the result stand under the keys of the members that they come from. -/
private theorem inside_of_structOutput {run : Schema → Value → Option Outcome} {exact : Bool}
    {fields : List (Field Schema)} {indexes : List (IndexSignature Schema)}
    {members declared indexed : Members} {excess : ExcessPolicy} (absent : inside .undefined)
    (fieldsYield : FieldsYield run exact members fields declared)
    (indexesYield : IndexesYield run fields members indexes indexed)
    (each : ∀ child ∈ (Kind.struct fields indexes).children, HandsOn holds inside (run child))
    (given : ∀ member ∈ members, counts member.1 → inside member.2) :
    ∀ entry ∈ structOutput excess members (declared ++ indexed), counts entry.1 → inside entry.2 := by
  intro entry inOutput counted
  rcases mem_of_mem_structOutput inOutput with made | preserved
  · rcases List.mem_append.mp made with inDeclared | inIndexed
    · obtain ⟨field, inFields, sameName, value, source, ran⟩ :=
        fieldsYield.exists_source inDeclared
      apply (each _ (field_mem_struct inFields) ran).2
      rcases source with found | rfl
      · exact given _ (Table.mem_of_find? found) (sameName ▸ counted)
      · exact absent
    · obtain ⟨index, inIndexes, member, about, yields⟩ := indexesYield.exists_member inIndexed
      apply (each _ (index_mem_struct inIndexes).2 yields.ran).2
      exact given member (mem_indexMembers.mp about).1 (yields.key ▸ counted)
  · exact given entry preserved counted

/-! ### One level -/

private theorem holds_of_transform {run : Schema → Value → Option Outcome} {near far : Schema}
    {function : Transformer} {expected : Expected} {strict : Bool}
    (onNear : HandsOn holds inside (run near)) (onFar : HandsOn holds inside (run far))
    (handsOn : function.HandsOn holds inside) {value result : Value}
    (made : ∃ between beyond, run near value = some (.ok between) ∧
      transformer settings function expected between = .ok beyond ∧
      if strict then run far beyond = some (.ok result) else result = beyond)
    (given : holds value) : holds result := by
  obtain ⟨between, beyond, nearRan, applied, after⟩ := made
  unfold transformer at applied
  split at applied
  case isTrue => cases applied
  case isFalse =>
    have there := (handsOn applied).1 ((onNear nearRan).1 given)
    split at after
    · exact (onFar after).1 there
    · exact after ▸ there

private theorem holds_of_step (spreads : Value.Spreads counts holds inside)
    (here : schema.kind.HandsOn holds inside settings.direction)
    (below : ∀ others part, Runs targets settings schema others part →
      others.direction = settings.direction ∨ part = schema.outputSide →
        HandsOn holds inside (run others part)) {value result : Value}
    (ran : step (fun cell => some (cell.resolve targets)) run settings schema value =
      some (.ok result)) (given : holds value) : holds result := by
  have children : ∀ child ∈ schema.kind.children, HandsOn holds inside (run settings child) :=
    fun child inKind => below settings child (.child inKind) (Or.inl rfl)
  cases kindAt : schema.kind with
  | tuple elements rest =>
      obtain ⟨items, rfl, _, _, results, yields, rfl⟩ := (step_tuple kindAt).mp ran
      rw [kindAt] at children
      apply spreads.array.mpr
      exact inside_of_itemsYield yields (fun schema inSlots => children schema (mem_slots inSlots))
        (spreads.array.mp given)
  | struct fields indexes =>
      by_cases parts : fields = [] ∧ indexes = []
      · obtain ⟨rfl, rfl⟩ := parts
        exact ((step_struct_empty kindAt).mp ran).2 ▸ given
      · obtain ⟨members, rfl, _, declared, indexed, fieldsYield, indexesYield, rfl⟩ :=
          (step_struct kindAt parts).mp ran
        rw [kindAt] at children
        apply spreads.object.mpr
        exact inside_of_structOutput spreads.undefined fieldsYield indexesYield children
          (spreads.object.mp given)
  | union members =>
      unfold step at ran
      rw [kindAt] at ran
      obtain ⟨member, inMembers, ranMember⟩ := exists_of_union_ok ran
      exact (below _ _ (.member kindAt inMembers) (Or.inl rfl) ranMember).1 given
  | lazy cell =>
      rw [step_lazy kindAt] at ran
      exact (below _ _ (.target kindAt) (Or.inl rfl) ran).1 given
  | refinement source filter =>
      cases directed : settings.direction with
      | decode =>
          have sourceRan := ((step_refinement_decode kindAt directed).mp ran).1
          exact (children source (refined_mem_children kindAt) sourceRan).1 given
      | encode =>
          obtain ⟨checked, decoded, encoded⟩ := (step_refinement_encode kindAt directed).mp ran
          have between := (below _ _ (.outputSide kindAt) (Or.inr rfl) decoded).1 given
          exact (below _ _ (.withoutRefinements kindAt) (Or.inl rfl) encoded).1 between
  | transform source target decode encode strict =>
      have onSource := children source (source_mem_children kindAt)
      have onTarget := children target (target_mem_children kindAt)
      rw [kindAt] at here
      cases directed : settings.direction with
      | decode =>
          rw [directed] at here
          exact holds_of_transform onSource onTarget here
            ((step_transform_decode kindAt directed).mp ran) given
      | encode =>
          rw [directed] at here
          exact holds_of_transform onTarget onSource here
            ((step_transform_encode kindAt directed).mp ran) given
  | declaration parameters decode encode =>
      rw [kindAt] at here
      exact eq_of_step_declaration kindAt here.1 here.2 ran ▸ given
  | _ =>
      have leaf := isLeaf_of_kind kindAt trivial
      exact ((step_leaf leaf).mp ran).2 ▸ given

/-! ### Whole runs -/

/-- A run keeps the properties that all transformations on its way keep. -/
theorem parse_handsOn (spreads : Value.Spreads counts holds inside)
    (parts : Value.Spreads counts inside inside) (depth : Nat)
    (each : schema.Throughout targets (·.kind.HandsOn holds inside settings.direction)) :
    HandsOn holds inside (parse targets depth settings schema) := by
  induction depth generalizing settings schema with
  | zero => nofun
  | succ depth ih =>
      have below : ∀ others part, Runs targets settings schema others part →
          others.direction = settings.direction ∨ part = schema.outputSide →
            HandsOn holds inside (parse targets depth others part) := by
        -- Encoding decodes only the output side of a refinement, where no transformation is left.
        rintro others part runs (same | rfl)
        · apply ih
          rw [same]
          exact runs.throughout (Kind.handsOn_projects .output _ _) trivial each
        · exact ih (each.sideOf_of_asked (Kind.handsOn_projects .output _ _)
            fun _ _ _ other checks asks => (asks.elim (checks.1.asks_nothing other)
              (checks.2.asks_nothing other)).elim)
      intro value result ran
      refine ⟨holds_of_step spreads each.here below ran, ?_⟩
      exact holds_of_step parts each.here.parts
        (fun others part runs which => (below others part runs which).parts) ran

end Run

end SchemaCodec
