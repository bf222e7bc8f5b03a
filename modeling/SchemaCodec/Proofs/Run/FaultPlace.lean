import SchemaCodec.Proofs.Run.FaultOrigin
import SchemaCodec.Proofs.Run.Layout
import SchemaCodec.Proofs.Schema.Tree
import SchemaCodec.Proofs.Value.Parts

/-!
The places that faults tell. Where a run meets only the shape of a value, the steps above a leaf of
its faults lead to the part of the input that the leaf is about: the part that does not fit or is
not expected, or the array or object that lacks a part.
-/

namespace SchemaCodec

/-! ### Places of leaves -/

namespace Fault

/-- What a leaf says of its place is so. A value that does not fit is the part at the place, or the
key that the place is under; a value that is not expected is the part at the place; what is missing
is lacking in the part above; and nothing is forbidden. -/
def PointsAt (input : Value) (path : List PathStep) : Fault → Prop
  | .type _ actual _ =>
    Value.part? path input = some actual ∨
      ∃ above name, path = above ++ [.key name] ∧ actual = name.toValue ∧
        ∃ member, Value.part? path input = some member
  | .unexpected actual => path ≠ [] ∧ Value.part? path input = some actual
  | .missing =>
    ∃ above step, path = above ++ [step] ∧
      ∃ whole, Value.part? above input = some whole ∧ whole.Lacks step
  | .forbidden => False
  | _ => False

/-- A leaf that points at a place in a part points at it in the whole. -/
theorem PointsAt.under {leaf : Fault} {whole part : Value} {step : PathStep} {path : List PathStep}
    (below : whole.child? step = some part) (points : leaf.PointsAt part path) :
    leaf.PointsAt whole (step :: path) := by
  have shifted := Value.part?_cons below
  cases leaf with
  | type expected actual message =>
      rcases points with here | ⟨above, name, rfl, isKey, member, present⟩
      · exact Or.inl ((shifted path).trans here)
      · exact Or.inr ⟨step :: above, name, rfl, isKey, member, (shifted _).trans present⟩
  | unexpected actual => exact ⟨List.cons_ne_nil _ _, (shifted path).trans points.2⟩
  | missing =>
      obtain ⟨above, last, rfl, lacking, found, lacks⟩ := points
      exact ⟨step :: above, last, rfl, lacking, (shifted above).trans found, lacks⟩
  | _ => exact points.elim

/-- What a leaf can say of a key that is no part of anything: that it does not fit. -/
private theorem PointsAt.of_key {leaf : Fault} {name : PropertyKey} {path : List PathStep}
    (points : leaf.PointsAt name.toValue path) :
    path = [] ∧ ∃ expected message, leaf = .type expected name.toValue message := by
  cases leaf with
  | type expected actual message =>
      rcases points with here | ⟨above, _, rfl, _, member, present⟩
      · obtain ⟨rfl, rfl⟩ := Value.part?_key here
        exact ⟨rfl, expected, message, rfl⟩
      · have none := (Value.part?_key present).1
        exact absurd none (List.append_ne_nil_of_right_ne_nil _ (List.cons_ne_nil _ _))
  | unexpected actual => exact absurd (Value.part?_key points.2).1 points.1
  | missing =>
      obtain ⟨above, step, _, whole, found, lacks⟩ := points
      obtain ⟨_, rfl⟩ := Value.part?_key found
      cases name <;> exact lacks.elim
  | _ => exact points.elim

def Locates (input : Value) (fault : Fault) : Prop :=
  ∀ path leaf, fault.Leaf path leaf → leaf.PointsAt input path

end Fault

namespace Faults

def Locate (input : Value) (faults : Faults) : Prop :=
  ∀ fault ∈ faults.toList, fault.Locates input

end Faults

namespace Fault.Locates

variable {input : Value} {items : List Value} {members : Members} {position : Nat}
  {key : PropertyKey} {faults : Faults} {leaf : Fault}

theorem of_leaf (single : leaf.isWrapper = false) (points : leaf.PointsAt input []) :
    leaf.Locates input := by
  intro path other found
  cases found with
  | here _ => exact points
  | _ => cases single

theorem mismatch (expected : Expected) (input : Value) :
    (Fault.mismatch expected input).Locates input :=
  of_leaf rfl (Or.inl rfl)

private theorem at_index {part : Value} (atPosition : items[position]? = some part)
    (locate : faults.Locate part) : (Fault.index position faults).Locates (.array items) := by
  intro path leaf found
  cases found with
  | here single => cases single
  | index among inner =>
      have below : (Value.array items).child? (.index position) = some part := atPosition
      exact (locate _ among _ _ inner).under below

private theorem at_key {part : Value} (present : Table.find? key members = some part)
    (locate : faults.Locate part) : (Fault.key key faults).Locates (.object members) := by
  intro path leaf found
  cases found with
  | here single => cases single
  | key among inner =>
      have below : (Value.object members).child? (.key key) = some part := present
      exact (locate _ among _ _ inner).under below

/-- A key that is rejected stands under itself. -/
theorem rejected {part : Value} (present : Table.find? key members = some part)
    (locate : faults.Locate key.toValue) : (Fault.key key faults).Locates (.object members) := by
  intro path leaf found
  cases found with
  | here single => cases single
  | key among inner =>
      obtain ⟨rfl, expected, message, rfl⟩ := (locate _ among _ _ inner).of_key
      exact Or.inr ⟨[], key, rfl, rfl, part, Value.part?_member present⟩

theorem unionMember (locate : faults.Locate input) : (Fault.unionMember faults).Locates input := by
  intro path leaf found
  cases found with
  | here single => cases single
  | unionMember among inner => exact locate _ among _ _ inner

private theorem leaf_at_index (single : leaf.isWrapper = false)
    (points : leaf.PointsAt input [.index position]) :
    (Fault.index position (.single leaf)).Locates input := by
  intro path other found
  cases found with
  | here single => cases single
  | index among inner =>
      rw [List.mem_singleton.mp among] at inner
      cases inner with
      | here _ => exact points
      | _ => cases single

private theorem leaf_at_key (single : leaf.isWrapper = false)
    (points : leaf.PointsAt input [.key key]) :
    (Fault.key key (.single leaf)).Locates input := by
  intro path other found
  cases found with
  | here single => cases single
  | key among inner =>
      rw [List.mem_singleton.mp among] at inner
      cases inner with
      | here _ => exact points
      | _ => cases single

end Fault.Locates

namespace Run

/-! ### One level -/

section Level

variable {run : Schema → Value → Option Outcome} {fault : Fault}

private abbrev Placed (run : Schema → Value → Option Outcome) (schema : Schema) (input : Value) :
    Prop :=
  ∀ faults, run schema input = some (.error faults) → faults.Locate input

private theorem locates_tuple {elements : List (Element Schema)} {rest : List Schema}
    {items : List Value}
    (each : ∀ schema ∈ slots elements rest items.length, ∀ item ∈ items, Placed run schema item)
    (reported : TupleFault run elements rest items fault) : fault.Locates (.array items) := by
  cases reported with
  | missing absent _ => exact .leaf_at_index rfl ⟨[], _, rfl, _, rfl, absent⟩
  | unexpected _ _ atPosition =>
      exact .leaf_at_index rfl ⟨List.cons_ne_nil _ _, Value.part?_item atPosition⟩
  | item inSlots atPosition ran =>
      have placed := each _ (List.mem_of_getElem? inSlots) _ (List.mem_of_getElem? atPosition)
      exact .at_index atPosition (placed _ ran)

private theorem locates_struct {decodeKey : Schema → Value → Option Outcome} {options : Options}
    {fields : List (Field Schema)} {indexes : List (IndexSignature Schema)} {members : Members}
    (proper : (Value.object members).Proper)
    (declared : ∀ field ∈ fields, ∀ member ∈ members, Placed run field.schema member.2)
    (indexed : ∀ index ∈ indexes, ∀ member ∈ members,
      Placed run index.parameter member.1.toValue ∧ Placed run index.schema member.2)
    (reported : StructFault run decodeKey options fields indexes members fault) :
    fault.Locates (.object members) := by
  cases reported with
  | unexpected _ inMembers _ _ =>
      have found := proper.find?_of_mem inMembers
      exact .leaf_at_key rfl ⟨List.cons_ne_nil _ _, Value.part?_member found⟩
  | missing _ absent _ _ =>
      exact .leaf_at_key rfl ⟨[], _, rfl, _, rfl, Table.find?_eq_none_iff.mp absent⟩
  | field inFields present ran =>
      exact .at_key present (declared _ inFields _ (Table.mem_of_find? present) _ ran)
  | parameter inIndexes about ran =>
      have inMembers := (mem_indexMembers.mp about).1
      have placed := (indexed _ inIndexes _ inMembers).1
      exact .rejected (proper.find?_of_mem inMembers) (placed _ ran)
  | index inIndexes about ran =>
      have inMembers := (mem_indexMembers.mp about).1
      have placed := (indexed _ inIndexes _ inMembers).2
      exact .at_key (proper.find?_of_mem inMembers) (placed _ ran)

private theorem locates_union {members : List Schema} {input : Value}
    (each : ∀ member ∈ members, Placed run member input)
    (reported : UnionFault run members input fault) : fault.Locates input := by
  cases reported with
  | tagMissing isObject absent =>
      rw [isObject]
      exact .leaf_at_key rfl ⟨[], _, rfl, _, rfl, Table.find?_eq_none_iff.mp absent⟩
  | tagUnknown expected isObject present =>
      rw [isObject]
      exact .leaf_at_key rfl (Or.inl (Value.part?_member present))
  | mismatch expected => exact .mismatch expected input
  | member inMembers ran => exact .unionMember (each _ inMembers _ ran)

private theorem locate_mismatch (expected : Expected) (input : Value) :
    (Faults.single (.mismatch expected input)).Locate input := by
  intro fault among
  rw [List.mem_singleton.mp among]
  exact .mismatch expected input

/-- A value that a check refuses is the one that was given. -/
private theorem locate_of_check {accepted : Bool} {schema : Schema} {input : Value}
    {faults : Faults}
    (failed : (pure (check accepted schema input) : Option Outcome) = some (.error faults)) :
    faults.Locate input := by
  unfold check at failed
  cases accepted with
  | true => cases failed
  | false =>
      cases failed
      exact locate_mismatch _ _

end Level

private theorem locate_of_step {targets : Targets}
    {run : Settings → Schema → Value → Option Outcome}
    {settings : Settings} {schema : Schema} {input : Value} (shape : schema.kind.IsShape)
    (proper : input.Proper)
    (children : ∀ settings, ∀ child ∈ schema.kind.children, ∀ part : Value, part.Proper →
      Placed (run settings) child part)
    (target : ∀ cell, schema.kind = .lazy cell →
      Placed (run settings) (cell.resolve targets) input) :
    Placed (step (fun cell => some (cell.resolve targets)) run settings) schema input := by
  intro faults failed
  cases kindAt : schema.kind with
  | tuple elements rest =>
      rw [kindAt] at children
      cases input with
      | array items =>
          rw [step_array kindAt] at failed
          intro fault among
          refine locates_tuple (fun child inSlots item inItems => ?_) (fault_of_tuple failed among)
          exact children settings child (mem_slots inSlots) item (proper.item inItems)
      | _ =>
          unfold step at failed
          rw [kindAt] at failed
          cases failed
          exact locate_mismatch _ _
  | struct fields indexes =>
      rw [kindAt] at children
      by_cases parts : fields = [] ∧ indexes = []
      · obtain ⟨rfl, rfl⟩ := parts
        unfold step at failed
        rw [kindAt] at failed
        exact locate_of_check failed
      · cases input with
        | object members =>
            rw [step_object kindAt parts] at failed
            intro fault among
            refine locates_struct proper (fun field inFields member inMembers => ?_)
              (fun index inIndexes member inMembers => ⟨?_, ?_⟩) (fault_of_struct failed among)
            · exact children settings _ (Schema.field_mem_struct inFields) _ (proper.member inMembers)
            · exact children settings _ (Schema.index_mem_struct inIndexes).1 _ (.key member.1)
            · exact children settings _ (Schema.index_mem_struct inIndexes).2 _
                (proper.member inMembers)
        | _ =>
            have notEmpty : ¬((fields.isEmpty && indexes.isEmpty) = true) := by
              simpa [List.isEmpty_iff] using parts
            unfold step at failed
            rw [kindAt] at failed
            simp only [if_neg notEmpty] at failed
            cases failed
            exact locate_mismatch _ _
  | union members =>
      rw [kindAt] at children
      unfold step at failed
      rw [kindAt] at failed
      intro fault among
      refine locates_union (fun member inMembers => ?_) (fault_of_union failed among)
      exact children settings.failingFast member inMembers input proper
  | lazy cell =>
      rw [step_lazy kindAt] at failed
      exact target cell kindAt faults failed
  | refinement source filter =>
      rw [kindAt] at shape
      exact shape.elim
  | transform source target decode encode strict =>
      rw [kindAt] at shape
      exact shape.elim
  | declaration parameters decode encode =>
      rw [kindAt] at shape
      exact shape.elim
  | _ =>
      unfold step at failed
      rw [kindAt] at failed
      exact locate_of_check failed

/-! ### Whole runs -/

variable {targets : Targets}

private theorem parse_locates {schema : Schema}
    (shapes : schema.Throughout targets fun node => node.kind.IsShape) (depth : Nat)
    (settings : Settings) {input : Value} (proper : input.Proper) :
    Placed (parse targets depth settings) schema input := by
  induction depth generalizing schema settings input with
  | zero => exact nofun
  | succ depth ih =>
      rw [Placed, parse_succ]
      apply locate_of_step shapes.here proper
      · exact fun settings child below part proper => ih (shapes.child below) settings proper
      · exact fun cell isLazy => ih (shapes.enter isLazy) settings proper

/-- Each leaf of the faults of a failed run points at a real place of the input. -/
theorem leaf_pointsAt {schema : Schema}
    (shapes : schema.Throughout targets fun node => node.kind.IsShape) {settings : Settings}
    {input : Value} (proper : input.Proper) {faults : Faults}
    (failed : Yields targets settings schema input (.error faults)) {path : List PathStep}
    {leaf : Fault} (reported : faults.Leaf path leaf) : leaf.PointsAt input path := by
  obtain ⟨depth, ran⟩ := failed
  obtain ⟨fault, among, found⟩ := reported
  exact parse_locates shapes depth settings proper faults ran fault among path leaf found

def shelf : Schema :=
  let sizes := .plain (.made 1) (.tuple [] [.number])
  .plain (.made 2) (.struct [⟨.string "label", .string, false⟩, ⟨.string "sizes", sizes, false⟩] [])

private theorem shelf_shapes : shelf.Throughout (fun _ => shelf) fun node => node.kind.IsShape := by
  refine .of_closed [shelf, .string, .plain (.made 1) (.tuple [] [.number]), .number] ?_ ?_
    List.mem_cons_self
  · change [Schema.string, .plain (.made 1) (.tuple [] [.number]), .number] ⊆ _
    simp
  · simp only [List.forall_mem_cons]
    exact ⟨⟨nofun, trivial⟩, ⟨nofun, trivial⟩, ⟨nofun, trivial⟩, ⟨nofun, trivial⟩, nofun⟩

def spoiledShelf : Value :=
  .object [(.string "sizes", .array [.string "x"]), (.string "dust", .null)]

private theorem spoiledShelf_proper : spoiledShelf.Proper := by
  refine .object (by decide) (List.forall_mem_cons.mpr ⟨?_, List.forall_mem_singleton.mpr ?_⟩)
  · exact .array (List.forall_mem_singleton.mpr (.scalar rfl rfl))
  · exact .scalar rfl rfl

/-- The three things that are wrong with the shelf are told at their places. -/
theorem spoiledShelf_places :
    (Fault.unexpected .null).PointsAt spoiledShelf [.key (.string "dust")] ∧
    Fault.missing.PointsAt spoiledShelf [.key (.string "label")] ∧
    (Fault.mismatch Schema.number.expected (.string "x")).PointsAt spoiledShelf
      [.key (.string "sizes"), .index 0] := by
  have failed : Yields (fun _ => shelf) ⟨.sync, ⟨.all, .error, false⟩, .decode⟩ shelf spoiledShelf
      (.error (.ofCons (.key (.string "dust") (.single (.unexpected .null)))
        [.key (.string "label") (.single .missing), .key (.string "sizes") (.single (.index 0
          (.single (.mismatch Schema.number.expected (.string "x")))))])) := ⟨4, rfl⟩
  have points := @leaf_pointsAt _ shelf shelf_shapes _ _ spoiledShelf_proper _ failed
  refine ⟨points ⟨_, List.mem_cons_self, ?_⟩,
    points ⟨_, List.mem_cons_of_mem _ List.mem_cons_self, ?_⟩,
    points ⟨_, List.mem_cons_of_mem _ (List.mem_cons_of_mem _ List.mem_cons_self), ?_⟩⟩
  · exact .key List.mem_cons_self (.here rfl)
  · exact .key List.mem_cons_self (.here rfl)
  · exact .key List.mem_cons_self (.index List.mem_cons_self (.here rfl))

end Run

end SchemaCodec
