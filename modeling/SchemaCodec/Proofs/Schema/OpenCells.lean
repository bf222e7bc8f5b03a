import SchemaCodec.Proofs.Run.Termination

/-!
The lazy nodes that a schema comes to while it stays with one value: through the members of unions,
the schemas below refinements, and both ends of transformations. Tuples, structs and declarations are
not entered.
-/

namespace SchemaCodec.Schema

mutual

/-- What stands in the lazy nodes that the schema comes to without entering a composite. -/
def openCells : Schema → List LazyCell
  | .node _ _ (.union members) => openCellsAll members
  | .node _ _ (.lazy cell) => [cell]
  | .node _ _ (.refinement source _) => source.openCells
  | .node _ _ (.transform source target _ _ _) => source.openCells ++ target.openCells
  | _ => []

def openCellsAll : List Schema → List LazyCell
  | [] => []
  | schema :: rest => schema.openCells ++ openCellsAll rest

end

variable {schema : Schema} {cell : LazyCell}

private theorem mem_openCellsAll {schemas : List Schema} :
    cell ∈ openCellsAll schemas ↔ ∃ schema ∈ schemas, cell ∈ schema.openCells := by
  induction schemas with
  | nil => simp [openCellsAll]
  | cons schema rest ih => simp [openCellsAll, ih]

theorem openCells_of_kind {other : Schema} (same : schema.kind = other.kind) :
    schema.openCells = other.openCells := by
  obtain ⟨id, annotations, kind⟩ := schema
  obtain ⟨otherId, otherAnnotations, otherKind⟩ := other
  cases same
  cases kind <;> simp only [openCells]

theorem openCells_leaf (leaf : schema.kind.IsLeaf) : schema.openCells = [] := by
  obtain ⟨id, annotations, kind⟩ := schema
  cases kind <;> first | rfl | exact leaf.elim

/-- A union comes to what its members come to. -/
private theorem mem_openCells_of_flattened {node : Schema} (member : node ∈ schema.flattened)
    (inNode : cell ∈ node.openCells) : cell ∈ schema.openCells := by
  induction schema using childInduction with
  | node schema ih =>
      by_cases plain : schema.IsPlainUnion
      · obtain ⟨bare, members, isUnion⟩ := plain
        rw [flattened_of_union isUnion bare] at member
        obtain ⟨inner, innerMember, inFlattened⟩ := mem_flattenedAll.mp member
        have inInner := ih inner (member_mem_children isUnion innerMember) inFlattened
        obtain ⟨id, annotations, kind⟩ := schema
        cases isUnion
        exact mem_openCellsAll.mpr ⟨inner, innerMember, inInner⟩
      · rw [flattened_of_not_plain plain] at member
        rwa [← List.mem_singleton.mp member]

theorem exists_of_mem_openCells_union {id : NodeId} {schemas : List Schema}
    (member : cell ∈ (union id schemas).openCells) :
    ∃ schema ∈ schemas, cell ∈ schema.openCells := by
  have ofKept : ∀ kept ∈ unionMembers schemas, cell ∈ kept.openCells →
      ∃ schema ∈ schemas, cell ∈ schema.openCells := by
    intro kept inMembers inKept
    obtain ⟨schema, inSchemas, inFlattened⟩ :=
      mem_flattenedAll.mp (mem_of_mem_unionMembers inMembers).1
    exact ⟨schema, inSchemas, mem_openCells_of_flattened inFlattened inKept⟩
  rcases union_cases id schemas with ⟨_, isNever⟩ | ⟨single, only, isSingle⟩ | isUnion
  · rw [isNever] at member
    cases member
  · rw [isSingle] at member
    refine ofKept single ?_ member
    rw [only]
    exact List.mem_singleton.mpr rfl
  · rw [isUnion] at member
    obtain ⟨kept, inMembers, inKept⟩ := mem_openCellsAll.mp member
    exact ofKept kept inMembers inKept

theorem exists_lazy_of_mem_openCells {holds : Schema → Prop} (all : schema.All holds)
    (member : cell ∈ schema.openCells) : ∃ node, holds node ∧ node.kind = .lazy cell := by
  induction schema using childInduction with
  | node schema ih =>
      obtain ⟨id, annotations, kind⟩ := schema
      cases kind with
      | union members =>
          obtain ⟨inner, innerMember, inInner⟩ := mem_openCellsAll.mp member
          exact ih inner innerMember (all.child innerMember) inInner
      | lazy inner => exact ⟨_, all.here, congrArg Kind.lazy (List.mem_singleton.mp member).symm⟩
      | refinement source filter =>
          exact ih source List.mem_cons_self (all.child List.mem_cons_self) member
      | transform source target decode encode strict =>
          have isTarget : target ∈ [source, target] := List.mem_cons_of_mem _ List.mem_cons_self
          rcases List.mem_append.mp member with inSource | inTarget
          · exact ih source List.mem_cons_self (all.child List.mem_cons_self) inSource
          · exact ih target isTarget (all.child isTarget) inTarget
      | _ => cases member

/-- If every way ends behind the lazy nodes that a schema comes to, every way through the schema
ends. -/
theorem guarded_of_openCells {targets : Targets} {side : Side}
    (each : ∀ cell ∈ schema.openCells, (cell.resolve targets).Guarded targets side) :
    schema.Guarded targets side := by
  induction schema using childInduction with
  | node schema ih =>
      obtain ⟨id, annotations, kind⟩ := schema
      constructor
      intro part inPlace
      cases kind with
      | union members =>
          exact ih part inPlace fun cell inPart =>
            each cell (mem_openCellsAll.mpr ⟨part, inPlace, inPart⟩)
      | lazy cell =>
          rw [List.mem_singleton.mp inPlace]
          exact each cell (List.mem_singleton.mpr rfl)
      | refinement source filter => exact ih part inPlace (List.mem_singleton.mp inPlace ▸ each)
      | transform source target decode encode strict =>
          cases side with
          | input =>
              rw [List.mem_singleton.mp inPlace]
              exact ih source List.mem_cons_self fun cell inSource =>
                each cell (List.mem_append_left _ inSource)
          | output =>
              rw [List.mem_singleton.mp inPlace]
              exact ih target (List.mem_cons_of_mem _ List.mem_cons_self) fun cell inTarget =>
                each cell (List.mem_append_right _ inTarget)
      | _ => cases inPlace

end SchemaCodec.Schema
