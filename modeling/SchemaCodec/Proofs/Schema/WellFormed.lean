import SchemaCodec.Proofs.Schema.SideView
import SchemaCodec.Schema.Record

/-!
What the construction of structs checks: no two fields have one name, and the parameter of an index
signature can tell keys. The sides of a well-formed schema are well formed.
-/

namespace SchemaCodec

/-- The fields of a struct have distinct names, and its index signatures have parameters that can
tell keys. -/
def Kind.WellFormed : Kind Schema → Prop
  | .struct fields indexes =>
    (fields.map Field.name).Nodup ∧ ∀ index ∈ indexes, index.parameter.isParameter = true
  | _ => True

namespace Schema

/-! ### Construction -/

theorem nodup_of_not_repeated {seen keys : List PropertyKey}
    (unrepeated : firstRepeated? seen keys = none) :
    keys.Nodup ∧ ∀ key ∈ keys, key ∉ seen := by
  induction keys generalizing seen with
  | nil => exact ⟨List.nodup_nil, fun _ absent => by cases absent⟩
  | cons key rest ih =>
      rw [firstRepeated?] at unrepeated
      split at unrepeated
      · cases unrepeated
      · rename_i fresh
        obtain ⟨nodup, apart⟩ := ih unrepeated
        constructor
        · refine List.nodup_cons.mpr ⟨fun member => ?_, nodup⟩
          exact apart key member List.mem_cons_self
        · intro other member
          rcases List.mem_cons.mp member with rfl | later
          · simpa using fresh
          · exact fun known => apart other later (List.mem_cons_of_mem _ known)

theorem not_repeated_of_nodup {seen names : List PropertyKey} (distinct : names.Nodup)
    (unseen : ∀ name ∈ names, name ∉ seen) : firstRepeated? seen names = none := by
  induction names generalizing seen with
  | nil => rfl
  | cons name rest ih =>
      obtain ⟨apart, distinctRest⟩ := List.nodup_cons.mp distinct
      obtain ⟨here, later⟩ := List.forall_mem_cons.mp unseen
      have fresh : ¬seen.contains name = true := by simpa using here
      rw [firstRepeated?, if_neg fresh]
      refine ih distinctRest fun other inRest => ?_
      rw [List.mem_cons, not_or]
      exact ⟨fun same => apart (same ▸ inRest), later other inRest⟩

private theorem isParameter_of_mapM {indexes : List (Schema × Schema)}
    {checked : List (IndexSignature Schema)}
    (built : (indexes.mapM fun (parameter, schema) => indexSignature parameter schema) =
      .ok checked) :
    ∀ index ∈ checked, index.parameter.isParameter = true := by
  induction indexes generalizing checked with
  | nil =>
      cases built
      exact fun _ absent => by cases absent
  | cons entry rest ih =>
      obtain ⟨parameter, schema⟩ := entry
      rw [List.mapM_cons] at built
      by_cases tells : parameter.isParameter = true
      · simp only [indexSignature, if_pos tells] at built
        cases others : rest.mapM fun (parameter, schema) => indexSignature parameter schema with
        | error reason =>
            simp only [indexSignature] at others
            simp [others, bind, Except.bind] at built
        | ok checkedRest =>
            have restTells := ih others
            simp only [indexSignature] at others
            simp only [others, bind, Except.bind, pure, Except.pure, Except.ok.injEq] at built
            subst built
            intro index member
            rcases List.mem_cons.mp member with rfl | later
            · exact tells
            · exact restTells index later
      · simp [indexSignature, if_neg tells, bind, Except.bind] at built

/-- Every struct that can be constructed is well formed. -/
theorem wellFormed_of_struct {id : NodeId} {fields : List (Field Schema)}
    {indexes : List (Schema × Schema)} {schema : Schema}
    (built : Schema.struct id fields indexes = .ok schema) : schema.kind.WellFormed := by
  rw [Schema.struct] at built
  cases signatures : indexes.mapM fun (parameter, schema) => indexSignature parameter schema with
  | error reason => simp [signatures, bind, Except.bind] at built
  | ok checked =>
      simp only [signatures, bind, Except.bind, checkedStruct] at built
      split at built
      · cases built
      · rename_i unrepeated
        cases built
        exact ⟨(nodup_of_not_repeated unrepeated).1, isParameter_of_mapM signatures⟩

/-! ### Sides -/

private theorem isParameter_sideOf {schema : Schema} (side : Side)
    (parameter : schema.isParameter = true) : (schema.sideOf side).isParameter = true := by
  cases side with
  | output =>
      rw [sideOf_output_of_isParameter parameter]
      exact parameter
  | input =>
      have here := parameter
      revert here
      refine parameter_induction parameter (fun schema leaf here => ?_)
        (fun schema source filter isRefinement ih here => ?_)
      · rw [sideOf_leaf leaf]
        exact here
      · rw [inputSide_refinement isRefinement]
        obtain ⟨id, annotations, kind⟩ := schema
        cases isRefinement
        exact ih here

/-- What holds of all schemas that tell keys holds throughout each of them. -/
theorem throughout_of_isParameter {targets : Targets} {holds : Schema → Prop}
    (each : ∀ node : Schema, node.isParameter = true → holds node) {schema : Schema}
    (parameter : schema.isParameter = true) : schema.Throughout targets holds := by
  intro node reached
  apply each
  induction reached with
  | root => exact parameter
  | @child node child _ below ih =>
      obtain ⟨id, annotations, kind⟩ := node
      cases kind with
      | refinement source filter =>
          rw [List.mem_singleton.mp below]
          exact ih
      | keyword _ => cases below
      | template _ => cases below
      | _ => cases ih
  | @leads node other _ leads ih =>
      obtain ⟨id, annotations, kind⟩ := node
      cases kind with
      | lazy _ => cases ih
      | declaration _ _ _ => cases ih
      | _ => exact leads.elim

end Schema

theorem Kind.wellFormed_projects (side : Side) : Kind.Projects side WellFormed WellFormed where
  leaf _ _ here := here
  tuple _ _ _ := trivial
  struct fields indexes here := by
    obtain ⟨nodup, parameters⟩ := here
    constructor
    · rw [List.map_map]
      exact nodup
    · intro index member
      obtain ⟨original, inList, rfl⟩ := List.mem_map.mp member
      exact Schema.isParameter_sideOf side (parameters original inList)
  union _ _ _ := ⟨trivial, trivial⟩
  lazy _ _ _ := trivial
  refinement _ _ _ := trivial
  declaration _ _ _ _ := trivial

theorem Kind.Projects.and {side : Side} {first second : Kind Schema → Prop}
    (projects : Kind.Projects side first first) (projectsToo : Kind.Projects side second second) :
    Kind.Projects side (fun kind => first kind ∧ second kind)
      (fun kind => first kind ∧ second kind) where
  leaf kind isLeaf here :=
    ⟨projects.leaf kind isLeaf here.1, projectsToo.leaf kind isLeaf here.2⟩
  tuple elements rest here :=
    ⟨projects.tuple elements rest here.1, projectsToo.tuple elements rest here.2⟩
  struct fields indexes here :=
    ⟨projects.struct fields indexes here.1, projectsToo.struct fields indexes here.2⟩
  union members kept here :=
    ⟨⟨(projects.union members kept here.1).1, (projectsToo.union members kept here.2).1⟩,
      ⟨(projects.union members kept here.1).2, (projectsToo.union members kept here.2).2⟩⟩
  lazy cell id here := ⟨projects.lazy cell id here.1, projectsToo.lazy cell id here.2⟩
  refinement source filter here :=
    ⟨projects.refinement source filter here.1, projectsToo.refinement source filter here.2⟩
  declaration parameters decode encode here :=
    ⟨projects.declaration parameters decode encode here.1,
      projectsToo.declaration parameters decode encode here.2⟩

end SchemaCodec
