import Mathlib.Data.List.Nodup
import Mathlib.Data.List.Perm.Subperm
import Mathlib.Logic.Relation
import Mathlib.Order.WellFounded
import SchemaCodec.Document.Alias
import SchemaCodec.Proofs.Checked
import SchemaCodec.Proofs.Table

/-!
The search for aliases. A visit puts a name behind everything it refers to, so that no way along the
edges goes on for ever from a name that was visited. Paths do not repeat names, and therefore no visit
runs out of fuel.
-/

namespace SchemaCodec

/-- If every way along the steps comes to an end, none comes back. -/
theorem not_transGen_of_acc {step : String → String → Prop}
    (ending : ∀ name, Acc (fun target source => step source target) name) (name : String) :
    ¬Relation.TransGen step name name := by
  intro back
  have wellFounded := WellFounded.transGen ⟨ending⟩
  exact wellFounded.irrefl.irrefl name (Relation.transGen_swap.mpr back)

namespace AliasGraph

variable {graph : AliasGraph}

/-- Every way along the edges comes to an end. -/
def Ending (graph : AliasGraph) (name : String) : Prop :=
  Acc (fun target source => graph.Edge source target) name

/-- Names of the graph, each once. -/
structure IsPath (graph : AliasGraph) (path : List String) : Prop where
  inGraph : path ⊆ Table.keys graph
  nodup : path.Nodup

theorem isPath_nil : graph.IsPath [] :=
  ⟨List.nil_subset _, List.nodup_nil⟩

theorem IsPath.push {path : List String} {name : String} (isPath : graph.IsPath path)
    (fresh : name ∉ path) (known : name ∈ Table.keys graph) : graph.IsPath (path ++ [name]) := by
  constructor
  · intro other member
    rcases List.mem_append.mp member with before | last
    · exact isPath.inGraph before
    · rw [List.mem_singleton.mp last]
      exact known
  · refine List.nodup_append.mpr ⟨isPath.nodup, List.nodup_singleton _, ?_⟩
    rintro other inPath _ last rfl
    rw [List.mem_singleton.mp last] at inPath
    exact fresh inPath

private theorem IsPath.length_le {path : List String} (isPath : graph.IsPath path) :
    path.length ≤ graph.length := by
  have short := (isPath.nodup.subperm isPath.inGraph).length_le
  rwa [Table.keys, List.length_map] at short

theorem not_mem_of_closed? {path : List String} {name : String}
    (opened : closed? path name = none) : name ∉ path := by
  intro member
  unfold closed? at opened
  rw [if_pos (List.contains_iff_mem.mpr member)] at opened
  cases opened

/-! ### Visits -/

structure Extends (graph : AliasGraph) (done after : List String) : Prop where
  keeps : done ⊆ after
  ending : (∀ name ∈ done, graph.Ending name) → ∀ name ∈ after, graph.Ending name

theorem Extends.refl (done : List String) : graph.Extends done done :=
  ⟨fun _ member => member, fun ending => ending⟩

theorem Extends.trans {first second third : List String} (before : graph.Extends first second)
    (after : graph.Extends second third) : graph.Extends first third :=
  ⟨fun _ member => after.keeps (before.keeps member),
    fun ending => after.ending (before.ending ending)⟩

def Covers (graph : AliasGraph) (done : List String) (name : String) (after : List String) : Prop :=
  graph.Extends done after ∧ (Table.has name graph = true → name ∈ after)

private theorem covers_foldlM {visit : List String → String → Except (List String) (List String)}
    {names : List String} (each : ∀ name ∈ names, ∀ done after, visit done name = .ok after →
      graph.Covers done name after) {done after : List String}
    (folded : names.foldlM visit done = .ok after) :
    graph.Extends done after ∧ ∀ name ∈ names, Table.has name graph = true → name ∈ after := by
  induction names generalizing done with
  | nil =>
      cases folded
      exact ⟨.refl _, nofun⟩
  | cons name rest ih =>
      rw [List.foldlM_cons] at folded
      obtain ⟨between, visited, later⟩ := exists_ok_of_bind folded
      have first := each name List.mem_cons_self done between visited
      have others := ih (fun other inRest => each other (List.mem_cons_of_mem _ inRest)) later
      constructor
      · exact first.1.trans others.1
      · intro other member known
        rcases List.mem_cons.mp member with rfl | inRest
        · exact others.1.keeps (first.2 known)
        · exact others.2 other inRest known

/-- A name whose definitions are all done is done after them. -/
private theorem extends_cons {name : String} {targets done after : List String}
    (found : Table.find? name graph = some targets) (extended : graph.Extends done after)
    (covered : ∀ target ∈ targets, Table.has target graph = true → target ∈ after) :
    graph.Extends done (name :: after) := by
  constructor
  · intro other member
    exact List.mem_cons_of_mem _ (extended.keeps member)
  · intro ending other member
    have before := extended.ending ending
    rcases List.mem_cons.mp member with rfl | inAfter
    · constructor
      rintro target ⟨edges, foundToo, isTarget, known⟩
      rw [found] at foundToo
      cases foundToo
      exact before target (covered target isTarget known)
    · exact before other inAfter

private theorem covers_visit {fuel : Nat} {path done after : List String} {name : String}
    (isPath : graph.IsPath path) (enough : graph.length < path.length + fuel)
    (visited : graph.visit fuel path done name = .ok after) : graph.Covers done name after := by
  induction fuel generalizing path done after name with
  | zero =>
      have short := isPath.length_le
      omega
  | succ fuel ih =>
      rw [visit] at visited
      split at visited
      · rename_i isDone
        cases visited
        exact ⟨.refl done, fun _ => List.contains_iff_mem.mp isDone⟩
      · split at visited
        · cases visited
        · rename_i opened
          split at visited
          · rename_i unknown
            cases visited
            refine ⟨.refl done, fun known => ?_⟩
            rw [Table.has, unknown] at known
            cases known
          · rename_i targets found
            have known := Table.mem_keys (Table.mem_of_find? found)
            have longer := isPath.push (not_mem_of_closed? opened) known
            have stillEnough : graph.length < (path ++ [name]).length + fuel := by
              rw [List.length_append, List.length_singleton]
              omega
            obtain ⟨between, folded, made⟩ := exists_ok_of_bind visited
            cases made
            have below := covers_foldlM (fun target _ done after => ih longer stillEnough) folded
            exact ⟨extends_cons found below.1 below.2, fun _ => List.mem_cons_self⟩

/-- If the search finds no cycle, no way along the edges goes on for ever. -/
theorem ending_of_cycle? (noCycle : graph.cycle? = none) (name : String) : graph.Ending name := by
  unfold cycle? at noCycle
  cases visited : graph.visitAll with
  | error cycle =>
      rw [visited] at noCycle
      cases noCycle
  | ok after =>
      have enough : graph.length < ([] : List String).length + (graph.length + 1) := by
        rw [List.length_nil]
        omega
      have all := covers_foldlM (fun name _ done after => covers_visit isPath_nil enough) visited
      by_cases known : Table.has name graph = true
      · have inGraph := Table.has_eq_true_iff.mp known
        exact all.1.ending nofun name (all.2 name inGraph known)
      · constructor
        rintro target ⟨targets, found, _⟩
        rw [Table.has, found] at known
        exact absurd rfl known

end AliasGraph

end SchemaCodec
