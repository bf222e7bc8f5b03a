import SchemaCodec.Proofs.Run.UnionSearch

/-!
Runs without an end. A lazy node that stands for itself is entered again and again, and a level that
has to run such a part first has no outcome either, whatever its other parts would say. Laws about
what succeeds where something else succeeds stop at such runs; the schemas here show it.
-/

namespace SchemaCodec.Run

open Schema

variable {targets : Targets} {settings : Settings} {schema : Schema} {input value : Value}

private theorem outcome?_eq_none (endless : ¬Ends targets settings schema input) :
    outcome? targets settings schema input = none :=
  Option.eq_none_iff_forall_ne_some.mpr fun _ found => endless ⟨_, outcome?_eq_some.mp found⟩

private theorem not_ends_of_step
    (endless : step (fun cell => some (cell.resolve targets)) (outcome? targets) settings schema input =
      none) : ¬Ends targets settings schema input := by
  rintro ⟨outcome, yields⟩
  rw [yields_iff_step, endless] at yields
  cases yields

private theorem not_ends_of_circle {cell : LazyCell} (isLazy : schema.kind = .lazy cell)
    (circle : cell.resolve targets = schema) : ¬Ends targets settings schema input := by
  rintro ⟨outcome, depth, found⟩
  induction depth with
  | zero => cases found
  | succ depth ih =>
      rw [parse_succ, step_lazy isLazy, circle] at found
      exact ih found

/-! ### What runs such a part first -/

theorem not_ends_of_field (front : List (Field Schema)) {back : List (Field Schema)}
    {field : Field Schema} {indexes : List (IndexSignature Schema)} {members : Members}
    (isStruct : schema.kind = .struct (front ++ field :: back) indexes)
    (anyKeys : settings.options.excess ≠ .error)
    (skipped : ∀ earlier ∈ front, earlier.optional = true ∧
      Table.find? earlier.name members = none)
    (reads : Table.find? field.name members = some value ∨
      Table.find? field.name members = none ∧ field.optional = false ∧
        settings.options.exact = false ∧ value = .undefined)
    (endless : ¬Ends targets settings field.schema value) :
    ¬Ends targets settings schema (.object members) := by
  apply not_ends_of_step
  have none : outcome? targets settings field.schema value = none := outcome?_eq_none endless
  have nothing : front.filterMap
      (fieldStep? (outcome? targets settings) settings.options.exact members) = [] := by
    apply List.filterMap_eq_nil_iff.mpr
    intro earlier inFront
    obtain ⟨optional, absent⟩ := skipped earlier inFront
    simp only [fieldStep?, absent, optional, if_true]
  have first : fieldStep? (outcome? targets settings) settings.options.exact members field =
      some .none := by
    rcases reads with present | ⟨absent, required, lenient, rfl⟩
    · simp only [fieldStep?, present, none]
      rfl
    · simp only [fieldStep?, absent, required, lenient, none]
      rfl
  have parts : ¬(front ++ field :: back = [] ∧ indexes = []) := by simp
  rw [step_object isStruct parts]
  unfold struct
  rw [if_neg anyKeys, List.filterMap_append, nothing, List.filterMap_cons, first]
  rfl

/-- A required field that is absent is run on the undefined value. -/
theorem not_ends_of_absent_field {back : List (Field Schema)} {field : Field Schema}
    {indexes : List (IndexSignature Schema)} {members : Members}
    (isStruct : schema.kind = .struct (field :: back) indexes)
    (anyKeys : settings.options.excess ≠ .error)
    (absent : Table.find? field.name members = none) (required : field.optional = false)
    (lenient : settings.options.exact = false)
    (endless : ¬Ends targets settings field.schema .undefined) :
    ¬Ends targets settings schema (.object members) :=
  not_ends_of_field [] isStruct anyKeys (List.forall_mem_nil _)
    (.inr ⟨absent, required, lenient, rfl⟩) endless

theorem not_ends_of_index {index : IndexSignature Schema} {indexes : List (IndexSignature Schema)}
    {members rest : Members} {member : PropertyKey × Value}
    (isStruct : schema.kind = .struct [] (index :: indexes))
    (anyKeys : settings.options.excess ≠ .error)
    (about : indexMembers [] index members = member :: rest)
    (taken : Yields targets settings index.parameter member.1.toValue (.ok value))
    (endless : ¬Ends targets settings index.schema member.2) :
    ¬Ends targets settings schema (.object members) := by
  apply not_ends_of_step
  have key : outcome? targets settings index.parameter member.1.toValue = some (.ok value) :=
    outcome?_eq_some.mpr taken
  have first : indexStep (outcome? targets settings) index member = none := by
    unfold indexStep
    rw [key, outcome?_eq_none endless]
    rfl
  have parts : ¬(([] : List (Field Schema)) = [] ∧ index :: indexes = []) := by simp
  rw [step_object isStruct parts]
  unfold struct
  rw [if_neg anyKeys, List.flatMap_cons, about, List.map_cons, first]
  rfl

/-- The member that a union tries first decides whether it ends. -/
theorem not_ends_of_member {members rest : List Schema} {member : Schema}
    (isUnion : schema.kind = .union members)
    (first : ((candidates (TagIndex.ofMembers settings.direction members) input).2.filterMap
      fun position => members[position]?) = member :: rest)
    (endless : ¬Ends targets settings.failingFast member input) :
    ¬Ends targets settings schema input := by
  apply not_ends_of_step
  unfold step
  rw [isUnion]
  unfold union
  simp only [first, firstOf, outcome?_eq_none endless]
  rfl

/-! ### A circle -/

/-- A lazy node that stands for itself. -/
def circular : Schema := .plain (.made 1) (.lazy (.reference ⟨.made 1, 0, "circular"⟩))

theorem circular_endless : ¬Ends (fun _ => circular) settings circular input :=
  not_ends_of_circle rfl rfl

/-- The sides of such a node stand for themselves as well. -/
theorem side_of_circular_endless {side : Side} :
    ¬Ends (fun _ => circular) settings (circular.sideOf side) input :=
  not_ends_of_circle (kind_sideOf_lazy rfl) rfl

def linked : Schema := .plain (.made 2) (.struct [⟨.string "link", circular, false⟩] [])

def mark : Schema := .plain (.made 3) (.literal (.string "t"))

def marked : Schema := .plain (.made 4) (.struct [⟨.string "mark", mark, false⟩] [])

def linkedOrMarked : Schema := .plain (.made 5) (.union [linked, marked])

theorem circular_throughout {holds : Schema → Prop} {root : Schema} (nodes : List Schema)
    (children : nodes.flatMap (·.kind.children) ⊆ nodes) (inNodes : circular ∈ nodes)
    (each : ∀ node ∈ nodes,
      (∀ other, node.kind.LeadsTo (fun _ => circular) other → other = circular) ∧ holds node)
    (member : root ∈ nodes) : root.Throughout (fun _ => circular) holds := by
  refine .of_targets nodes children (fun node among => ?_) member
  obtain ⟨leads, here⟩ := each node among
  exact ⟨fun other leadsTo => leads other leadsTo ▸ inNodes, here⟩

def linkedOrMarkedNodes : List Schema :=
  [linkedOrMarked, linked, marked, circular, mark, .undefined]

private theorem linkedOrMarkedNodes_children :
    linkedOrMarkedNodes.flatMap (·.kind.children) ⊆ linkedOrMarkedNodes := by
  change [linked, marked, circular, mark] ⊆ _
  simp [linkedOrMarkedNodes]

private theorem linkedOrMarked_throughout {holds : Schema → Prop}
    (each : ∀ node ∈ linkedOrMarkedNodes, holds node) :
    linkedOrMarked.Throughout (fun _ => circular) holds := by
  have leads : ∀ node ∈ linkedOrMarkedNodes, ∀ other,
      node.kind.LeadsTo (fun _ => circular) other → other = circular := by
    simp only [linkedOrMarkedNodes, List.forall_mem_cons]
    exact ⟨nofun, nofun, nofun, fun _ entered => entered, nofun, nofun, nofun⟩
  exact circular_throughout linkedOrMarkedNodes linkedOrMarkedNodes_children
    (by simp [linkedOrMarkedNodes]) (fun node among => ⟨leads node among, each node among⟩)
    (by simp [linkedOrMarkedNodes])

theorem linkedOrMarked_tell {roots : List Schema} (contains : roots ⊆ linkedOrMarkedNodes) :
    IdentitiesTell roots :=
  identitiesTell_of_written linkedOrMarkedNodes (by decide) (by decide) contains
    linkedOrMarkedNodes_children

theorem linkedOrMarked_regular : Regular (fun _ => circular) linkedOrMarked := by
  refine linkedOrMarked_throughout ?_
  simp only [linkedOrMarkedNodes, List.forall_mem_cons]
  exact ⟨⟨trivial, trivial⟩, ⟨⟨by decide, nofun⟩, trivial⟩, ⟨⟨by decide, nofun⟩, trivial⟩,
    ⟨trivial, trivial⟩, ⟨trivial, trivial⟩, ⟨trivial, trivial⟩, nofun⟩

end SchemaCodec.Run
