import SchemaCodec.Proofs.Run.Notes
import SchemaCodec.Proofs.Run.Success

/-!
Which items a tuple runs, and against what. One position runs through the leading elements, then
through the repeated schema as long as items are left for the trailing ones, and then through the
trailing schemas. It never comes back, so that no item is run twice, and a run that succeeds has left
no item out.
-/

namespace SchemaCodec.Run

/-! ### Positions -/

structure Visit where
  position : Nat
  schema : Schema

def visitsFrom (position : Nat) : List Schema → List Visit
  | [] => []
  | schema :: rest => ⟨position, schema⟩ :: visitsFrom (position + 1) rest

def repeatedVisits (repeated : Schema) (stop position : Nat) : List Visit :=
  if position < stop then ⟨position, repeated⟩ :: repeatedVisits repeated stop (position + 1) else []
termination_by stop - position

/-- The three parts of a tuple, each from where the one before it has stopped. -/
def visits (elements : List (Element Schema)) (rest : List Schema) (count : Nat) : List Visit :=
  let leading := visitsFrom 0 (elements.map Element.schema)
  match rest with
  | [] => leading
  | repeated :: trailing =>
    let middle := repeatedVisits repeated (count - trailing.length) elements.length
    leading ++ middle ++ visitsFrom (elements.length + middle.length) trailing

private theorem visitsFrom_append (position : Nat) (schemas others : List Schema) :
    visitsFrom position (schemas ++ others) =
      visitsFrom position schemas ++ visitsFrom (position + schemas.length) others := by
  induction schemas generalizing position with
  | nil => rfl
  | cons schema rest ih =>
      have shifted : position + 1 + rest.length = position + (rest.length + 1) := by omega
      simp only [List.cons_append, visitsFrom, ih, List.length_cons, shifted]

private theorem length_visitsFrom (position : Nat) (schemas : List Schema) :
    (visitsFrom position schemas).length = schemas.length := by
  induction schemas generalizing position with
  | nil => rfl
  | cons schema rest ih => simp only [visitsFrom, List.length_cons, ih]

private theorem positions_visitsFrom (position : Nat) (schemas : List Schema) :
    (visitsFrom position schemas).map Visit.position = List.range' position schemas.length := by
  induction schemas generalizing position with
  | nil => rfl
  | cons schema rest ih =>
      simp only [visitsFrom, List.map_cons, ih, List.length_cons, List.range'_succ]

private theorem repeatedVisits_eq (repeated : Schema) (stop position : Nat) :
    repeatedVisits repeated stop position =
      visitsFrom position (List.replicate (stop - position) repeated) := by
  induction left : stop - position generalizing position with
  | zero =>
      rw [repeatedVisits, if_neg (by omega)]
      rfl
  | succ left ih =>
      rw [repeatedVisits, if_pos (by omega), ih (position + 1) (by omega)]
      rfl

/-- The positions are those of the schemas in a row. -/
private theorem visits_eq (elements : List (Element Schema)) (rest : List Schema) (count : Nat) :
    visits elements rest count = visitsFrom 0 (slots elements rest count) := by
  cases rest with
  | nil => rfl
  | cons repeated trailing =>
      simp only [visits, slots, repeatedVisits_eq, visitsFrom_append, length_visitsFrom,
        List.length_append, List.length_map, List.length_replicate, Nat.zero_add]

private theorem bounds_of_mem_visitsFrom {first : Nat} {schemas : List Schema} {visit : Visit}
    (visited : visit ∈ visitsFrom first schemas) :
    first ≤ visit.position ∧ visit.position < first + schemas.length := by
  apply List.mem_range'_1.mp
  rw [← positions_visitsFrom]
  exact List.mem_map_of_mem visited

private theorem position_lt_of_repeatedVisits {repeated : Schema} {stop position : Nat}
    {visit : Visit}
    (visited : visit ∈ repeatedVisits repeated stop position) : visit.position < stop := by
  rw [repeatedVisits_eq] at visited
  have bounds := bounds_of_mem_visitsFrom visited
  rw [List.length_replicate] at bounds
  omega

private theorem mem_visitsFrom {first position : Nat} {schemas : List Schema} {schema : Schema}
    (atPosition : schemas[position]? = some schema) :
    ⟨first + position, schema⟩ ∈ visitsFrom first schemas := by
  induction schemas generalizing first position with
  | nil => cases atPosition
  | cons other rest ih =>
      cases position with
      | zero =>
          cases atPosition
          exact List.mem_cons_self
      | succ position =>
          have shifted : first + (position + 1) = first + 1 + position := by omega
          rw [shifted]
          exact List.mem_cons_of_mem _ (ih atPosition)

/-- The steps of a tuple's items are those of the positions, where there is an item. The items before
those that are left are the ones already visited. -/
private theorem itemSteps_eq_visits {m : Type → Type} [Monad m] (run : Schema → Value → m Outcome)
    (first : Nat) (schemas : List Schema) (before items : List Value) (length : before.length = first) :
    itemSteps run first schemas items = (visitsFrom first schemas).filterMap fun visit =>
      (before ++ items)[visit.position]?.map (itemStep run visit.position visit.schema) := by
  induction schemas generalizing first before items with
  | nil => rfl
  | cons schema rest ih =>
      cases items with
      | nil =>
          have beyond : ∀ visit ∈ visitsFrom first (schema :: rest),
              (before ++ [])[visit.position]?.map (itemStep run visit.position visit.schema) =
                none := by
            intro visit visited
            have bounds := bounds_of_mem_visitsFrom visited
            rw [List.append_nil, List.getElem?_eq_none (by omega), Option.map_none]
          rw [List.filterMap_eq_nil_iff.mpr beyond]
          rfl
      | cons item items =>
          have here : (before ++ item :: items)[first]? = some item := by
            rw [List.getElem?_append_right (by omega), length, Nat.sub_self]
            rfl
          have later := ih (first + 1) (before ++ [item]) items (by simp [length])
          rw [List.append_assoc, List.singleton_append] at later
          rw [itemSteps, visitsFrom, List.filterMap_cons_some (by rw [here]; rfl), later]

/-! ### Notes of steps -/

namespace Notes

variable {ε α : Type} {mode : FaultMode} {step : Noting ε (Except Fault α)}
  {rest : List (Noting ε (Except Fault α))} {entries more : List ε}
  {result : Option (List (Except Fault α))} {fault : Fault}

private theorem results_exhausted (here : Notes step none entries) :
    Notes (results mode (step :: rest)) none entries :=
  here.bind_none

private theorem results_ok {value : α} (here : Notes step (some (.ok value)) entries)
    (later : Notes (results mode rest) result more) :
    Notes (results mode (step :: rest)) (result.map (.ok value :: ·)) (more ++ entries) := by
  apply here.bind_some
  exact later.map _

/-- Whether the steps stop at a fault or go on behind it, the result is not without faults. -/
private theorem results_fault (here : Notes step (some (.error fault)) entries)
    (later : Notes (results mode rest) result more) :
    ∃ resultToo entriesToo, Notes (results mode (step :: rest)) resultToo entriesToo ∧
      (entriesToo = entries ∨ entriesToo = more ++ entries) ∧
      ∀ all, resultToo = some all → faultsOf all ≠ [] := by
  cases mode with
  | first =>
      refine ⟨some [.error fault], entries, ?_, Or.inl rfl, ?_⟩
      · apply here.bind_silent
        exact .pure [Except.error fault]
      · intro all reached clean
        cases reached
        cases clean
  | all =>
      refine ⟨result.map (.error fault :: ·), more ++ entries, ?_, Or.inr rfl, ?_⟩
      · apply here.bind_some
        exact later.map _
      · intro all reached clean
        obtain ⟨others, _, rfl⟩ := Option.map_eq_some_iff.mp reached
        cases clean

/-- Faults that are known beforehand start nothing, and are not passed over. -/
private theorem exists_after_faults {front steps : List (Noting ε (Except Fault α))}
    (known : ∀ step ∈ front, ∃ fault, step = Pure.pure (.error fault))
    (notes : Notes (results mode steps) result entries) :
    ∃ resultToo entriesToo, Notes (results mode (front ++ steps)) resultToo entriesToo ∧
      entriesToo.reverse <+: entries.reverse ∧
      ∀ all, resultToo = some all → faultsOf all = [] → entriesToo = entries ∧ result = some all := by
  induction front with
  | nil => exact ⟨result, entries, notes, List.prefix_rfl, fun _ reached _ => ⟨rfl, reached⟩⟩
  | cons step front ih =>
      obtain ⟨fault, rfl⟩ := known step List.mem_cons_self
      obtain ⟨resultToo, entriesToo, later, isPrefix, _⟩ := ih fun step inFront =>
        known step (List.mem_cons_of_mem _ inFront)
      have here : Notes (Pure.pure (.error fault) : Noting ε (Except Fault α))
        (some (.error fault)) [] := .pure _
      obtain ⟨_, _, goesOn, which, unclean⟩ := here.results_fault later
      refine ⟨_, _, goesOn, ?_, fun all reached clean => absurd clean (unclean all reached)⟩
      rcases which with rfl | rfl
      · exact List.nil_prefix
      · rw [List.append_nil]
        exact isPrefix

end Notes

/-! ### The runs that a tuple starts -/

def itemStarts (settings : Settings) (schemas : List Schema) (items : List Value) : List Start :=
  List.zipWith (Start.mk settings) schemas items

private theorem notes_itemStep (run : Settings → Schema → Value → Option Outcome)
    (settings : Settings)
    (position : Nat) (schema : Schema) (item : Value) :
    Notes (itemStep (noted run settings) position schema item)
      (itemStep (run settings) position schema item) [⟨settings, schema, item⟩] := by
  have started := notes_noted run settings schema item
  unfold itemStep
  cases ran : run settings schema item with
  | none =>
      rw [ran] at started
      exact started.bind_none
  | some outcome =>
      rw [ran] at started
      apply started.bind_silent
      cases outcome with
      | ok value => exact .pure _
      | error faults => exact .pure _

/-- The items are run in order, and all of them where no fault is found. -/
private theorem exists_notes_itemSteps (run : Settings → Schema → Value → Option Outcome)
    (settings : Settings) (mode : FaultMode) (first : Nat) (schemas : List Schema)
    (items : List Value) :
    ∃ result entries,
      Notes (results mode (itemSteps (noted run settings) first schemas items)) result entries ∧
      entries.reverse <+: itemStarts settings schemas items ∧
      ∀ all, result = some all → faultsOf all = [] →
        entries.reverse = itemStarts settings schemas items := by
  induction schemas generalizing first items with
  | nil => exact ⟨some [], [], .pure _, List.prefix_rfl, fun _ _ _ => rfl⟩
  | cons schema schemas ih =>
      cases items with
      | nil => exact ⟨some [], [], .pure _, List.prefix_rfl, fun _ _ _ => rfl⟩
      | cons item items =>
          have here := notes_itemStep run settings first schema item
          have onlyFirst : [(⟨settings, schema, item⟩ : Start)] <+:
              itemStarts settings (schema :: schemas) (item :: items) :=
            List.prefix_append [_] _
          obtain ⟨result, entries, later, isPrefix, whole⟩ := ih (first + 1) items
          have both : (entries ++ [(⟨settings, schema, item⟩ : Start)]).reverse <+:
              itemStarts settings (schema :: schemas) (item :: items) := by
            rw [List.reverse_concat]
            exact (List.prefix_cons_inj _).mpr isPrefix
          rw [itemSteps]
          rcases ran : itemStep (run settings) first schema item with _ | fault | value
          · rw [ran] at here
            refine ⟨none, _, here.results_exhausted, onlyFirst, ?_⟩
            intro all reached
            cases reached
          · rw [ran] at here
            obtain ⟨_, _, goesOn, which, unclean⟩ := here.results_fault later
            refine ⟨_, _, goesOn, ?_, fun all reached clean => absurd clean (unclean all reached)⟩
            rcases which with rfl | rfl
            · exact onlyFirst
            · exact both
          · rw [ran] at here
            refine ⟨_, _, here.results_ok later, both, ?_⟩
            intro all reached clean
            obtain ⟨others, reachedToo, rfl⟩ := Option.map_eq_some_iff.mp reached
            rw [List.reverse_concat, whole others reachedToo clean]
            rfl

private theorem known_excessItems {m : Type → Type} [Monad m] {first : Nat} {items : List Value}
    {step : m (Except Fault Value)} (inSteps : step ∈ excessItems first items) :
    ∃ fault, step = pure (.error fault) := by
  induction items generalizing first with
  | nil => cases inSteps
  | cons item rest ih =>
      rcases List.mem_cons.mp inSteps with rfl | later
      · exact ⟨_, rfl⟩
      · exact ih later

/-- A tuple runs its items in order, and all of them where it succeeds. -/
private theorem exists_notes_tuple (run : Settings → Schema → Value → Option Outcome)
    (settings : Settings)
    (mode : FaultMode) (elements : List (Element Schema)) (rest : List Schema) (items : List Value) :
    ∃ result entries, Notes (tuple (noted run settings) mode elements rest items) result entries ∧
      entries.reverse <+: itemStarts settings (slots elements rest items.length) items ∧
      ∀ value, result = some (.ok value) →
        entries.reverse = itemStarts settings (slots elements rest items.length) items := by
  obtain ⟨others, later, ran, isPrefix, whole⟩ := exists_notes_itemSteps run settings mode 0
    (slots elements rest items.length) items
  have known : ∀ step ∈ (missingItems elements rest items.length ++
      if rest.isEmpty then excessItems elements.length (items.drop elements.length) else [] :
        List (Noting Start (Except Fault Value))), ∃ fault, step = pure (.error fault) := by
    intro step inFront
    rcases List.mem_append.mp inFront with missing | excess
    · obtain ⟨position, _, rfl⟩ := List.mem_map.mp missing
      exact ⟨_, rfl⟩
    · split at excess
      · exact known_excessItems excess
      · cases excess
  obtain ⟨result, entries, notes, shorter, kept⟩ := ran.exists_after_faults known
  refine ⟨_, entries, (notes.map settle).map (Except.map Value.array), shorter.trans isPrefix, ?_⟩
  intro value succeeded
  obtain ⟨outcome, settled, made⟩ := Option.map_eq_some_iff.mp succeeded
  obtain ⟨all, reached, rfl⟩ := Option.map_eq_some_iff.mp settled
  cases sorted : settle all with
  | error faults =>
      rw [sorted] at made
      cases made
  | ok values =>
      have clean := (settle_eq_ok_iff.mp sorted).1
      obtain ⟨sameEntries, sameResult⟩ := kept all reached clean
      rw [sameEntries]
      exact whole all sameResult clean

private theorem ItemsMatch.inputs_itemStarts {relates : Schema → Value → Value → Prop}
    {schemas : List Schema} {items results : List Value}
    (matched : ItemsMatch relates schemas items results) (settings : Settings) :
    (itemStarts settings schemas items).map Start.input = items := by
  induction matched with
  | nil schemas => rw [itemStarts, List.zipWith_nil_right, List.map_nil]
  | cons _ _ ih => exact congrArg (_ :: ·) ih

theorem ItemsMatch.forall₂_itemStarts {relates : Schema → Value → Value → Prop}
    {schemas : List Schema} {items results : List Value}
    (matched : ItemsMatch relates schemas items results) (settings : Settings) :
    List.Forall₂ (fun start result => start.settings = settings ∧
        relates start.schema start.input result)
      (itemStarts settings schemas items) results := by
  induction matched with
  | nil schemas =>
      rw [itemStarts, List.zipWith_nil_right]
      exact .nil
  | cons head _ ih => exact .cons ⟨rfl, head⟩ ih

/-- One position runs through the three parts of a tuple, so that no item is run twice, and there is an
item wherever the repeated schema is visited. The runs that are started are those of the first items,
each against the schema that the position visits; a tuple that succeeds has started one for each item,
and the results of these runs are the items of its result. -/
theorem tuple_runs_items_once (targets : Targets) (depth : Nat) (settings : Settings)
    {schema : Schema} {elements : List (Element Schema)} {rest : List Schema}
    (isTuple : schema.kind = .tuple elements rest) (items : List Value) :
    (∀ {m : Type → Type} [Monad m] (run : Schema → Value → m Outcome),
      itemSteps run 0 (slots elements rest items.length) items =
        (visits elements rest items.length).filterMap fun visit =>
          items[visit.position]?.map (itemStep run visit.position visit.schema)) ∧
    ((visits elements rest items.length).map Visit.position).Nodup ∧
    (∀ repeated trailing, rest = repeated :: trailing →
      ∀ visit ∈ repeatedVisits repeated (items.length - trailing.length) elements.length,
        visit.position < items.length) ∧
    (∀ (position : Nat) (start : Start),
      (starts targets depth settings schema (.array items))[position]? = some start →
      start.settings = settings ∧ items[position]? = some start.input ∧
        ⟨position, start.schema⟩ ∈ visits elements rest items.length) ∧
    ∀ value, parse targets (depth + 1) settings schema (.array items) = some (.ok value) →
      (starts targets depth settings schema (.array items)).map Start.input = items ∧
      ∃ results, value = .array results ∧ results.length = items.length ∧
        List.Forall₂ (fun start result =>
            parse targets depth start.settings start.schema start.input = some (.ok result))
          (starts targets depth settings schema (.array items)) results := by
  obtain ⟨result, entries, notes, isPrefix, whole⟩ := exists_notes_tuple (parse targets depth)
    settings settings.options.faults elements rest items
  have level : Notes (notedLevel targets depth settings schema (.array items)) result entries := by
    unfold notedLevel step
    rw [isTuple]
    exact notes
  obtain ⟨outcome, started⟩ := starts_of_notes level
  rw [started, outcome]
  refine ⟨?_, ?_, ?_, ?_, ?_⟩
  · intro m _ run
    rw [visits_eq]
    exact itemSteps_eq_visits run 0 _ [] items rfl
  · rw [visits_eq, positions_visitsFrom]
    exact List.nodup_range'
  · intro repeated trailing _ visit visited
    have before := position_lt_of_repeatedVisits visited
    omega
  · intro position start atPosition
    obtain ⟨others, sameStarts⟩ := isPrefix
    have zipped : (itemStarts settings (slots elements rest items.length) items)[position]? =
        some start := by
      rw [← sameStarts, List.getElem?_append_left (List.getElem?_eq_some_iff.mp atPosition).1]
      exact atPosition
    obtain ⟨slot, item, atSlot, atItem, rfl⟩ := List.getElem?_zipWith_eq_some.mp zipped
    have visited := @mem_visitsFrom 0 position _ _ atSlot
    rw [Nat.zero_add] at visited
    rw [visits_eq]
    exact ⟨rfl, atItem, visited⟩
  · intro value succeeded
    have all := whole value succeeded
    rw [← outcome] at succeeded
    obtain ⟨_, sameItems, _, _, results, yields, sameValue⟩ := (step_tuple isTuple).mp succeeded
    cases sameItems
    rw [all]
    have related := yields.forall₂_itemStarts settings
    have inputs := yields.inputs_itemStarts settings
    refine ⟨inputs, results, sameValue.symm, ?_, ?_⟩
    · rw [← related.length_eq, ← List.length_map Start.input, inputs]
    · apply related.imp
      intro start result ⟨same, ran⟩
      rw [same]
      exact ran

def scoreSheet : Schema :=
  .plain (.made 1) (.tuple [⟨.string, false⟩] [.number, .boolean])

def filledSheet : List Value :=
  [.string "kim", .number 7, .number 9, .boolean true]

theorem filledSheet_runs_once :
    scoreSheet.kind = .tuple [⟨.string, false⟩] [.number, .boolean] ∧
    parse (fun _ => .string) 2 ⟨.sync, {}, .decode⟩ scoreSheet (.array filledSheet) =
      some (.ok (.array filledSheet)) ∧
    (starts (fun _ => .string) 1 ⟨.sync, {}, .decode⟩ scoreSheet (.array filledSheet)).map
      Start.input = filledSheet := by
  have isTuple : scoreSheet.kind = .tuple [⟨.string, false⟩] [.number, .boolean] := rfl
  have ran : parse (fun _ => .string) 2 ⟨.sync, {}, .decode⟩ scoreSheet (.array filledSheet) =
      some (.ok (.array filledSheet)) := rfl
  obtain ⟨_, _, _, _, each⟩ := tuple_runs_items_once (fun _ => .string) 1 ⟨.sync, {}, .decode⟩
    isTuple filledSheet
  exact ⟨isTuple, ran, (each _ ran).1⟩

end SchemaCodec.Run
