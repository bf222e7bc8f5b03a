import SchemaCodec.CommandLine.Run
import SchemaCodec.Proofs.Document.LoadedRuns
import SchemaCodec.Proofs.Run.Trace

/-!
What the program leaves behind. It reports the outcome of the run that the session makes: a result is
written as JSON, and faults are reported. Of what can be loaded, only a result of decoding with a big
whole number in it cannot be written; encoding gives texts wherever a transformation is applied.
-/

namespace SchemaCodec

/-! ### Properties that runs of documents keep -/

private theorem Value.represented_spreads (counts : PropertyKey → Prop) :
    Spreads counts Represented fun _ => True where
  array := iff_of_true rfl fun _ _ => trivial
  object := iff_of_true rfl fun _ _ _ => trivial
  undefined := trivial

private theorem Value.anything_spreads (counts : PropertyKey → Prop) :
    Spreads counts (fun _ => True) fun _ => True where
  array := iff_of_true trivial fun _ _ => trivial
  object := iff_of_true trivial fun _ _ _ => trivial
  undefined := trivial

private theorem Value.freeOfBigints_spreads :
    Spreads (fun key => key.isSymbol = false) FreeOfBigints FreeOfBigints where
  array := freeOfBigints_array
  object := freeOfBigints_object
  undefined := nofun

private theorem Value.written_spreads :
    Spreads (fun key => key.isSymbol = false)
      (fun value => value.Represented ∧ value.FreeOfBigints) FreeOfBigints where
  array := (and_iff_right rfl).trans freeOfBigints_array
  object := (and_iff_right rfl).trans freeOfBigints_object
  undefined := nofun

namespace CommandLine

variable {command : Command} {readers : Readers} {surroundings : Surroundings}
  {prepared : Prepared}

/-! ### What a command loads -/

def Command.Unloadable (command : Command) (readers : Readers) (surroundings : Surroundings) : Prop :=
  (∃ message, command.options readers surroundings.files = .error message) ∨
    (∃ message, command.loadSchema readers surroundings.files = .error message) ∨
    ∃ message, command.loadInput readers surroundings = .error message

structure Command.Loads (command : Command) (readers : Readers) (surroundings : Surroundings)
    (prepared : Prepared) : Prop where
  options : command.options readers surroundings.files = .ok prepared.options
  schema : command.loadSchema readers surroundings.files = .ok (prepared.schema, prepared.session)
  input : command.loadInput readers surroundings = .ok prepared.input

private theorem loads_iff :
    command.Loads readers surroundings prepared ↔ command.prepare readers surroundings = .ok prepared := by
  constructor
  · rintro ⟨isOptions, isSchema, isInput⟩
    rw [Command.prepare, isOptions, isSchema, isInput]
    rfl
  · intro loaded
    obtain ⟨options, isOptions, after⟩ := exists_ok_of_bind loaded
    obtain ⟨⟨schema, session⟩, isSchema, after⟩ := exists_ok_of_bind after
    obtain ⟨input, isInput, same⟩ := exists_ok_of_bind after
    cases same
    exact ⟨isOptions, isSchema, isInput⟩

private theorem unloadable_iff :
    command.Unloadable readers surroundings ↔
      ∃ message, command.prepare readers surroundings = .error message := by
  unfold Command.Unloadable Command.prepare
  cases command.options readers surroundings.files with
  | error message => exact iff_of_true (Or.inl ⟨message, rfl⟩) ⟨message, rfl⟩
  | ok options =>
      cases command.loadSchema readers surroundings.files with
      | error message => exact iff_of_true (Or.inr (Or.inl ⟨message, rfl⟩)) ⟨message, rfl⟩
      | ok loaded =>
          cases command.loadInput readers surroundings with
          | error message => exact iff_of_true (Or.inr (Or.inr ⟨message, rfl⟩)) ⟨message, rfl⟩
          | ok input =>
              refine iff_of_false ?_ ?_
              · rintro (⟨_, ⟨⟩⟩ | ⟨_, ⟨⟩⟩ | ⟨_, ⟨⟩⟩)
              · rintro ⟨_, ⟨⟩⟩

/-- The root and the definitions of the document are compiled throughout. -/
private theorem exists_compiled_of_loadSchema {files : Files} {schema : Schema} {session : Session}
    (loaded : command.loadSchema readers files = .ok (schema, session)) :
    ∃ within, schema.Throughout session.targets (·.kind.Compiled within) := by
  unfold Command.loadSchema at loaded
  dsimp only at loaded
  split at loaded
  case h_1 => cases loaded
  case h_2 root after fromFile =>
    obtain ⟨content, document, _, _, fromDocument⟩ := Loader.exists_document_of_loadFile fromFile
    have unused : Session.empty.Unused documentScope := ⟨rfl, nofun⟩
    obtain ⟨ofRoot, ofNames⟩ := Loader.loaded_compiled unused fromDocument
    split at loaded
    · split at loaded
      · rename_i found
        cases loaded
        exact ⟨_, ofNames _ _ found⟩
      · cases loaded
    · split at loaded
      · cases loaded
        exact ⟨_, ofRoot _ rfl⟩
      · cases loaded

private theorem exists_json_of_loadInput {input : Value}
    (loaded : command.loadInput readers surroundings = .ok input) :
    ∃ json, input = .ofJson json := by
  unfold Command.loadInput at loaded
  dsimp only at loaded
  split at loaded
  · cases loaded
  · split at loaded
    · cases loaded
      exact ⟨_, rfl⟩
    · cases loaded

/-! ### What a command answers -/

private theorem run_eq_parse (prepared : Prepared) (direction : Direction) :
    prepared.run direction = Run.parse prepared.session.targets Session.depthLimit
      ⟨.async, prepared.options, direction⟩ prepared.schema prepared.input := by
  have untraced : ∀ settings, (Run.parseTraced prepared.session.targets Session.depthLimit settings
      prepared.schema prepared.input).1 = Run.parse prepared.session.targets Session.depthLimit
        settings prepared.schema prepared.input := fun settings =>
    (@Run.parseTraced_recorded _ (fun _ => True) (fun _ _ _ _ => trivial) _ _ _
      (fun _ _ _ _ => trivial) _).1
  cases direction <;> exact untraced _

/-- What is decoded from JSON is never left out as a whole. -/
private theorem represented_of_decode (loads : command.Loads readers surroundings prepared)
    {value : Value}
    (ran : prepared.run .decode = some (.ok value)) : value.Represented := by
  rw [run_eq_parse] at ran
  obtain ⟨within, compiled⟩ := exists_compiled_of_loadSchema loads.schema
  obtain ⟨json, isJson⟩ := exists_json_of_loadInput loads.input
  have handsOn : Run.HandsOn Value.Represented (fun _ => True) (Run.parse prepared.session.targets
      Session.depthLimit ⟨.async, prepared.options, .decode⟩ prepared.schema) :=
    Run.parse_handsOn (Value.represented_spreads fun _ => True) (Value.anything_spreads _) _
      fun node reached => (compiled node reached).decodes
  apply (handsOn ran).1
  rw [isJson]
  exact Value.ofJson_represented json

/-- What is encoded from JSON can be written as JSON. -/
private theorem written_of_encode (loads : command.Loads readers surroundings prepared)
    {value : Value}
    (ran : prepared.run .encode = some (.ok value)) : value.Represented ∧ value.FreeOfBigints := by
  rw [run_eq_parse] at ran
  obtain ⟨within, compiled⟩ := exists_compiled_of_loadSchema loads.schema
  obtain ⟨json, isJson⟩ := exists_json_of_loadInput loads.input
  have handsOn : Run.HandsOn (fun value => value.Represented ∧ value.FreeOfBigints)
      Value.FreeOfBigints (Run.parse prepared.session.targets Session.depthLimit
        ⟨.async, prepared.options, .encode⟩ prepared.schema) :=
    Run.parse_handsOn Value.written_spreads Value.freeOfBigints_spreads _
      fun node reached => (compiled node reached).encodes
  apply (handsOn ran).1
  rw [isJson]
  exact ⟨Value.ofJson_represented json, Value.ofJson_free json⟩

/-- Only decoding gives what cannot be written. -/
private theorem answer_of_run (loads : command.Loads readers surroundings prepared) {value : Value}
    (ran : prepared.run command.direction = some (.ok value)) :
    value.Represented ∧ (value.KeepsBigint → command.direction = .decode) := by
  cases directed : command.direction with
  | decode =>
      rw [directed] at ran
      exact ⟨represented_of_decode loads ran, fun _ => rfl⟩
  | encode =>
      rw [directed] at ran
      obtain ⟨represented, free⟩ := written_of_encode loads ran
      exact ⟨represented, fun keeps => absurd keeps free⟩

/-! ### How the program ends -/

/-- The ending tells the outcome of a run: the result as JSON, or the report. A result of decoding
cannot be written if JSON would keep a big whole number in it. -/
structure Reports (command : Command) (outcome : Option Outcome) (ending : Ending) : Prop where
  written : ∀ {value}, outcome = some (.ok value) →
    ¬(command.direction = .decode ∧ value.KeepsBigint) →
      ∃ json, value.toJson = .ok json ∧ ending = ⟨0, json.indented ++ "\n", ""⟩
  unwritten : ∀ {value}, outcome = some (.ok value) →
    command.direction = .decode ∧ value.KeepsBigint →
      ending = ⟨2, "", "Error: " ++ failureText .bigint ++ "\n"⟩
  rejected : ∀ {faults}, outcome = some (.error faults) →
    ending = ⟨1, "", faults.report command.format ++ "\n"⟩

private theorem ofOutcome_of_toJson {format : ReportFormat} {value : Value} {json : Json}
    (made : value.toJson = .ok json) :
    Ending.ofOutcome format (some (.ok value)) = ⟨0, json.indented ++ "\n", ""⟩ := by
  rw [Ending.ofOutcome, Value.jsonLines, made]
  rfl

private theorem ofOutcome_of_keepsBigint {format : ReportFormat} {value : Value}
    (keeps : value.KeepsBigint) : Ending.ofOutcome format (some (.ok value)) =
      ⟨2, "", "Error: " ++ failureText .bigint ++ "\n"⟩ := by
  rw [Ending.ofOutcome, Value.jsonLines, Value.toJson_of_keepsBigint keeps]
  rfl

private theorem reports_ofOutcome {outcome : Option Outcome}
    (answers : ∀ {value}, outcome = some (.ok value) →
      value.Represented ∧ (value.KeepsBigint → command.direction = .decode)) :
    Reports command outcome (.ofOutcome command.format outcome) where
  written {value} isResult free := by
    obtain ⟨represented, onlyDecoded⟩ := answers isResult
    obtain ⟨json, made⟩ := Value.exists_toJson represented fun keeps =>
      free ⟨onlyDecoded keeps, keeps⟩
    exact ⟨json, made, isResult ▸ ofOutcome_of_toJson made⟩
  unwritten isResult kept := isResult ▸ ofOutcome_of_keepsBigint kept.2
  rejected isResult := by
    rw [isResult]
    rfl

private theorem code_ofOutcome_eq_two_iff {format : ReportFormat} {outcome : Option Outcome}
    (represented : ∀ {value}, outcome = some (.ok value) → value.Represented) :
    (Ending.ofOutcome format outcome).code = 2 ↔
      ∃ value, outcome = some (.ok value) ∧ value.KeepsBigint := by
  constructor
  · intro failed
    match outcome with
    | none => cases failed
    | some (.error faults) => cases failed
    | some (.ok value) =>
        refine ⟨value, rfl, Classical.byContradiction fun free => ?_⟩
        obtain ⟨json, made⟩ := Value.exists_toJson (represented rfl) free
        rw [ofOutcome_of_toJson made] at failed
        cases failed
  · rintro ⟨value, rfl, keeps⟩
    rw [ofOutcome_of_keepsBigint keeps]

private theorem run_of_loads (loads : command.Loads readers surroundings prepared) :
    command.run readers surroundings = .ofOutcome command.format (prepared.run command.direction) := by
  rw [Command.run, loads_iff.mp loads]

/-- However texts are read, the program reports what the session answers, in either direction. It fails
only if something cannot be loaded, or if JSON would keep a big whole number in what was decoded. -/
theorem program_reports {arguments : List String}
    (asked : Request.read arguments = .ok (.run command)) (readers : Readers)
    (surroundings : Surroundings) :
    (∀ {prepared}, command.Loads readers surroundings prepared →
      Reports command (prepared.run command.direction) (run arguments surroundings readers)) ∧
    ((run arguments surroundings readers).code = 2 ↔ command.Unloadable readers surroundings ∨
      ∃ prepared value, command.Loads readers surroundings prepared ∧ command.direction = .decode ∧
        prepared.run .decode = some (.ok value) ∧ value.KeepsBigint) := by
  have carriedOut : run arguments surroundings readers = command.run readers surroundings := by
    rw [run, asked]
  rw [carriedOut]
  constructor
  · intro prepared loads
    rw [run_of_loads loads]
    exact reports_ofOutcome (answer_of_run loads)
  cases loaded : command.prepare readers surroundings with
  | error message =>
      have unloadable := unloadable_iff.mpr ⟨message, loaded⟩
      rw [Command.run, loaded]
      exact iff_of_true rfl (Or.inl unloadable)
  | ok prepared =>
      have loads := loads_iff.mpr loaded
      have loadable : ¬command.Unloadable readers surroundings := by
        rw [unloadable_iff, loaded]
        nofun
      rw [run_of_loads loads, code_ofOutcome_eq_two_iff fun ran => (answer_of_run loads ran).1,
        or_iff_right loadable]
      constructor
      · rintro ⟨value, ran, keeps⟩
        have decoding := (answer_of_run loads ran).2 keeps
        exact ⟨prepared, value, loads, decoding, decoding ▸ ran, keeps⟩
      · rintro ⟨other, value, loadsToo, decoding, ran, keeps⟩
        cases loaded.symm.trans (loads_iff.mp loadsToo)
        exact ⟨value, decoding ▸ ran, keeps⟩

/-! ### Commands on a desk -/

def desk : Surroundings where
  files path :=
    match path with
    | "title.json" => .text "\x7b\"root\": \x7b\"type\": \"Trim\"\x7d\x7d"
    | "count.json" => .text "\x7b\"root\": \x7b\"type\": \"BigIntFromString\"\x7d\x7d"
    | "tea.json" => .text "\" tea \""
    | "twelve.json" => .text "\"12\""
    | "flag.json" => .text "true"
    | _ => .missing
  standardInput := ""

def onDesk (direction : Direction) (input schema : String) : Command where
  direction := direction
  input := input
  schema := schema
  root := none
  config := none
  allErrors := false
  excess := none
  exact := false
  format := .tree

private theorem exists_answer {test : Outcome → Bool}
    (answered : ((command.prepare readers surroundings).toOption.bind fun prepared =>
      prepared.run command.direction).any test = true) :
    ∃ prepared outcome, command.Loads readers surroundings prepared ∧
      prepared.run command.direction = some outcome ∧ test outcome = true := by
  obtain ⟨outcome, found, passes⟩ := (Option.any_eq_true _ _).mp answered
  obtain ⟨prepared, loaded, ran⟩ := Option.bind_eq_some_iff.mp found
  cases isPrepared : command.prepare readers surroundings with
  | error message =>
      rw [isPrepared] at loaded
      cases loaded
  | ok other =>
      rw [isPrepared] at loaded
      cases loaded
      exact ⟨prepared, outcome, loads_iff.mpr isPrepared, ran, passes⟩

private theorem exists_value {given : Value}
    (answered : ((command.prepare readers surroundings).toOption.bind fun prepared =>
      prepared.run command.direction).any (fun outcome => outcome.toOption.any (·.same given)) =
        true) :
    ∃ prepared value, command.Loads readers surroundings prepared ∧
      prepared.run command.direction = some (.ok value) ∧ value.same given = true := by
  obtain ⟨prepared, outcome, loads, ran, passes⟩ := exists_answer answered
  cases outcome with
  | ok value => exact ⟨prepared, value, loads, ran, passes⟩
  | error faults => cases passes

private theorem tea_answered : ∃ prepared,
    (onDesk .decode "tea.json" "title.json").Loads .usual desk prepared ∧
    prepared.run .decode = some (.ok (.string "tea")) := by
  obtain ⟨prepared, value, loads, ran, same⟩ := @exists_value
    (onDesk .decode "tea.json" "title.json") .usual desk (.string "tea") (by decide +kernel)
  have isTea : value = .string "tea" := by
    cases value <;> simp_all [Value.same]
  exact ⟨prepared, loads, isTea ▸ ran⟩

private theorem flag_answered : ∃ prepared faults,
    (onDesk .encode "flag.json" "title.json").Loads .usual desk prepared ∧
      prepared.run .encode = some (.error faults) := by
  obtain ⟨prepared, outcome, loads, ran, passes⟩ := @exists_answer
    (onDesk .encode "flag.json" "title.json") .usual desk (fun outcome => !outcome.isOk)
    (by decide +kernel)
  cases outcome with
  | ok value => cases passes
  | error faults => exact ⟨prepared, faults, loads, ran⟩

private theorem twelve_answered :
    ∃ prepared, (onDesk .decode "twelve.json" "count.json").Loads .usual desk prepared ∧
      prepared.run .decode = some (.ok (.bigint 12)) := by
  obtain ⟨prepared, value, loads, ran, same⟩ := @exists_value
    (onDesk .decode "twelve.json" "count.json") .usual desk (.bigint 12) (by decide +kernel)
  have isTwelve : value = .bigint 12 := by
    cases value <;> simp_all [Value.same]
  exact ⟨prepared, loads, isTwelve ▸ ran⟩

/-- A title is written, and a flag is no title. -/
theorem titles_reported :
    run ["decode", "tea.json", "-s", "title.json"] desk = ⟨0, "\"tea\"\n", ""⟩ ∧
      (run ["encode", "flag.json", "-s", "title.json"] desk).code = 1 := by
  have asked : Request.read ["decode", "tea.json", "-s", "title.json"] =
      .ok (.run (onDesk .decode "tea.json" "title.json")) := rfl
  have askedToo : Request.read ["encode", "flag.json", "-s", "title.json"] =
      .ok (.run (onDesk .encode "flag.json" "title.json")) := rfl
  constructor
  · obtain ⟨prepared, loads, ran⟩ := tea_answered
    have free : ¬(Direction.decode = .decode ∧ (Value.string "tea").KeepsBigint) := nofun
    obtain ⟨json, made, ending⟩ := ((program_reports asked .usual desk).1 loads).written ran free
    cases made
    rw [ending]
    decide +kernel
  · obtain ⟨prepared, faults, loads, ran⟩ := flag_answered
    rw [((program_reports askedToo .usual desk).1 loads).rejected ran]

/-- The count is loaded and decoded, and yet the program fails. -/
theorem decoded_count_not_written :
    Request.read ["decode", "twelve.json", "-s", "count.json"] =
      .ok (.run (onDesk .decode "twelve.json" "count.json")) ∧
    (∃ prepared, (onDesk .decode "twelve.json" "count.json").Loads .usual desk prepared ∧
      prepared.run .decode = some (.ok (.bigint 12))) ∧
    (run ["decode", "twelve.json", "-s", "count.json"] desk).code = 2 :=
  ⟨rfl, twelve_answered, by decide +kernel⟩

end CommandLine

end SchemaCodec
