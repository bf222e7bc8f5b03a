import SchemaCodec.Run.Struct
import SchemaCodec.Run.Tuple
import SchemaCodec.Run.Union

/-!
One level of a run. The step of a schema is given the runs of the schemas below it, and the way into
lazy nodes; both may have effects of their own.
-/

namespace SchemaCodec.Run

structure Settings where
  execution : Execution
  options : Options
  direction : Direction
deriving DecidableEq, Repr

namespace Settings

def decoding (settings : Settings) : Settings :=
  { settings with direction := .decode }

def failingFast (settings : Settings) : Settings :=
  { settings with options := { settings.options with faults := .first } }

def withoutWaiting (settings : Settings) : Settings :=
  { settings with execution := .sync }

end Settings

def check (accepted : Bool) (schema : Schema) (input : Value) : Outcome :=
  if accepted then .ok input else Outcome.fail (.mismatch schema.expected input)

variable {m : Type → Type} [Monad m]

/-- Carry out the steps of a hook. -/
def hook (run : Schema → Value → m Outcome) (parameters : List Schema) : HookStep → m Outcome
  | .done outcome => pure outcome
  | .parse parameter input resume => do
    let outcome ← run (parameters[parameter]?.getD Schema.never) input
    hook run parameters (resume outcome)
  | .parseBy schema input resume => do
    let outcome ← run schema input
    hook run parameters (resume outcome)

/-- Apply one direction of a transformation. -/
def transformer (settings : Settings) (function : Transformer) (expected : Expected)
    (value : Value) : Outcome :=
  if function.suspends && settings.execution = .sync then Outcome.fail .forbidden
  else function.apply settings.options expected value

/-- Run a value through a transformation: the near side, the function, and the far side if the
transformation is strict. -/
def transform (run : Schema → Value → m Outcome) (settings : Settings) (expected : Expected)
    (near far : Schema) (function : Transformer) (strict : Bool) (input : Value) : m Outcome := do
  match ← run near input with
  | .error faults => return .error faults
  | .ok value =>
    match transformer settings function expected value with
    | .error faults => return .error faults
    | .ok result => if strict then run far result else return .ok result

def step (enter : LazyCell → m Schema) (run : Settings → Schema → Value → m Outcome)
    (settings : Settings) (schema : Schema) (input : Value) : m Outcome :=
  match schema.kind with
  | .keyword keyword => pure (check (keyword.accepts input) schema input)
  | .literal literal => pure (check (literal.accepts input) schema input)
  | .uniqueSymbol symbol =>
    pure (check (match input with | .symbol s => s == symbol | _ => false) schema input)
  | .enums members =>
    pure (check (members.any fun member => member.value.accepts input) schema input)
  | .template template =>
    pure (check (match input with | .string text => template.accepts text | _ => false) schema
      input)
  | .tuple elements rest =>
    match input with
    | .array items => tuple (run settings) settings.options.faults elements rest items
    | _ => pure (Outcome.fail (.mismatch schema.expected input))
  | .struct fields indexes =>
    if fields.isEmpty && indexes.isEmpty then pure (check (!input.isNullish) schema input)
    else match input with
      | .object members =>
        struct (run settings) (run settings.decoding) settings.options fields indexes members
      | _ => pure (Outcome.fail (.mismatch schema.expected input))
  | .union members => union (run settings.failingFast) settings.direction members input
  | .lazy cell => do run settings (← enter cell) input
  | .refinement source filter =>
    match settings.direction with
    | .decode => do
      match ← run settings source input with
      | .error faults => return .error faults
      | .ok value =>
        match filter settings.options schema.expected value with
        | some fault => return Outcome.fail fault
        | none => return .ok value
    | .encode => do
      match ← run settings.decoding schema.outputSide input with
      | .error faults => return .error faults
      | .ok value => run settings source.withoutRefinements value
  | .transform source target decode encode strict =>
    match settings.direction with
    | .decode => transform (run settings) settings schema.expected source target decode strict input
    | .encode => transform (run settings) settings schema.expected target source encode strict input
  | .declaration parameters decode encode =>
    let chosen := match settings.direction with
      | .decode => decode
      | .encode => encode
    hook (run settings.withoutWaiting) parameters
      (chosen settings.options settings.direction schema.expected input)

end SchemaCodec.Run
