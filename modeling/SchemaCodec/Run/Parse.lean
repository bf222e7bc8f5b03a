import SchemaCodec.Run.Step

/-!
Runs. A run goes down at most so many levels; a run that would go deeper is exhausted and gives no
outcome. Pure runs look up references in fixed targets. Traced runs record the lazy nodes they enter
as well.
-/

namespace SchemaCodec

abbrev Targets := Reference → Schema

/-- The schema that a lazy node stands for. -/
def LazyCell.resolve (targets : Targets) : LazyCell → Schema
  | .reference target => targets target
  | .side which _ inner => (inner.resolve targets).sideOf which

namespace Run

def parseWith {m : Type → Type} [Monad m] (enter : LazyCell → m Schema) (exhausted : m Outcome) :
    Nat → Settings → Schema → Value → m Outcome
  | 0, _, _, _ => exhausted
  | depth + 1, settings, schema, input =>
    step enter (parseWith enter exhausted depth) settings schema input

def parse (targets : Targets) (depth : Nat) (settings : Settings) (schema : Schema) (input : Value) :
    Option Outcome :=
  parseWith (m := Option) (fun cell => some (cell.resolve targets)) none depth settings schema input

/-- Results with the lazy nodes entered so far, the last one first. -/
abbrev Traced := OptionT (StateM (List LazyCell))

def enterTraced (targets : Targets) (cell : LazyCell) : Traced Schema := do
  modify (cell :: ·)
  return cell.resolve targets

def parseTraced (targets : Targets) (depth : Nat) (settings : Settings) (schema : Schema)
    (input : Value) : Option Outcome × List LazyCell :=
  let exhausted : Traced Outcome := failure
  match ((parseWith (enterTraced targets) exhausted depth settings schema input).run).run [] with
  | (outcome, entered) => (outcome, entered.reverse)

end Run

end SchemaCodec
