import SchemaCodec.Fault
import SchemaCodec.Options

/-!
Steps of a run at one level. The steps go in order; at the first fault the run stops, or it goes on
and collects the faults of all steps.
-/

namespace SchemaCodec.Run

variable {m : Type → Type} [Monad m] {α : Type}

def results (mode : FaultMode) : List (m (Except Fault α)) → m (List (Except Fault α))
  | [] => pure []
  | step :: rest => do
    match ← step with
    | .error fault =>
      match mode with
      | .first => pure [.error fault]
      | .all => return .error fault :: (← results mode rest)
    | .ok value => return .ok value :: (← results mode rest)

def faultsOf : List (Except Fault α) → List Fault
  | [] => []
  | .error fault :: rest => fault :: faultsOf rest
  | .ok _ :: rest => faultsOf rest

def valuesOf : List (Except Fault α) → List α
  | [] => []
  | .error _ :: rest => valuesOf rest
  | .ok value :: rest => value :: valuesOf rest

def settle (all : List (Except Fault α)) : Except Faults (List α) :=
  match Faults.ofList? (faultsOf all) with
  | some faults => .error faults
  | none => .ok (valuesOf all)

def collect (mode : FaultMode) (steps : List (m (Except Fault α))) : m (Except Faults (List α)) := do
  return settle (← results mode steps)

end SchemaCodec.Run
