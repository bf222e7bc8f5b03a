/-!
The options of a run. They are chosen once and hold at every level of the schema.
-/

namespace SchemaCodec

/-- Stop at the first fault of a level, or go on and collect them all. -/
inductive FaultMode where
  | first
  | all
deriving DecidableEq, Repr

/-- What happens to object members that the schema does not mention. -/
inductive ExcessPolicy where
  | ignore
  | error
  | preserve
deriving DecidableEq, Repr

structure Options where
  faults : FaultMode := .first
  excess : ExcessPolicy := .ignore
  /-- Required members must be present; otherwise an absent one counts as undefined. -/
  exact : Bool := false
deriving DecidableEq, Repr

def Options.collectsAll (options : Options) : Bool :=
  options.faults = .all

inductive Direction where
  | decode
  | encode
deriving DecidableEq, Repr

inductive Execution where
  | sync
  | async
deriving DecidableEq, Repr

namespace FaultMode

def word : FaultMode → String
  | .first => "first"
  | .all => "all"

def ofWord? : String → Option FaultMode
  | "first" => some .first
  | "all" => some .all
  | _ => none

end FaultMode

namespace ExcessPolicy

def word : ExcessPolicy → String
  | .ignore => "ignore"
  | .error => "error"
  | .preserve => "preserve"

def ofWord? : String → Option ExcessPolicy
  | "ignore" => some .ignore
  | "error" => some .error
  | "preserve" => some .preserve
  | _ => none

end ExcessPolicy

end SchemaCodec
