import SchemaCodec.Schema.Standard
import SchemaCodec.Schema.TagIndex

/-!
Runs of unions. The tags of the input choose the members to try; the untagged members are tried after
them. The first member that succeeds gives the result, and each try stops at its first fault.
-/

namespace SchemaCodec.Run

def groupCandidates (members : Members) (entry : PropertyKey × TagGroup) :
    Except Fault (List Nat) :=
  match Table.find? entry.1 members with
  | none => .error (.key entry.1 (.single .missing))
  | some value =>
    match Table.find? value.display entry.2.buckets with
    | some bucket => .ok bucket
    | none => .error (.key entry.1 (.single (.mismatch entry.2.union.expected value)))

def tagCandidates (members : Members) : List (PropertyKey × TagGroup) → List Fault × List Nat
  | [] => ([], [])
  | entry :: rest =>
    match groupCandidates members entry, tagCandidates members rest with
    | .ok bucket, (faults, others) => (faults, bucket ++ others)
    | .error fault, (faults, others) => (fault :: faults, others)

def candidates (index : TagIndex) (input : Value) : List Fault × List Nat :=
  if index.isEmpty then ([], index.untagged)
  else match input with
    | .object members =>
      match tagCandidates members index.groups with
      | (faults, tagged) => (faults, tagged ++ index.untagged)
    | _ => ([.mismatch Schema.unknownRecord.expected input], index.untagged)

variable {m : Type → Type} [Monad m]

/-- Try schemas in order; `faults` holds what was wrong so far, the last one first. -/
def firstOf (run : Schema → Value → m Outcome) (input : Value) (faults : List Fault) :
    List Schema → m Outcome
  | [] => pure <|
    match Faults.ofList? faults.reverse with
    | some faults => .error faults
    | none => Outcome.fail (.mismatch Schema.never.expected input)
  | schema :: rest => do
    match ← run schema input with
    | .ok value => return .ok value
    | .error inner => firstOf run input (.unionMember inner :: faults) rest

/-- Run a value against the members of a union. `run` stops at the first fault. -/
def union (run : Schema → Value → m Outcome) (direction : Direction) (members : List Schema)
    (input : Value) : m Outcome :=
  match candidates (TagIndex.ofMembers direction members) input with
  | (faults, order) =>
    firstOf run input faults.reverse (order.filterMap fun position => members[position]?)

end SchemaCodec.Run
