import SchemaCodec.Run.Collect
import SchemaCodec.Schema.Basic

/-!
Runs of structs. Declared fields come first; every index signature then takes the undeclared members
whose key it fits. A later signature overwrites the result of an earlier one.
-/

namespace SchemaCodec.Run

/-- The key is of the kind that the parameter is about: symbols, or texts. -/
def keyFits (key : PropertyKey) : Schema → Bool
  | .node _ _ (.keyword .symbol) => key.isSymbol
  | .node _ _ (.refinement source _) => keyFits key source
  | _ => !key.isSymbol

def isDeclared (fields : List (Field Schema)) (key : PropertyKey) : Bool :=
  fields.any fun field => field.name = key

variable {m : Type → Type} [Monad m]

/-- Some index signature takes the key. -/
def takesKey (decodeKey : Schema → Value → m Outcome) (key : PropertyKey) :
    List (IndexSignature Schema) → m Bool
  | [] => pure false
  | index :: rest => do
    if keyFits key index.parameter then
      match ← decodeKey index.parameter key.toValue with
      | .ok _ => return true
      | .error _ => takesKey decodeKey key rest
    else takesKey decodeKey key rest

abbrev MemberResult := Except Fault (Option (PropertyKey × Value))

/-- A member must be declared or taken by an index signature. -/
def excessStep (decodeKey : Schema → Value → m Outcome) (fields : List (Field Schema))
    (indexes : List (IndexSignature Schema)) (member : PropertyKey × Value) : m MemberResult := do
  if isDeclared fields member.1 then return .ok none
  else if ← takesKey decodeKey member.1 indexes then return .ok none
  else return .error (.key member.1 (.single (.unexpected member.2)))

/-- Run a declared field. An absent field counts as undefined, unless it may be left out or must be
there; what is wrong with an absent field is that it is missing. -/
def fieldStep? (run : Schema → Value → m Outcome) (exact : Bool) (members : Members)
    (field : Field Schema) : Option (m MemberResult) :=
  match Table.find? field.name members with
  | some value => some do
    match ← run field.schema value with
    | .ok parsed => return .ok (some (field.name, parsed))
    | .error faults => return .error (.key field.name faults)
  | none =>
    if field.optional then none
    else if exact then some (pure (.error (.key field.name (.single .missing))))
    else some do
      match ← run field.schema .undefined with
      | .ok parsed => return .ok (some (field.name, parsed))
      | .error _ => return .error (.key field.name (.single .missing))

def indexStep (run : Schema → Value → m Outcome) (index : IndexSignature Schema)
    (member : PropertyKey × Value) : m MemberResult := do
  match ← run index.parameter member.1.toValue with
  | .error faults => return .error (.key member.1 faults)
  | .ok _ =>
    match ← run index.schema member.2 with
    | .ok parsed => return .ok (some (member.1, parsed))
    | .error faults => return .error (.key member.1 faults)

def indexMembers (fields : List (Field Schema)) (index : IndexSignature Schema) (members : Members) :
    Members :=
  members.filter fun member => keyFits member.1 index.parameter && !isDeclared fields member.1

/-- Add the members whose keys are not there yet. -/
def preserve (output members : Members) : Members :=
  output ++ members.filter fun member => !Table.has member.1 output

/-- Run the members of an object against a struct. `decodeKey` decides which keys the index signatures
take. -/
def struct (run decodeKey : Schema → Value → m Outcome) (options : Options)
    (fields : List (Field Schema)) (indexes : List (IndexSignature Schema)) (members : Members) :
    m Outcome := do
  let excess : List (m MemberResult) :=
    if options.excess = .error then members.map (excessStep decodeKey fields indexes) else []
  let declared := fields.filterMap (fieldStep? run options.exact members)
  let indexed := indexes.flatMap fun index =>
    (indexMembers fields index members).map (indexStep run index)
  let outcome ← collect options.faults (excess ++ declared ++ indexed)
  return outcome.map fun results =>
    let output := Table.ofEntries (results.filterMap fun result => result)
    .object (if options.excess = .preserve then preserve output members else output)

end SchemaCodec.Run
