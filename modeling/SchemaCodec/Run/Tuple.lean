import SchemaCodec.Run.Collect
import SchemaCodec.Schema.Basic

/-!
Runs of tuples. Which schema an item meets is decided by its position alone: the leading elements
come first, then the repeated schema as often as the items allow, then the trailing schemas.
-/

namespace SchemaCodec.Run

def requiredCount (elements : List (Element Schema)) (rest : List Schema) : Nat :=
  (elements.filter fun element => !element.optional).length + (rest.length - 1)

def slots (elements : List (Element Schema)) (rest : List Schema) (count : Nat) : List Schema :=
  let leading := elements.map Element.schema
  match rest with
  | [] => leading
  | repeated :: trailing =>
    leading ++ List.replicate (count - trailing.length - leading.length) repeated ++ trailing

variable {m : Type → Type} [Monad m]

def itemStep (run : Schema → Value → m Outcome) (position : Nat) (schema : Schema) (item : Value) :
    m (Except Fault Value) := do
  match ← run schema item with
  | .ok value => return .ok value
  | .error faults => return .error (.index position faults)

def missingItems (elements : List (Element Schema)) (rest : List Schema) (count : Nat) :
    List (m (Except Fault Value)) :=
  (List.range' count (requiredCount elements rest - count)).map fun position =>
    pure (.error (.index position (.single .missing)))

def excessItems (first : Nat) : List Value → List (m (Except Fault Value))
  | [] => []
  | item :: rest =>
    pure (.error (.index first (.single (.unexpected item)))) :: excessItems (first + 1) rest

/-- Run each item against the schema of its position; the first position is `first`. -/
def itemSteps (run : Schema → Value → m Outcome) (first : Nat) :
    List Schema → List Value → List (m (Except Fault Value))
  | schema :: schemas, item :: items =>
    itemStep run first schema item :: itemSteps run (first + 1) schemas items
  | _, _ => []

def tuple (run : Schema → Value → m Outcome) (mode : FaultMode) (elements : List (Element Schema))
    (rest : List Schema) (items : List Value) : m Outcome := do
  let excess : List (m (Except Fault Value)) :=
    if rest.isEmpty then excessItems elements.length (items.drop elements.length) else []
  let steps := itemSteps run 0 (slots elements rest items.length) items
  let outcome ← collect mode (missingItems elements rest items.length ++ excess ++ steps)
  return outcome.map Value.array

end SchemaCodec.Run
