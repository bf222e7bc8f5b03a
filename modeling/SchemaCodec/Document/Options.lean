import SchemaCodec.Document.Members
import SchemaCodec.Json.Writer
import SchemaCodec.Options

/-!
Documents that hold the options of a run. Options that are not mentioned have their usual values, and
members that are no options are passed over.
-/

namespace SchemaCodec

namespace Options

def memberNames : List String := ["errors", "onExcessProperty", "exact"]

def ofMembers? {α : Type} (word : α → Option String) (flag : α → Option Bool)
    (members : List (String × α)) : Option Options := do
  let errors ← uniqueMember? "errors" members
  let excess ← uniqueMember? "onExcessProperty" members
  let exact ← uniqueMember? "exact" members
  let faults ← errors.mapM fun value => (word value).bind FaultMode.ofWord?
  let policy ← excess.mapM fun value => (word value).bind ExcessPolicy.ofWord?
  let strict ← exact.mapM flag
  return ⟨faults.getD .first, policy.getD .ignore, strict.getD false⟩

/-- A word in JSON: a text, or an object with null under the word. -/
def jsonWord? : Json → Option String
  | .string text => some text
  | .object [(name, .null)] => some name
  | _ => none

def jsonFlag? : Json → Option Bool
  | .boolean b => some b
  | _ => none

def yamlFlag? : Yaml.Node → Option Bool
  | .scalar text true => Yaml.readBoolean? text
  | _ => none

def read? (format : DocumentFormat) (text : String) : Option Options :=
  match format with
  | .json => do
    let json ← Json.read? text
    ofMembers? jsonWord? jsonFlag? (← json.record? memberNames)
  | .yaml => do
    let node ← Yaml.Node.read? text
    ofMembers? Yaml.Node.word? yamlFlag? (← node.record? memberNames)

def toJson (options : Options) : Json :=
  .object [("errors", .string options.faults.word), ("onExcessProperty", .string options.excess.word),
    ("exact", .boolean options.exact)]

end Options

end SchemaCodec
