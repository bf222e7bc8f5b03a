import SchemaCodec.CommandLine.Usage
import SchemaCodec.Document.Loader

/-!
The program. It loads the options, the schema and the input in this order, runs the input, and writes
the result or the report. What it reads is given to it, and so is the way it reads texts, so that it is
a function of its arguments, the files and the standard input.
-/

namespace SchemaCodec.CommandLine

structure Surroundings where
  files : Files
  standardInput : String

/-- What the program leaves behind. -/
structure Ending where
  code : Nat
  standardOutput : String
  standardError : String
deriving DecidableEq, Repr

namespace Ending

def success (text : String) : Ending := ⟨0, text, ""⟩

def rejected (report : String) : Ending := ⟨1, "", report ++ "\n"⟩

def failure (message : String) : Ending := ⟨2, "", "Error: " ++ message ++ "\n"⟩

/-- The run goes deeper than any run may. -/
def exhausted : Ending := ⟨134, "", "the run goes too deep\n"⟩

end Ending

def readText (files : Files) (path : String) : Except String String :=
  match files path with
  | .text content => .ok content
  | .unreadable => .error "the file cannot be read"
  | .missing => .error "there is no such file"

section Loading

variable (readers : Readers)

def loadOptions (files : Files) (path : String) : Except String Options :=
  match readText files path with
  | .error reason => .error ("Failed to read config file " ++ path ++ ": " ++ reason)
  | .ok content =>
    let format := Path.format path
    match readers.options format content with
    | some options => .ok options
    | none => .error ("Invalid " ++ format.name ++ " config " ++ path ++ ": these are no options")

def Command.override (command : Command) (options : Options) : Options where
  faults := if command.allErrors then .all else options.faults
  excess := command.excess.getD options.excess
  exact := command.exact || options.exact

def Command.options (command : Command) (files : Files) : Except String Options :=
  match command.config with
  | some path => (loadOptions readers files path).map command.override
  | none => .ok (command.override {})

def documentScope : Nat := 0

def Command.loadSchema (command : Command) (files : Files) : Except String (Schema × Session) :=
  let loader := Loader.usual documentScope
  match loader.loadFile files .empty (.made 0) command.schema readers with
  | (.error error, _) => .error ("Failed to load schema " ++ command.schema ++ ": " ++ error.message)
  | (.ok root, session) =>
    match command.root with
    | some name =>
      match (session.registry documentScope).get? name with
      | some schema => .ok (schema, session)
      | none => .error ("No definition named " ++ name ++ " in " ++ command.schema)
    | none =>
      match root with
      | some schema => .ok (schema, session)
      | none => .error (command.schema ++ " has no root; pick a definition with --root")

def Command.loadInput (command : Command) (surroundings : Surroundings) : Except String Value :=
  let content :=
    if command.input = "-" then .ok surroundings.standardInput
    else readText surroundings.files command.input
  match content with
  | .error reason => .error ("Failed to read input " ++ command.input ++ ": " ++ reason)
  | .ok text =>
    match readers.input text with
    | some json => .ok (.ofJson json)
    | none => .error ("Input " ++ command.input ++ " is not valid JSON: it is no JSON value")

end Loading

def failureText (failure : JsonFailure) : String :=
  match failure with
  | .unrepresentable _ => failure.message
  | .bigint => failure.message ++ ": " ++ failure.reason

def Ending.ofOutcome (format : ReportFormat) : Option Outcome → Ending
  | none => .exhausted
  | some (.error faults) => .rejected (faults.report format)
  | some (.ok value) =>
    match value.jsonLines with
    | .ok text => .success (text ++ "\n")
    | .error failure => .failure (failureText failure)

structure Prepared where
  options : Options
  schema : Schema
  session : Session
  input : Value

/-- Load all that a command needs; the first that cannot be loaded ends it. -/
def Command.prepare (command : Command) (readers : Readers) (surroundings : Surroundings) :
    Except String Prepared := do
  let options ← command.options readers surroundings.files
  let (schema, session) ← command.loadSchema readers surroundings.files
  let input ← command.loadInput readers surroundings
  return ⟨options, schema, session, input⟩

def Prepared.run (prepared : Prepared) : Direction → Option Outcome
  | .decode => (prepared.session.decodeAsync prepared.schema prepared.input prepared.options).1
  | .encode => (prepared.session.encodeAsync prepared.schema prepared.input prepared.options).1

def Command.run (command : Command) (readers : Readers) (surroundings : Surroundings) : Ending :=
  match command.prepare readers surroundings with
  | .error message => .failure message
  | .ok prepared => .ofOutcome command.format (prepared.run command.direction)

def run (arguments : List String) (surroundings : Surroundings) (readers : Readers := .usual) :
    Ending :=
  match Request.read arguments with
  | .ok (.run command) => command.run readers surroundings
  | .ok (.help topic) => .success (helpText topic)
  | .ok .version => .success (versionText ++ "\n")
  | .error misuse => ⟨2, "", misuse.text⟩

def filesNamed (arguments : List String) : List String :=
  match Request.read arguments with
  | .ok (.run command) =>
    command.config.toList ++ [command.schema] ++ (if command.input = "-" then [] else [command.input])
  | _ => []

def readsStandardInput (arguments : List String) : Bool :=
  match Request.read arguments with
  | .ok (.run command) => command.input = "-"
  | _ => false

end SchemaCodec.CommandLine
