import SchemaCodec.Options
import SchemaCodec.Report.Issue
import SchemaCodec.Text.Search

/-!
The arguments of the command line. A value follows its option as the next argument, after an equals
sign, or right behind a letter; it does not start with a dash unless it is a dash alone. No option is
given twice, and after two dashes all arguments are positional. The option file may be named before the
command or behind it, and the later place counts.
-/

namespace SchemaCodec.CommandLine

structure Command where
  direction : Direction
  /-- The path of the input; a dash is the standard input. -/
  input : String
  schema : String
  /-- The definition to use instead of the root of the document. -/
  root : Option String
  /-- The path of an option file. -/
  config : Option String
  allErrors : Bool
  excess : Option ExcessPolicy
  exact : Bool
  format : ReportFormat
deriving DecidableEq, Repr

inductive Request where
  | run (command : Command)
  /-- Help on the program, or on one of its commands. -/
  | help (topic : Option Direction)
  | version
deriving DecidableEq, Repr

inductive Misuse where
  | unknown (argument : String)
  | repeated (argument : String)
  | noValue (argument : String)
  | badValue (argument value : String)
  | noCommand
  | missing (argument : String)
deriving DecidableEq, Repr

inductive Flag where
  | config
  | schema
  | root
  | allErrors
  | excess
  | exact
  | format
  | help
  | version
deriving DecidableEq, Repr

namespace Flag

def ofLong? : String → Option Flag
  | "config" => some .config
  | "schema" => some .schema
  | "root" => some .root
  | "all-errors" => some .allErrors
  | "on-excess-property" => some .excess
  | "exact" => some .exact
  | "format" => some .format
  | "help" => some .help
  | "version" => some .version
  | _ => none

def ofLetter? : Char → Option Flag
  | 'c' => some .config
  | 's' => some .schema
  | 'r' => some .root
  | 'f' => some .format
  | 'h' => some .help
  | 'V' => some .version
  | _ => none

def takesValue : Flag → Bool
  | .config => true
  | .schema => true
  | .root => true
  | .excess => true
  | .format => true
  | _ => false

/-- The option is known in front of the command. -/
def isGlobal : Flag → Bool
  | .config => true
  | .help => true
  | .version => true
  | _ => false

end Flag

inductive Argument where
  | positional (text : String)
  /-- Two dashes. -/
  | separator
  /-- An option with the value attached to it. -/
  | option (flag : Flag) (attached : Option String)
  /-- A letter that is no option, or a word that is none. -/
  | stranger
deriving DecidableEq, Repr

def splitAssigned (text : List Char) : String × Option String :=
  match text.span (· ≠ '=') with
  | (name, '=' :: value) => (String.ofList name, some (String.ofList value))
  | (name, _) => (String.ofList name, none)

def attachedToLetter : List Char → Option String
  | [] => none
  | '=' :: value => some (String.ofList value)
  | value => some (String.ofList value)

def Argument.ofText (text : String) : Argument :=
  match text.toList with
  | ['-', '-'] => .separator
  | '-' :: '-' :: word =>
    match splitAssigned word with
    | (name, value) =>
      match Flag.ofLong? name with
      | some flag => .option flag value
      | none => .stranger
  | ['-'] => .positional text
  | '-' :: letter :: value =>
    match Flag.ofLetter? letter with
    | some flag => .option flag (attachedToLetter value)
    | none => .stranger
  | _ => .positional text

/-- The value of an option that takes one, and the arguments after it. -/
def takeValue (name : String) (attached : Option String) (rest : List String) :
    Except Misuse (String × List String) :=
  match attached, rest with
  | some value, _ => .ok (value, rest)
  | none, [] => .error (.noValue name)
  | none, next :: after =>
    if next = "-" || !Text.startsWith next "-" then .ok (next, after) else .error (.noValue name)

def pathValue (name value : String) : Except Misuse String :=
  if value = "" then .error (.badValue name value) else .ok value

def once {α : Type} (name : String) (known : Option α) (value : α) : Except Misuse (Option α) :=
  match known with
  | none => .ok (some value)
  | some _ => .error (.repeated name)

structure Draft where
  input : Option String := none
  schema : Option String := none
  root : Option String := none
  config : Option String := none
  allErrors : Option Unit := none
  excess : Option ExcessPolicy := none
  exact : Option Unit := none
  format : Option ReportFormat := none

namespace Draft

def setValue (draft : Draft) (name value : String) : Flag → Except Misuse Draft
  | .config => do
    return { draft with config := ← once name draft.config (← pathValue name value) }
  | .schema => do
    return { draft with schema := ← once name draft.schema (← pathValue name value) }
  | .root => do return { draft with root := ← once name draft.root value }
  | .excess =>
    match ExcessPolicy.ofWord? value with
    | some policy => do return { draft with excess := ← once name draft.excess policy }
    | none => .error (.badValue name value)
  | .format =>
    match ReportFormat.ofWord? value with
    | some format => do return { draft with format := ← once name draft.format format }
    | none => .error (.badValue name value)
  | _ => .error (.unknown name)

def setFlag (draft : Draft) (name : String) : Flag → Except Misuse Draft
  | .allErrors => do return { draft with allErrors := ← once name draft.allErrors () }
  | .exact => do return { draft with exact := ← once name draft.exact () }
  | _ => .error (.unknown name)

def setInput (draft : Draft) (text : String) : Except Misuse Draft :=
  match draft.input with
  | none => do return { draft with input := some (← pathValue "<INPUT>" text) }
  | some _ => .error (.unknown text)

def finish (draft : Draft) (direction : Direction) (config : Option String) :
    Except Misuse Command :=
  match draft.input, draft.schema with
  | some input, some schema => .ok
    { direction, input, schema
      root := draft.root
      config := draft.config.orElse fun _ => config
      allErrors := draft.allErrors.isSome
      excess := draft.excess
      exact := draft.exact.isSome
      format := draft.format.getD .tree }
  | none, _ => .error (.missing "<INPUT>")
  | _, none => .error (.missing "--schema")

end Draft

/-- Read the arguments behind a command. The fuel is the number of arguments left. -/
def readCommand (direction : Direction) (config : Option String) :
    Nat → Draft → List String → Except Misuse Request
  | 0, draft, _ => (draft.finish direction config).map .run
  | _ + 1, draft, [] => (draft.finish direction config).map .run
  | fuel + 1, draft, text :: rest =>
    match Argument.ofText text with
    | .positional value => do readCommand direction config fuel (← draft.setInput value) rest
    | .separator => do
      let draft ← rest.foldlM Draft.setInput draft
      (draft.finish direction config).map .run
    | .stranger => .error (.unknown text)
    | .option flag attached =>
      if flag = .help then
        if attached = none || !Text.startsWith text "--" then .ok (.help (some direction))
        else .error (.unknown text)
      else if flag.takesValue then do
        let (value, rest) ← takeValue text attached rest
        readCommand direction config fuel (← draft.setValue text value flag) rest
      else if attached.isSome then .error (.unknown text)
      else do readCommand direction config fuel (← draft.setFlag text flag) rest

def commandOfWord? : String → Option Direction
  | "decode" => some .decode
  | "encode" => some .encode
  | _ => none

def readHelp : List String → Except Misuse Request
  | [] => .ok (.help none)
  | [topic] =>
    match commandOfWord? topic with
    | some direction => .ok (.help (some direction))
    | none => if topic = "help" then .ok (.help none) else .error (.unknown topic)
  | _ :: next :: _ => .error (.unknown next)

/-- Read the arguments in front of a command. The fuel is the number of arguments left. -/
def readRequest (config : Option String) : Nat → List String → Except Misuse Request
  | 0, _ => .error .noCommand
  | _ + 1, [] => .error .noCommand
  | fuel + 1, text :: rest =>
    match Argument.ofText text with
    | .positional word =>
      match commandOfWord? word with
      | some direction => readCommand direction config (rest.length + 1) {} rest
      | none => if word = "help" then readHelp rest else .error (.unknown word)
    | .separator => .error .noCommand
    | .stranger => .error (.unknown text)
    | .option flag attached =>
      if !flag.isGlobal then .error (.unknown text)
      else if flag = .config then do
        let (value, rest) ← takeValue text attached rest
        let config ← once text config (← pathValue text value)
        readRequest config fuel rest
      else if attached.isSome && Text.startsWith text "--" then .error (.unknown text)
      else if flag = .help then .ok (.help none)
      else .ok .version

def Request.read (arguments : List String) : Except Misuse Request :=
  readRequest none (arguments.length + 1) arguments

end SchemaCodec.CommandLine
