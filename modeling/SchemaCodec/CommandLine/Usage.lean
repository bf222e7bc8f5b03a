import SchemaCodec.CommandLine.Arguments

/-!
What the program says about itself.
-/

namespace SchemaCodec.CommandLine

def versionText : String := "schemata 0.1.0"

def lines (texts : List String) : String :=
  String.join (texts.map fun text => text ++ "\n")

def usageLine : Option Direction → String
  | none => "Usage: schemata [OPTIONS] <COMMAND>"
  | some .decode => "Usage: schemata decode [OPTIONS] --schema <SCHEMA> <INPUT>"
  | some .encode => "Usage: schemata encode [OPTIONS] --schema <SCHEMA> <INPUT>"

def programHelp : String := lines
  ["Decode and encode JSON values against schema documents",
    "",
    usageLine none,
    "",
    "Commands:",
    "  decode  Decode an input value into its domain shape",
    "  encode  Encode a domain value back into its input shape",
    "  help    Print this message or the help of the given subcommand(s)",
    "",
    "Options:",
    "  -c, --config <CONFIG>  Path to a parse options file (YAML or JSON)",
    "  -h, --help             Print help",
    "  -V, --version          Print version"]

def commandSummary : Direction → String
  | .decode => "Decode an input value into its domain shape"
  | .encode => "Encode a domain value back into its input shape"

def commandHelp (direction : Direction) : String := lines
  [commandSummary direction,
    "",
    usageLine (some direction),
    "",
    "Arguments:",
    "  <INPUT>  Input JSON file, or " ++ "\x60-\x60" ++ " for stdin",
    "",
    "Options:",
    "  -c, --config <CONFIG>",
    "          Path to a parse options file (YAML or JSON)",
    "  -s, --schema <SCHEMA>",
    "          Schema document path",
    "  -r, --root <ROOT>",
    "          Definition to use instead of the document root",
    "      --all-errors",
    "          Report every error instead of stopping at the first",
    "      --on-excess-property <ON_EXCESS_PROPERTY>",
    "          Policy for object members the schema does not declare " ++
      "[possible values: ignore, error, preserve]",
    "      --exact",
    "          Report absent required properties as missing",
    "  -f, --format <FORMAT>",
    "          Error output layout [default: tree] [possible values: tree, flat]",
    "  -h, --help",
    "          Print help"]

def helpText : Option Direction → String
  | none => programHelp
  | some direction => commandHelp direction

def Misuse.message : Misuse → String
  | .unknown argument => "unexpected argument '" ++ argument ++ "' found"
  | .repeated argument => "the argument '" ++ argument ++ "' cannot be used multiple times"
  | .noValue argument => "a value is required for '" ++ argument ++ "' but none was supplied"
  | .badValue argument value => "invalid value '" ++ value ++ "' for '" ++ argument ++ "'"
  | .noCommand => "a command is required but none was given"
  | .missing argument => "the argument '" ++ argument ++ "' is required but was not given"

def Misuse.text (misuse : Misuse) : String :=
  lines ["error: " ++ misuse.message, "", usageLine none]

end SchemaCodec.CommandLine
