import SchemaCodec.Schema.Union

/-!
The standard schemas. Each exists once: it is the same node wherever it is used.
-/

namespace SchemaCodec.Schema

def standardKeyword (number : Nat) (identifier : String) (keyword : Keyword) : Schema :=
  (plain (.standard number) (.keyword keyword)).withIdentifier (.standard number) identifier

def string : Schema := standardKeyword 1 "string" .string
def number : Schema := standardKeyword 2 "number" .number
def boolean : Schema := standardKeyword 3 "boolean" .boolean
def bigint : Schema := standardKeyword 4 "bigint" .bigint
def symbol : Schema := standardKeyword 5 "symbol" .symbol
def undefined : Schema := standardKeyword 6 "undefined" .undefined
def void : Schema := standardKeyword 7 "void" .void
def unknown : Schema := standardKeyword 8 "unknown" .unknown
def any : Schema := standardKeyword 9 "any" .any
def never : Schema := standardKeyword 10 "never" .never
def object : Schema := standardKeyword 11 "object" .object

def null : Schema :=
  (plain (.standard 12) (.literal .null)).withIdentifier (.standard 12) "null"

def dateHook : Hook := fun _ _ expected value =>
  match value with
  | .date _ => .done (.ok value)
  | _ => .done (Outcome.fail (.mismatch expected value))

def date : Schema :=
  (plain (.standard 13) (.declaration [] dateHook dateHook)).withIdentifier (.standard 13) "Date"

def unknownRecord : Schema :=
  (plain (.standard 14) (.struct [] [⟨string, unknown⟩])).withIdentifier (.standard 14)
    "\x7b readonly [x: string]: unknown \x7d"

end SchemaCodec.Schema
