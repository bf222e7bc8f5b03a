import SchemaCodec.Json.Basic
import SchemaCodec.Number.Decimal
import SchemaCodec.Table

/-!
Reading JSON text. A reader takes the text that is left and gives what it read together with the
text after it. Members are kept as written, a repeated name included: whether one may be repeated is
for the reader of the members to say. Brackets may nest up to a limit.

A number is taken as the digits that fit into 64 bits, times a power of ten: one rounding for the
digits and one for the power.
-/

namespace SchemaCodec.Json

abbrev Reading (α : Type) := Option (α × List Char)

def isSpace (c : Char) : Bool :=
  c = ' ' || c = '\t' || c = '\n' || c = '\r'

def skipSpace (text : List Char) : List Char :=
  text.dropWhile isSpace

/-- The largest whole number of 64 bits without sign. -/
def largestWord : Nat := Nat.pow 2 64 - 1

/-- Read digits into a 64-bit number. The digits from the first that does not fit on are dropped;
gives the number, how many digits went into it, how many were dropped, and the text after them. -/
def takeWord (sofar taken : Nat) : List Char → Nat × Nat × Nat × List Char
  | [] => (sofar, taken, 0, [])
  | c :: rest =>
    if c.isDigit then
      let next := 10 * sofar + Number.digitValue c
      if next ≤ largestWord then takeWord next (taken + 1) rest
      else (sofar, taken, ((c :: rest).takeWhile Char.isDigit).length,
        (c :: rest).dropWhile Char.isDigit)
    else (sofar, taken, 0, c :: rest)

/-- A power of ten that is a double. -/
def powerOfTen (e : Nat) : Float :=
  Float.ofScientific 1 false e

/-- Scale by a power of ten; numbers that get too large are refused, tiny ones become zero. -/
def scale? (x : Float) (exponent : Int) : Option Float :=
  match exponent with
  | .ofNat up =>
    if 308 < up then (if x == 0 then some x else none)
    else
      let scaled := x * powerOfTen up
      if scaled.isInf then none else some scaled
  | .negSucc less =>
    let down := less + 1
    if down ≤ 308 then some (x / powerOfTen down)
    else
      let once := x / powerOfTen 308
      if down ≤ 616 then some (once / powerOfTen (down - 308))
      else some 0

def takeExponent? (text : List Char) : Reading Int :=
  match Number.takeSign text with
  | (negative, unsigned) =>
    match Number.takeDigits unsigned with
    | ([], _) => none
    | (digits, rest) =>
      let n := Number.ofDigits 0 digits
      some (if negative then -(n : Int) else n, rest)

/-- A double from its digits and the power of ten found so far; an exponent may follow. -/
def finishReal (negative : Bool) (significand : Nat) (exponent : Int) (text : List Char) :
    Reading JsonNumber :=
  let finish (power : Int) (rest : List Char) : Reading JsonNumber :=
    (scale? (Number.ofInteger significand) (exponent + power)).map fun x =>
      (.real (if negative then -x else x), rest)
  match text with
  | c :: rest =>
    if c = 'e' || c = 'E' then
      (takeExponent? rest).bind fun (power, after) =>
        if significand = 0 then some (.real (if negative then -0.0 else 0.0), after)
        else finish power after
    else finish 0 text
  | [] => finish 0 text

/-- A whole number as it is kept: negative zero and numbers beyond 64 bits are doubles. -/
def wholeNumber (negative : Bool) (n : Nat) : JsonNumber :=
  if negative then
    if n = 0 || Nat.pow 2 63 < n then .real (-(Number.ofInteger n)) else .whole (-(n : Int))
  else .whole n

/-- The part of a number after its sign. No digit may follow a leading zero. -/
def readUnsigned (negative : Bool) (text : List Char) : Reading JsonNumber :=
  match text with
  | [] => none
  | c :: rest =>
    if !c.isDigit then none
    else if c = '0' && (rest.head?.any Char.isDigit) then none
    else
      match takeWord 0 0 text with
      | (word, _, dropped, after) =>
        match after with
        | '.' :: digits =>
          if !(digits.head?.any Char.isDigit) then none
          else match takeWord word 0 digits with
            | (significand, taken, _, afterDigits) =>
              finishReal negative significand ((dropped : Int) - taken) afterDigits
        | mark :: _ =>
          if mark = 'e' || mark = 'E' || 0 < dropped then finishReal negative word dropped after
          else some (wholeNumber negative word, after)
        | [] =>
          if 0 < dropped then finishReal negative word dropped []
          else some (wholeNumber negative word, [])

def readUnit : List Char → Reading Nat
  | a :: b :: c :: d :: rest =>
    match Number.hexValue? a, Number.hexValue? b, Number.hexValue? c, Number.hexValue? d with
    | some a, some b, some c, some d => some (((a * 16 + b) * 16 + c) * 16 + d, rest)
    | _, _, _, _ => none
  | _ => none

/-- A character by its number; beyond the first plane it is written as two units. -/
def readEscapedUnit (text : List Char) : Reading Char :=
  (readUnit text).bind fun (unit, rest) =>
    if 0xD800 ≤ unit && unit ≤ 0xDBFF then
      match rest with
      | '\\' :: 'u' :: after =>
        (readUnit after).bind fun (low, afterLow) =>
          if 0xDC00 ≤ low && low ≤ 0xDFFF then
            some (Char.ofNat (0x10000 + (unit - 0xD800) * 0x400 + (low - 0xDC00)), afterLow)
          else none
      | _ => none
    else if 0xDC00 ≤ unit && unit ≤ 0xDFFF then none
    else some (Char.ofNat unit, rest)

def readEscape : List Char → Reading Char
  | '"' :: rest => some ('"', rest)
  | '\\' :: rest => some ('\\', rest)
  | '/' :: rest => some ('/', rest)
  | 'b' :: rest => some (Char.ofNat 8, rest)
  | 'f' :: rest => some (Char.ofNat 12, rest)
  | 'n' :: rest => some ('\n', rest)
  | 'r' :: rest => some ('\r', rest)
  | 't' :: rest => some ('\t', rest)
  | 'u' :: rest => readEscapedUnit rest
  | _ => none

/-- The characters up to the closing quote; `sofar` holds those read, the last one first. -/
def readQuoted (sofar : List Char) : Nat → List Char → Reading String
  | 0, _ => none
  | _ + 1, [] => none
  | _ + 1, '"' :: rest => some (String.ofList sofar.reverse, rest)
  | fuel + 1, '\\' :: rest =>
    (readEscape rest).bind fun (c, after) => readQuoted (c :: sofar) fuel after
  | fuel + 1, c :: rest =>
    if c.toNat < 32 then none else readQuoted (c :: sofar) fuel rest

def readText (text : List Char) : Reading String :=
  readQuoted [] (text.length + 1) text

def readWord (word : String) (value : Json) (text : List Char) : Reading Json :=
  if word.toList.isPrefixOf text then some (value, text.drop word.length) else none

mutual

/-- A value, blanks before it skipped; at most `depth` brackets may open inside. The fuel bounds the
number of steps. -/
def readValue : Nat → Nat → List Char → Reading Json
  | 0, _, _ => none
  | fuel + 1, depth, text =>
    match skipSpace text with
    | '"' :: rest => (readText rest).map fun (s, after) => (.string s, after)
    | '[' :: rest =>
      match depth with
      | 0 => none
      | depth + 1 =>
        match skipSpace rest with
        | ']' :: after => some (.array [], after)
        | inside => (readItems fuel depth [] inside).map fun (items, after) =>
          (.array items, after)
    | '\x7b' :: rest =>
      match depth with
      | 0 => none
      | depth + 1 =>
        match skipSpace rest with
        | '\x7d' :: after => some (.object [], after)
        | inside => (readMembers fuel depth [] inside).map fun (members, after) =>
          (.object members, after)
    | '-' :: rest => (readUnsigned true rest).map fun (n, after) => (.number n, after)
    | 'n' :: rest => readWord "null" .null ('n' :: rest)
    | 't' :: rest => readWord "true" (.boolean true) ('t' :: rest)
    | 'f' :: rest => readWord "false" (.boolean false) ('f' :: rest)
    | other => (readUnsigned false other).map fun (n, after) => (.number n, after)

/-- The items up to the closing bracket; `sofar` holds those read, the last one first. -/
def readItems : Nat → Nat → List Json → List Char → Reading (List Json)
  | 0, _, _, _ => none
  | fuel + 1, depth, sofar, text =>
    match readValue fuel depth text with
    | none => none
    | some (item, after) =>
      match skipSpace after with
      | ',' :: rest => readItems fuel depth (item :: sofar) rest
      | ']' :: rest => some ((item :: sofar).reverse, rest)
      | _ => none

/-- The members up to the closing brace; `sofar` holds those read, the last one first. -/
def readMembers : Nat → Nat → List (String × Json) → List Char → Reading (List (String × Json))
  | 0, _, _, _ => none
  | fuel + 1, depth, sofar, text =>
    match skipSpace text with
    | '"' :: rest =>
      match readText rest with
      | none => none
      | some (name, afterName) =>
        match skipSpace afterName with
        | ':' :: rest =>
          match readValue fuel depth rest with
          | none => none
          | some (value, after) =>
            match skipSpace after with
            | ',' :: rest => readMembers fuel depth ((name, value) :: sofar) rest
            | '\x7d' :: rest => some (((name, value) :: sofar).reverse, rest)
            | _ => none
        | _ => none
    | _ => none

end

/-- A text that is one value; brackets nest at most `depth` deep. Repeated names are kept. -/
def readWithin? (depth : Nat) (text : String) : Option Json :=
  let chars := text.toList
  match readValue (2 * chars.length + 2) depth chars with
  | some (json, after) => if (skipSpace after).isEmpty then some json else none
  | none => none

/-- Brackets of a document nest at most this deep. -/
def nestingLimit : Nat := 127

def read? (text : String) : Option Json :=
  readWithin? nestingLimit text

end SchemaCodec.Json
