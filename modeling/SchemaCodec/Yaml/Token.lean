import SchemaCodec.Yaml.Scalar

/-!
The tokens of a YAML text. Indentation opens and closes block collections, and a key is only known
as one when its colon is reached: each token that may be a key is remembered together with its place
among the tokens, and the colon puts a key token, and perhaps the start of a block mapping, back to
that place.

The part of YAML that is read: block and flow collections, plain and quoted scalars, comments, and
document markers. Anchors, tags, directives and block scalars are refused.
-/

namespace SchemaCodec.Yaml

inductive Token where
  | documentStart
  | documentEnd
  | blockSequenceStart
  | blockMappingStart
  | blockEnd
  | flowSequenceStart
  | flowSequenceEnd
  | flowMappingStart
  | flowMappingEnd
  /-- The dash before an item of a block sequence. -/
  | item
  /-- The comma in a flow collection. -/
  | comma
  | key
  | value
  | scalar (text : String) (plain : Bool)
deriving DecidableEq, Repr

/-- A token that may turn out to be a key. -/
structure KeyPlace where
  /-- The number of tokens before it. -/
  before : Nat
  offset : Nat
  line : Nat
  column : Nat
  /-- It stands where nothing but a key may stand. -/
  required : Bool

structure Scan where
  cursor : Cursor
  tokens : List Token
  /-- The columns of the open block collections, the innermost first. -/
  indents : List Nat
  /-- The token of the current flow level that may be a key. -/
  key : Option KeyPlace
  /-- The same for the flow levels around it, the innermost first. -/
  outer : List (Option KeyPlace)
  /-- A key, or an item of a block sequence, may start here. -/
  mayStart : Bool

namespace Scan

def start (text : List Char) : Scan := ⟨.start text, [], [], none, [], true⟩

def inFlow (s : Scan) : Bool := !s.outer.isEmpty

def emit (s : Scan) (token : Token) : Scan := { s with tokens := s.tokens ++ [token] }

def take (s : Scan) (length : Nat) (token : Token) : Scan :=
  { s.emit token with cursor := s.cursor.skip length }

/-- The token that may be a key is none; refused if it had to be one. -/
def dropKey (s : Scan) : Option Scan :=
  if s.key.any KeyPlace.required then none else some { s with key := none }

/-- A key ends on its line and within 1024 characters. -/
def isStale (cursor : Cursor) (key : KeyPlace) : Bool :=
  key.line < cursor.line || key.offset + 1024 < cursor.offset

def dropStale (s : Scan) : Option Scan :=
  let stale (key : Option KeyPlace) : Bool := key.any (isStale s.cursor)
  let keep (key : Option KeyPlace) : Option KeyPlace := key.filter fun k => !isStale s.cursor k
  if (s.key :: s.outer).any fun key => stale key && key.any KeyPlace.required then none
  else some { s with key := keep s.key, outer := s.outer.map keep }

def markKey (s : Scan) : Option Scan :=
  if s.mayStart then
    let required := !s.inFlow && s.indents.head? = some s.cursor.column
    let place : KeyPlace :=
      ⟨s.tokens.length, s.cursor.offset, s.cursor.line, s.cursor.column, required⟩
    s.dropKey.map fun s => { s with key := some place }
  else some s

/-- Put tokens before all but the first `before` tokens. -/
def splice (s : Scan) (before : Nat) (tokens : List Token) : Scan :=
  { s with tokens := s.tokens.take before ++ tokens ++ s.tokens.drop before }

def isDeeper (s : Scan) (column : Nat) : Bool :=
  s.indents.head?.all fun indent => indent < column

def openBlock (s : Scan) (column before : Nat) (token : Token) : Scan :=
  if !s.inFlow && s.isDeeper column then
    { s.splice before [token] with indents := column :: s.indents }
  else s

def closeBlocks (column : Nat) : List Nat → List Nat × List Token
  | [] => ([], [])
  | indent :: rest =>
    if column < indent then
      match closeBlocks column rest with
      | (indents, tokens) => (indents, .blockEnd :: tokens)
    else (indent :: rest, [])

def unindent (s : Scan) : Scan :=
  if s.inFlow then s
  else match closeBlocks s.cursor.column s.indents with
    | (indents, tokens) => { s with indents := indents, tokens := s.tokens ++ tokens }

def closeAll (s : Scan) : Scan :=
  { s with indents := [], tokens := s.tokens ++ s.indents.map fun _ => .blockEnd }

/-- Skip blanks, comments and line ends. A tab may not stand where a key may start. -/
def skipSpace : Nat → Scan → Scan
  | 0, s => s
  | fuel + 1, s =>
    match s.cursor.rest with
    | ' ' :: _ => skipSpace fuel { s with cursor := s.cursor.next }
    | '\t' :: _ =>
      if s.inFlow || !s.mayStart then skipSpace fuel { s with cursor := s.cursor.next } else s
    | '#' :: rest =>
      let comment := (rest.takeWhile fun c => c ≠ '\n').length
      skipSpace fuel { s with cursor := s.cursor.skip (comment + 1) }
    | '\n' :: _ =>
      skipSpace fuel { s with cursor := s.cursor.next, mayStart := s.mayStart || !s.inFlow }
    | _ => s

def documentMarker (s : Scan) (token : Token) : Option Scan :=
  if s.inFlow then none
  else s.closeAll.dropKey.map fun s => { s.take 3 token with mayStart := false }

def openFlow (s : Scan) (token : Token) : Option Scan :=
  s.markKey.map fun s =>
    { s.take 1 token with outer := s.key :: s.outer, key := none, mayStart := true }

def closeFlow (s : Scan) (token : Token) : Option Scan :=
  s.dropKey.bind fun s =>
    match s.outer with
    | [] => none
    | key :: outer => some { s.take 1 token with key := key, outer := outer, mayStart := false }

def comma (s : Scan) : Option Scan :=
  s.dropKey.map fun s => { s.take 1 .comma with mayStart := true }

def item (s : Scan) : Option Scan :=
  if s.inFlow || !s.mayStart then none
  else (s.openBlock s.cursor.column s.tokens.length .blockSequenceStart).dropKey.map fun s =>
    { s.take 1 .item with mayStart := true }

def explicitKey (s : Scan) : Option Scan :=
  if !s.inFlow && !s.mayStart then none
  else (s.openBlock s.cursor.column s.tokens.length .blockMappingStart).dropKey.map fun s =>
    { s.take 1 .key with mayStart := !s.inFlow }

def colon (s : Scan) : Option Scan :=
  match s.key with
  | some key =>
    let keyed := (s.splice key.before [.key]).openBlock key.column key.before .blockMappingStart
    some { keyed.take 1 .value with key := none, mayStart := false }
  | none =>
    if !s.inFlow && !s.mayStart then none
    else
      let opened := s.openBlock s.cursor.column s.tokens.length .blockMappingStart
      some { opened.take 1 .value with mayStart := !s.inFlow }

def quoted (s : Scan) (double : Bool) : Option Scan :=
  s.markKey.bind fun s =>
    (takeQuoted double (s.cursor.rest.length + 1) [] s.cursor.next).map fun (text, after) =>
      { s.emit (.scalar text false) with cursor := after, mayStart := false }

def plain (s : Scan) : Option Scan :=
  s.markKey.bind fun s =>
    let indent := match s.indents.head? with
      | some column => column + 1
      | none => 0
    (takePlain s.inFlow indent (s.cursor.rest.length + 1) [] .empty s.cursor).map
      fun (text, broken, after) =>
        { s.emit (.scalar text true) with cursor := after, mayStart := broken }

def isIndicator (c : Char) : Bool :=
  isFlowMark c || "-?:#&*!|>'\"%@".toList.contains c || c.toNat = 0x60

/-- A plain scalar may start with a dash, a question mark or a colon that a gap does not follow. -/
def startsPlain (inFlow : Bool) : List Char → Bool
  | [] => false
  | c :: rest =>
    !(isGap c || isIndicator c) || (c = '-' && !startsWithBlank rest)
      || (!inFlow && (c = '?' || c = ':') && !startsWithGap rest)

/-- Read one token; the cursor is at its first character. -/
def token (s : Scan) : Option Scan :=
  let gapNext := startsWithGap (s.cursor.rest.drop 1)
  if s.cursor.atMarker '-' then s.documentMarker .documentStart
  else if s.cursor.atMarker '.' then s.documentMarker .documentEnd
  else match s.cursor.rest with
    | '[' :: _ => s.openFlow .flowSequenceStart
    | '\x7b' :: _ => s.openFlow .flowMappingStart
    | ']' :: _ => s.closeFlow .flowSequenceEnd
    | '\x7d' :: _ => s.closeFlow .flowMappingEnd
    | ',' :: _ => if s.inFlow then s.comma else none
    | '"' :: _ => s.quoted true
    | '\'' :: _ => s.quoted false
    | c :: _ =>
      if c = '-' && gapNext then s.item
      else if c = '?' && (s.inFlow || gapNext) then s.explicitKey
      else if c = ':' && (s.inFlow || gapNext) then s.colon
      else if c = '%' && s.cursor.column = 0 then none
      else if startsPlain s.inFlow s.cursor.rest then s.plain
      else none
    | [] => none

def run : Nat → Scan → Option (List Token)
  | 0, _ => none
  | fuel + 1, s =>
    (skipSpace (s.cursor.rest.length + 1) s).dropStale.bind fun s =>
      let s := s.unindent
      if s.cursor.rest.isEmpty then
        if s.inFlow then none else s.closeAll.dropKey.map (·.tokens)
      else s.token.bind (run fuel)

end Scan

def normalBreaks : List Char → List Char
  | [] => []
  | '\r' :: '\n' :: rest => '\n' :: normalBreaks rest
  | '\r' :: rest => '\n' :: normalBreaks rest
  | c :: rest => (if c.toNat = 0x85 then '\n' else c) :: normalBreaks rest

def isPrintable (c : Char) : Bool :=
  let n := c.toNat
  n = 9 || n = 10 || n = 13 || (0x20 ≤ n && n ≤ 0x7E) || n = 0x85
    || (0xA0 ≤ n && n ≤ 0xFFFD && n ≠ 0xFEFF) || 0x10000 ≤ n

def tokens? (text : String) : Option (List Token) :=
  let chars := text.toList
  if chars.all isPrintable then
    let normal := normalBreaks chars
    Scan.run (normal.length + 1) (.start normal)
  else none

end SchemaCodec.Yaml
