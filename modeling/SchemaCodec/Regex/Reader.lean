import SchemaCodec.Number.Integer
import SchemaCodec.Regex.Basic

/-!
Reading regular expressions. Groups, alternation, classes with nesting and set operations, counted
repetition, flags and the usual escapes are known; looking around a place and referring back to a
group are not.
-/

namespace SchemaCodec.Regex

abbrev Reading (α : Type) := Option (α × List Char)

/-- Switches that hold from where they are set to the end of the group. -/
structure Flags where
  anyCase : Bool := false
  lines : Bool := false
  dotIsAll : Bool := false
  spaced : Bool := false
deriving DecidableEq, Repr

/-- Characters with a meaning of their own outside or inside of classes. -/
def isMeta (c : Char) : Bool :=
  "\\.+*?()|[]\x7b\x7d^$#&-~".toList.contains c

/-- Characters that stand for themselves after a backslash. -/
def isEscapable (c : Char) : Bool :=
  isMeta c || (c.toNat < 128 && !c.isAlphanum && c ≠ '<' && c ≠ '>')

/-- Skip blanks and comments if the flags ask for it; a comment ends with its line. -/
def skipSpaced (spaced : Bool) : Bool → List Char → List Char
  | _, [] => []
  | inComment, c :: rest =>
    if !spaced then c :: rest
    else if inComment then skipSpaced spaced (c ≠ '\n') rest
    else if Text.isBlank c then skipSpaced spaced false rest
    else if c = '#' then skipSpaced spaced true rest
    else c :: rest

def skipSpace (flags : Flags) (text : List Char) : List Char :=
  skipSpaced flags.spaced false text

inductive Escape where
  | char (c : Char)
  | set (set : CharClass)
  | place (condition : Assertion)

def charOf? (n : Nat) : Option Char :=
  if n < 0xD800 || (0xDFFF < n && n < 0x110000) then some (Char.ofNat n) else none

def readHex? (digits : List Char) : Option Nat :=
  digits.foldlM (fun n c => (Number.hexValue? c).map (16 * n + ·)) 0

def readHexChar (count : Nat) : List Char → Reading Char
  | '\x7b' :: rest =>
    let digits := rest.takeWhile (· ≠ '\x7d')
    match rest.drop digits.length with
    | _ :: after =>
      if digits.isEmpty then none
      else (readHex? digits).bind fun n => (charOf? n).map (·, after)
    | [] => none
  | text =>
    let digits := text.take count
    if digits.length < count then none
    else (readHex? digits).bind fun n => (charOf? n).map (·, text.drop count)

def readEscape : List Char → Reading Escape
  | [] => none
  | c :: rest =>
    if isEscapable c then some (.char c, rest)
    else match c with
      | 'd' => some (.set .decimalDigit, rest)
      | 'D' => some (.set (.complement .decimalDigit), rest)
      | 's' => some (.set .blank, rest)
      | 'S' => some (.set (.complement .blank), rest)
      | 'w' => some (.set .wordCharacter, rest)
      | 'W' => some (.set (.complement .wordCharacter), rest)
      | 'x' => (readHexChar 2 rest).map fun (c, after) => (.char c, after)
      | 'u' => (readHexChar 4 rest).map fun (c, after) => (.char c, after)
      | 'U' => (readHexChar 8 rest).map fun (c, after) => (.char c, after)
      | 'a' => some (.char (Char.ofNat 7), rest)
      | 'f' => some (.char (Char.ofNat 12), rest)
      | 't' => some (.char '\t', rest)
      | 'n' => some (.char '\n', rest)
      | 'r' => some (.char '\r', rest)
      | 'v' => some (.char (Char.ofNat 11), rest)
      | 'A' => some (.place .start, rest)
      | 'z' => some (.place .finish, rest)
      | 'b' => some (.place .wordBoundary, rest)
      | 'B' => some (.place .notWordBoundary, rest)
      | _ => none

def ofRanges (ranges : List (Char × Char)) : CharClass :=
  ranges.foldr (fun r rest => .union (.range r.1 r.2) rest) .none

def namedClass? (name : String) : Option CharClass :=
  match name with
  | "alnum" => some (ofRanges [('0', '9'), ('A', 'Z'), ('a', 'z')])
  | "alpha" => some (ofRanges [('A', 'Z'), ('a', 'z')])
  | "ascii" => some (.range (Char.ofNat 0) (Char.ofNat 127))
  | "blank" => some (ofRanges [('\t', '\t'), (' ', ' ')])
  | "cntrl" => some (ofRanges [(Char.ofNat 0, Char.ofNat 31), (Char.ofNat 127, Char.ofNat 127)])
  | "digit" => some (.range '0' '9')
  | "graph" => some (.range '!' '~')
  | "lower" => some (.range 'a' 'z')
  | "print" => some (.range ' ' '~')
  | "punct" => some (ofRanges [('!', '/'), (':', '@'), ('[', Char.ofNat 96), ('\x7b', '~')])
  | "space" => some (ofRanges [('\t', '\r'), (' ', ' ')])
  | "upper" => some (.range 'A' 'Z')
  | "word" => some (ofRanges [('0', '9'), ('A', 'Z'), ('_', '_'), ('a', 'z')])
  | "xdigit" => some (ofRanges [('0', '9'), ('A', 'F'), ('a', 'f')])
  | _ => none

def Flags.cased (flags : Flags) (set : CharClass) : CharClass :=
  if flags.anyCase then .anyCase set else set

def readNamedClass (flags : Flags) : List Char → Reading CharClass
  | ':' :: rest =>
    let negated := rest.head? = some '^'
    let named := if negated then rest.drop 1 else rest
    let name := named.takeWhile (· ≠ ':')
    match named.drop name.length with
    | ':' :: ']' :: after =>
      (namedClass? (String.ofList name)).map fun set =>
        (if negated then .complement (flags.cased set) else flags.cased set, after)
    | _ => none
  | _ => none

def readClassItem : List Char → Reading (Char ⊕ CharClass)
  | '\\' :: rest =>
    match readEscape rest with
    | some (.char c, after) => some (.inl c, after)
    | some (.set set, after) => some (.inr set, after)
    | _ => none
  | c :: rest => some (.inl c, rest)
  | [] => none

def readClassRange (flags : Flags) (text : List Char) : Reading CharClass :=
  match readClassItem text with
  | none => none
  | some (first, after) =>
    let alone : Reading CharClass := match first with
      | .inl c => some (flags.cased (.single c), after)
      | .inr set => some (set, after)
    match skipSpace flags after with
    | '-' :: rest =>
      match skipSpace flags rest with
      | [] => none
      | next :: inside =>
        if next = ']' || next = '-' then alone
        else match first, readClassItem (next :: inside) with
          | .inl low, some (.inl high, afterRange) =>
            if low ≤ high then some (flags.cased (.range low high), afterRange) else none
          | _, _ => none
    | _ => alone

inductive SetOperator where
  | intersection
  | difference
  | symmetricDifference

def SetOperator.apply : SetOperator → CharClass → CharClass → CharClass
  | .intersection, left, right => .intersection left right
  | .difference, left, right => .intersection left (.complement right)
  | .symmetricDifference, left, right =>
    .union (.intersection left (.complement right)) (.intersection right (.complement left))

def settle (pending : Option (CharClass × SetOperator)) (items : CharClass) : CharClass :=
  match pending with
  | none => items
  | some (left, operator) => operator.apply left items

/-- Characters that a class may begin with although they mean something later: hyphens, or else one
closing bracket. -/
def takeLeading (text : List Char) : CharClass × List Char :=
  let hyphens := text.takeWhile (· = '-')
  let after := text.drop hyphens.length
  if !hyphens.isEmpty then (.single '-', after)
  else match after with
    | ']' :: rest => (.single ']', rest)
    | _ => (.none, after)

def openClass (flags : Flags) (text : List Char) : Bool × CharClass × List Char :=
  let negated := text.head? = some '^'
  let body := skipSpace flags (if negated then text.drop 1 else text)
  (negated, takeLeading body)

def readClass (flags : Flags) :
    Nat → Option (CharClass × SetOperator) → CharClass → List Char → Reading CharClass
  | 0, _, _, _ => none
  | fuel + 1, pending, items, text =>
    let combine (operator : SetOperator) (rest : List Char) : Reading CharClass :=
      readClass flags fuel (some (settle pending items, operator)) .none rest
    match skipSpace flags text with
    | [] => none
    | ']' :: rest => some (settle pending items, rest)
    | '&' :: '&' :: rest => combine .intersection rest
    | '-' :: '-' :: rest => combine .difference rest
    | '~' :: '~' :: rest => combine .symmetricDifference rest
    | '[' :: rest =>
      match readNamedClass flags rest with
      | some (set, after) => readClass flags fuel pending (.union items set) after
      | none =>
        match openClass flags rest with
        | (negated, leading, inside) =>
          match readClass flags fuel none leading inside with
          | some (set, after) =>
            readClass flags fuel pending
              (.union items (if negated then .complement set else set)) after
          | none => none
    | other =>
      match readClassRange flags other with
      | some (set, after) => readClass flags fuel pending (.union items set) after
      | none => none

/-- Copies of an expression in one repetition are limited. -/
def repetitionLimit : Nat := 100000

def readCount (text : List Char) : Reading Nat :=
  let trimmed := text.dropWhile Text.isBlank
  match trimmed.takeWhile Char.isDigit with
  | [] => none
  | digits =>
    let n := Number.ofDigits 0 digits
    if repetitionLimit < n then none
    else some (n, (trimmed.drop digits.length).dropWhile Text.isBlank)

def readBounds (text : List Char) : Reading (Nat × Option Nat) :=
  match readCount text with
  | some (least, '\x7d' :: rest) => some ((least, some least), rest)
  | some (least, ',' :: rest) =>
    match rest.dropWhile Text.isBlank with
    | '\x7d' :: after => some ((least, none), after)
    | upper =>
      match readCount upper with
      | some (most, '\x7d' :: after) => if least ≤ most then some ((least, some most), after) else none
      | _ => none
  | _ => none

/-- Skip the mark of a repetition that prefers few copies: it does not change what is found. -/
def skipLazyMark : List Char → List Char
  | '?' :: rest => rest
  | rest => rest

/-- Flags up to a colon or a closing parenthesis; gives the flags and which of the two it was. -/
def readFlags (flags : Flags) (negated : Bool) (any : Bool) : List Char → Reading (Flags × Bool)
  | ':' :: rest => if negated && !any then none else some ((flags, true), rest)
  | ')' :: rest => if any then some ((flags, false), rest) else none
  | '-' :: rest => if negated then none else readFlags flags true false rest
  | 'i' :: rest => readFlags { flags with anyCase := !negated } negated true rest
  | 'm' :: rest => readFlags { flags with lines := !negated } negated true rest
  | 's' :: rest => readFlags { flags with dotIsAll := !negated } negated true rest
  | 'x' :: rest => readFlags { flags with spaced := !negated } negated true rest
  | 'U' :: rest => readFlags flags negated true rest
  | 'u' :: rest => if negated then none else readFlags flags negated true rest
  | _ => none

def skipGroupName (text : List Char) : Option (List Char) :=
  let isNameStart (c : Char) := c = '_' || c.isAlpha
  let isNameRest (c : Char) := c.isAlphanum || c = '_' || c = '.' || c = '[' || c = ']'
  match text with
  | c :: rest =>
    if !isNameStart c then none
    else match rest.dropWhile isNameRest with
      | '>' :: after => some after
      | _ => none
  | [] => none

/-- Expressions one after the other. Flags among them match the empty text. -/
def joined : List (Option Regex) → Regex
  | [] => .empty
  | none :: rest => joined rest
  | some item :: rest => .sequence item (joined rest)

/-- One of the alternatives; the last of the list is the first of the text. -/
def oneOf (last : Regex) (others : List Regex) : Regex :=
  others.foldl (fun right left => .alternative left right) last

/-- Repeat the last item, which must not be a flag. -/
def repeatLast (repeatItem : Regex → Regex) : List (Option Regex) → Option (List (Option Regex))
  | some item :: rest => some (some (repeatItem item) :: rest)
  | _ => none

/-- The rest of a group up to its closing parenthesis, or of the whole expression up to the end of
the text. `items` holds what was read of the current alternative and `alternatives` the ones before
it, the last one first. -/
def readGroup (isGroup : Bool) :
    Nat → Flags → List (Option Regex) → List Regex → List Char → Reading Regex
  | 0, _, _, _, _ => none
  | fuel + 1, flags, items, alternatives, text =>
    let go (item : Option Regex) (rest : List Char) : Reading Regex :=
      readGroup isGroup fuel flags (item :: items) alternatives rest
    let finish (rest : List Char) : Reading Regex :=
      some (oneOf (joined items.reverse) alternatives, rest)
    let again (repeatItem : Regex → Regex) (rest : List Char) : Reading Regex :=
      match repeatLast repeatItem items with
      | some items => readGroup isGroup fuel flags items alternatives (skipLazyMark rest)
      | none => none
    let inner (flags : Flags) (rest : List Char) : Reading Regex :=
      match readGroup true fuel flags [] [] rest with
      | some (regex, after) => go (some regex) after
      | none => none
    match skipSpace flags text with
    | [] => if isGroup then none else finish []
    | ')' :: rest => if isGroup then finish rest else none
    | '|' :: rest =>
      readGroup isGroup fuel flags [] (joined items.reverse :: alternatives) rest
    | '*' :: rest => again .star rest
    | '+' :: rest => again plus rest
    | '?' :: rest => again optional rest
    | '\x7b' :: rest =>
      match readBounds rest with
      | some ((least, most), after) => again (fun item => repeated item least most) after
      | none => none
    | '(' :: '?' :: 'P' :: '<' :: rest => (skipGroupName rest).bind (inner flags)
    | '(' :: '?' :: '<' :: rest => (skipGroupName rest).bind (inner flags)
    | '(' :: '?' :: rest =>
      match readFlags flags false false rest with
      | some ((inside, true), after) =>
        match readGroup true fuel inside [] [] after with
        | some (regex, afterGroup) => go (some regex) afterGroup
        | none => none
      | some ((onward, false), after) =>
        readGroup isGroup fuel onward (none :: items) alternatives after
      | none => none
    | '(' :: rest => inner flags rest
    | '[' :: rest =>
      match openClass flags rest with
      | (negated, leading, inside) =>
        match readClass flags (inside.length + 1) none leading inside with
        | some (set, after) =>
          go (some (.charClass (if negated then .complement set else set))) after
        | none => none
    | '.' :: rest =>
      go (some (.charClass (if flags.dotIsAll then .complement .none else .notNewline))) rest
    | '^' :: rest => go (some (.assertion (if flags.lines then .lineStart else .start))) rest
    | '$' :: rest => go (some (.assertion (if flags.lines then .lineFinish else .finish))) rest
    | '\\' :: rest =>
      match readEscape rest with
      | some (.char c, after) => go (some (.charClass (flags.cased (.single c)))) after
      | some (.set set, after) => go (some (.charClass set)) after
      | some (.place condition, after) => go (some (.assertion condition)) after
      | none => none
    | c :: rest => go (some (.charClass (flags.cased (.single c)))) rest

def read? (text : String) : Option Regex :=
  let chars := text.toList
  (readGroup false (chars.length + 1) {} [] [] chars).map (·.1)

end SchemaCodec.Regex
