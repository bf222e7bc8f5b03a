import SchemaCodec.Yaml.Cursor

/-!
The texts of YAML scalars. A scalar may go on over several lines: the end of a line stands for a blank,
and empty lines stand for line ends. Plain scalars end before comments and at marks of the structure
around them, quoted ones at their closing quote.
-/

namespace SchemaCodec.Yaml

/-- The blanks and line ends between two parts of a scalar. One line end becomes a blank; of more, all
but the first are kept. An escaped line end keeps all that follow it. -/
structure Gap where
  blanks : List Char
  /-- A line has ended, and whether that end counts as a blank. -/
  broken : Option Bool
  extraBreaks : Nat

namespace Gap

def empty : Gap := ⟨[], none, 0⟩

/-- What the gap stands for. -/
def text (gap : Gap) : List Char :=
  match gap.broken with
  | none => gap.blanks
  | some foldable =>
    if foldable && gap.extraBreaks = 0 then [' '] else List.replicate gap.extraBreaks '\n'

def addBlank (gap : Gap) (c : Char) : Gap :=
  match gap.broken with
  | none => { gap with blanks := gap.blanks ++ [c] }
  | some _ => gap

def addBreak (gap : Gap) : Gap :=
  match gap.broken with
  | none => { gap with broken := some true }
  | some _ => { gap with extraBreaks := gap.extraBreaks + 1 }

end Gap

def takeGap : Nat → Gap → Cursor → Gap × Cursor
  | 0, gap, cursor => (gap, cursor)
  | fuel + 1, gap, cursor =>
    match cursor.rest with
    | '\n' :: _ => takeGap fuel gap.addBreak cursor.next
    | c :: _ =>
      if c = ' ' || c = '\t' then takeGap fuel (gap.addBlank c) cursor.next else (gap, cursor)
    | [] => (gap, cursor)

def takeHex : Nat → Nat → Cursor → Option (Nat × Cursor)
  | 0, sofar, cursor => some (sofar, cursor)
  | digits + 1, sofar, cursor =>
    match cursor.rest with
    | c :: _ =>
      if c.isDigit then takeHex digits (16 * sofar + (c.toNat - 48)) cursor.next
      else if 'a' ≤ c && c ≤ 'f' then takeHex digits (16 * sofar + (c.toNat - 87)) cursor.next
      else if 'A' ≤ c && c ≤ 'F' then takeHex digits (16 * sofar + (c.toNat - 55)) cursor.next
      else none
    | [] => none

/-- A character by its number; numbers that are no characters are refused. -/
def takeNumbered (digits : Nat) (cursor : Cursor) : Option (Char × Cursor) :=
  (takeHex digits 0 cursor).bind fun (code, after) =>
    if code.isValidChar then some (Char.ofNat code, after) else none

/-- The character that an escape stands for; the cursor is behind the backslash. -/
def takeEscape (cursor : Cursor) : Option (Char × Cursor) :=
  let plain (c : Char) : Option (Char × Cursor) := some (c, cursor.next)
  match cursor.rest with
  | [] => none
  | '0' :: _ => plain (Char.ofNat 0)
  | 'a' :: _ => plain (Char.ofNat 7)
  | 'b' :: _ => plain (Char.ofNat 8)
  | 't' :: _ => plain '\t'
  | '\t' :: _ => plain '\t'
  | 'n' :: _ => plain '\n'
  | 'v' :: _ => plain (Char.ofNat 11)
  | 'f' :: _ => plain (Char.ofNat 12)
  | 'r' :: _ => plain '\r'
  | 'e' :: _ => plain (Char.ofNat 27)
  | ' ' :: _ => plain ' '
  | '"' :: _ => plain '"'
  | '/' :: _ => plain '/'
  | '\\' :: _ => plain '\\'
  | 'N' :: _ => plain (Char.ofNat 0x85)
  | '_' :: _ => plain (Char.ofNat 0xA0)
  | 'L' :: _ => plain (Char.ofNat 0x2028)
  | 'P' :: _ => plain (Char.ofNat 0x2029)
  | 'x' :: _ => takeNumbered 2 cursor.next
  | 'u' :: _ => takeNumbered 4 cursor.next
  | 'U' :: _ => takeNumbered 8 cursor.next
  | _ => none

/-- The text up to the closing quote; `sofar` holds what was read, the last character first. Two single
quotes stand for one, and backslashes escape inside double quotes. -/
def takeQuoted (double : Bool) : Nat → List Char → Cursor → Option (String × Cursor)
  | 0, _, _ => none
  | fuel + 1, sofar, cursor =>
    if cursor.atDocumentMarker then none
    else match cursor.rest with
      | [] => none
      | c :: rest =>
        if isGap c then
          match takeGap (fuel + 1) .empty cursor with
          | (gap, after) => takeQuoted double fuel (gap.text.reverse ++ sofar) after
        else if double then
          if c = '"' then some (String.ofList sofar.reverse, cursor.next)
          else if c = '\\' then
            if rest.head? = some '\n' then
              match takeGap (fuel + 1) ⟨[], some false, 0⟩ (cursor.skip 2) with
              | (gap, after) => takeQuoted double fuel (gap.text.reverse ++ sofar) after
            else (takeEscape cursor.next).bind fun (escaped, after) =>
              takeQuoted double fuel (escaped :: sofar) after
          else takeQuoted double fuel (c :: sofar) cursor.next
        else if c = '\'' then
          if rest.head? = some '\'' then takeQuoted double fuel ('\'' :: sofar) (cursor.skip 2)
          else some (String.ofList sofar.reverse, cursor.next)
        else takeQuoted double fuel (c :: sofar) cursor.next

/-- A plain scalar ends at a colon before a gap, and inside flow collections at their marks. -/
def endsPlain (inFlow : Bool) (text : List Char) : Bool :=
  match text with
  | ':' :: rest => startsWithGap rest
  | c :: _ => inFlow && isFlowMark c
  | [] => true

/-- The characters of a plain scalar up to a gap or its end, the last one first. Inside flow collections
a colon right before one of their marks is refused. -/
def takePlainPart (inFlow : Bool) : Nat → List Char → Cursor → Option (List Char × Cursor)
  | 0, _, _ => none
  | fuel + 1, sofar, cursor =>
    match cursor.rest with
    | [] => some (sofar, cursor)
    | c :: rest =>
      if isGap c then some (sofar, cursor)
      else if inFlow && c = ':' && (rest.head?.any fun d => isFlowMark d || d = '?') then none
      else if endsPlain inFlow (c :: rest) then some (sofar, cursor)
      else takePlainPart inFlow fuel (c :: sofar) cursor.next

def tabIndents (indent : Nat) : Nat → Bool → Cursor → Bool
  | 0, _, _ => false
  | fuel + 1, broken, cursor =>
    match cursor.rest with
    | '\n' :: _ => tabIndents indent fuel true cursor.next
    | ' ' :: _ => tabIndents indent fuel broken cursor.next
    | '\t' :: _ => (broken && cursor.column < indent) || tabIndents indent fuel broken cursor.next
    | _ => false

/-- A plain scalar: its text, whether it is followed by the end of a line, and the cursor behind the
blanks after it. It goes on over lines that are indented at least as deep as `indent`. -/
def takePlain (inFlow : Bool) (indent : Nat) :
    Nat → List Char → Gap → Cursor → Option (String × Bool × Cursor)
  | 0, _, _, _ => none
  | fuel + 1, sofar, gap, cursor =>
    let done : Option (String × Bool × Cursor) :=
      some (String.ofList sofar.reverse, gap.broken.isSome, cursor)
    if cursor.atDocumentMarker || cursor.rest.head? = some '#' then done
    else match takePlainPart inFlow (fuel + 1) [] cursor with
      | none => none
      | some ([], _) => done
      | some (part, after) =>
        let joined := part ++ gap.text.reverse ++ sofar
        if !(startsWithGap after.rest) || after.rest.isEmpty then
          some (String.ofList joined.reverse, false, after)
        else if tabIndents indent (fuel + 1) false after then none
        else match takeGap (fuel + 1) .empty after with
          | (next, further) =>
            if !inFlow && further.column < indent then
              some (String.ofList joined.reverse, next.broken.isSome, further)
            else takePlain inFlow indent fuel joined next further

end SchemaCodec.Yaml
