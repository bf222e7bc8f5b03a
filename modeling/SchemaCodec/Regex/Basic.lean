import SchemaCodec.Text.Whitespace
import SchemaCodec.Text.WordCharacter

/-!
Regular expressions. A class is a condition on one character; expressions match stretches of a text
between two places, and look at what lies before and after a place only through their assertions.
-/

namespace SchemaCodec

inductive CharClass where
  | none
  | range (first last : Char)
  | decimalDigit
  | wordCharacter
  | blank
  /-- A class whose letters stand for both cases of the basic alphabet. -/
  | anyCase (inner : CharClass)
  | union (left right : CharClass)
  | intersection (left right : CharClass)
  | complement (inner : CharClass)
deriving DecidableEq, Repr

namespace CharClass

def accepts : CharClass → Char → Bool
  | .none, _ => false
  | .range first last, c => first ≤ c && c ≤ last
  | .decimalDigit, c => Text.isDecimalDigit c
  | .wordCharacter, c => Text.isWordCharacter c
  | .blank, c => Text.isBlank c
  | .anyCase inner, c => inner.accepts c || inner.accepts c.toLower || inner.accepts c.toUpper
  | .union left right, c => left.accepts c || right.accepts c
  | .intersection left right, c => left.accepts c && right.accepts c
  | .complement inner, c => !inner.accepts c

def single (c : Char) : CharClass := .range c c

def notNewline : CharClass := .complement (.single '\n')

end CharClass

inductive Assertion where
  | start
  | finish
  | lineStart
  | lineFinish
  | wordBoundary
  | notWordBoundary
deriving DecidableEq, Repr

inductive Regex where
  | empty
  | charClass (set : CharClass)
  | assertion (condition : Assertion)
  | sequence (first second : Regex)
  | alternative (left right : Regex)
  | star (inner : Regex)
deriving DecidableEq, Repr

/-- A place in a text: how many characters lie before it, those characters, the nearest first, and
the characters after it. -/
structure Place where
  offset : Nat
  before : List Char
  after : List Char
deriving DecidableEq, Repr

namespace Assertion

def holds (assertion : Assertion) (place : Place) : Bool :=
  let wordBefore := place.before.head?.any Text.isWordCharacter
  let wordAfter := place.after.head?.any Text.isWordCharacter
  match assertion with
  | .start => place.before.isEmpty
  | .finish => place.after.isEmpty
  | .lineStart => place.before.head?.all (· = '\n')
  | .lineFinish => place.after.head?.all (· = '\n')
  | .wordBoundary => wordBefore != wordAfter
  | .notWordBoundary => wordBefore == wordAfter

end Assertion

namespace Regex

def ofChars : List Char → Regex
  | [] => .empty
  | c :: rest => .sequence (.charClass (.single c)) (ofChars rest)

def optional (inner : Regex) : Regex := .alternative inner .empty

def plus (inner : Regex) : Regex := .sequence inner (.star inner)

def times (inner : Regex) : Nat → Regex
  | 0 => .empty
  | count + 1 => .sequence inner (times inner count)

def atMost (inner : Regex) : Nat → Regex
  | 0 => .empty
  | count + 1 => optional (.sequence inner (atMost inner count))

/-- At least `least` times, and at most `most` times if that is given. -/
def repeated (inner : Regex) (least : Nat) (most : Option Nat) : Regex :=
  match most with
  | none => .sequence (times inner least) (.star inner)
  | some most => .sequence (times inner least) (atMost inner (most - least))

end Regex

end SchemaCodec
