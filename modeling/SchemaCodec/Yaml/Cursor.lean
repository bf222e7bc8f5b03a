/-!
Reading a YAML text from its start. The cursor counts lines and columns, because indentation and the
end of a line carry meaning.
-/

namespace SchemaCodec.Yaml

structure Cursor where
  rest : List Char
  offset : Nat
  line : Nat
  column : Nat

namespace Cursor

def start (text : List Char) : Cursor := ⟨text, 0, 0, 0⟩

def next (cursor : Cursor) : Cursor :=
  match cursor.rest with
  | [] => cursor
  | '\n' :: rest => ⟨rest, cursor.offset + 1, cursor.line + 1, 0⟩
  | _ :: rest => ⟨rest, cursor.offset + 1, cursor.line, cursor.column + 1⟩

def skip : Nat → Cursor → Cursor
  | 0, cursor => cursor
  | n + 1, cursor => skip n cursor.next

end Cursor

def isGap (c : Char) : Bool :=
  c = ' ' || c = '\t' || c = '\n'

def startsWithGap : List Char → Bool
  | [] => true
  | c :: _ => isGap c

def startsWithBlank : List Char → Bool
  | [] => false
  | c :: _ => c = ' ' || c = '\t'

/-- Characters that end a plain scalar inside flow collections. -/
def isFlowMark (c : Char) : Bool :=
  c = ',' || c = '[' || c = ']' || c = '\x7b' || c = '\x7d'

/-- Three marks at the start of a line that start or end a document. -/
def Cursor.atMarker (cursor : Cursor) (mark : Char) : Bool :=
  cursor.column = 0 && [mark, mark, mark].isPrefixOf cursor.rest
    && startsWithGap (cursor.rest.drop 3)

def Cursor.atDocumentMarker (cursor : Cursor) : Bool :=
  cursor.atMarker '-' || cursor.atMarker '.'

end SchemaCodec.Yaml
