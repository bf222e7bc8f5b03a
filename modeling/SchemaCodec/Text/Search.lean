/-!
Finding one text in another, and cutting a text at every occurrence of a separator from left to
right. Occurrences do not overlap, and an empty separator lies before, between and after all
characters.
-/

namespace SchemaCodec.Text

def containsChars (needle : List Char) : List Char → Bool
  | [] => needle.isEmpty
  | c :: rest => needle.isPrefixOf (c :: rest) || containsChars needle rest

def contains (text needle : String) : Bool :=
  containsChars needle.toList text.toList

def startsWith (text start : String) : Bool :=
  start.toList.isPrefixOf text.toList

def endsWith (text ending : String) : Bool :=
  ending.toList.isSuffixOf text.toList

/-- The first piece and the pieces after it; `skip` characters of a separator are still to come. -/
def pieces (separator : List Char) : Nat → List Char → List Char × List (List Char)
  | _, [] => ([], [])
  | skip + 1, _ :: rest => pieces separator skip rest
  | 0, c :: rest =>
    if separator.isPrefixOf (c :: rest) then
      match pieces separator (separator.length - 1) rest with
      | (piece, others) => ([], piece :: others)
    else
      match pieces separator 0 rest with
      | (piece, others) => (c :: piece, others)

/-- All pieces between occurrences of the separator. -/
def splitChars (separator text : List Char) : List (List Char) :=
  match separator with
  | [] => [] :: (text.map ([·]) ++ [[]])
  | _ :: _ =>
    match pieces separator 0 text with
    | (piece, others) => piece :: others

def split (text separator : String) : List String :=
  (splitChars separator.toList text.toList).map String.ofList

end SchemaCodec.Text
