/-!
JSON data. Objects keep the order of their members; a number remembers whether it was written as a
whole number.
-/

namespace SchemaCodec

/-- A number of a document: a whole number of 64 bits, with or without sign, or a double. -/
inductive JsonNumber where
  | whole (i : Int)
  | real (x : Float)
deriving DecidableEq

inductive Json where
  | null
  | boolean (b : Bool)
  | number (n : JsonNumber)
  | string (text : String)
  | array (items : List Json)
  | object (members : List (String × Json))

end SchemaCodec
