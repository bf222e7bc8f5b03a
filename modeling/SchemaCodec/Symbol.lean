/-!
Symbols, told apart by identity. A supply hands out symbols: each new one differs from all others,
and asking for a registered key twice gives the same symbol twice.
-/

namespace SchemaCodec

/-- A symbol. Its number tells it apart from all other symbols of one supply, as long as the supply has
not given out all numbers of 64 bits. -/
structure Symbol where
  number : UInt64
  description : Option String
  registered : Bool
deriving DecidableEq, Repr

def Symbol.key? (s : Symbol) : Option String :=
  if s.registered then s.description else none

/-- The text of a symbol; one without description shows an empty one. -/
def Symbol.text (s : Symbol) : String :=
  "Symbol(" ++ s.description.getD "" ++ ")"

/-- The next number and the registered symbols by key. After the last number the numbers begin again. -/
structure SymbolSupply where
  next : UInt64
  registered : List (String × Symbol)
deriving Repr

namespace SymbolSupply

def empty : SymbolSupply := ⟨1, []⟩

/-- A symbol unlike all others. -/
def fresh (supply : SymbolSupply) (description : Option String) : Symbol × SymbolSupply :=
  (⟨supply.next, description, false⟩, { supply with next := supply.next + 1 })

/-- The symbol registered under the key, registered now if it was not. -/
def forKey (supply : SymbolSupply) (key : String) : Symbol × SymbolSupply :=
  match supply.registered.lookup key with
  | some symbol => (symbol, supply)
  | none =>
    let symbol : Symbol := ⟨supply.next, some key, true⟩
    (symbol, ⟨supply.next + 1, (key, symbol) :: supply.registered⟩)

inductive Call where
  | describe (description : String)
  | anonymous
  | register (key : String)
deriving DecidableEq, Repr

def answer (supply : SymbolSupply) : Call → Symbol × SymbolSupply
  | .describe description => supply.fresh (some description)
  | .anonymous => supply.fresh none
  | .register key => supply.forKey key

/-- The symbols that a list of calls gives, in order. -/
def answers (supply : SymbolSupply) : List Call → List Symbol
  | [] => []
  | call :: rest =>
    match supply.answer call with
    | (symbol, after) => symbol :: after.answers rest

end SymbolSupply

end SchemaCodec
