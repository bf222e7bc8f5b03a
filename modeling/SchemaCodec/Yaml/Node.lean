import SchemaCodec.Yaml.Token

/-!
The tree of a YAML text. A place where a value is left out holds an empty plain scalar, and so does an
empty text. A text is one document.
-/

namespace SchemaCodec.Yaml

inductive Node where
  | scalar (text : String) (plain : Bool)
  | sequence (items : List Node)
  | mapping (entries : List (Node × Node))
deriving Inhabited

namespace Node

/-- A value that is left out. -/
def absent : Node := .scalar "" true

/-- Where a node stands decides which tokens mean that it is left out. -/
inductive Place where
  /-- The value of a document. -/
  | document
  /-- An item of a block sequence that is indented. -/
  | item
  /-- An item of a block sequence that is not indented deeper than the key of its mapping. -/
  | flatItem
  /-- A key or a value of a block mapping. -/
  | blockMember
  /-- A key in a flow collection. -/
  | flowKey
  /-- A value in a flow collection. -/
  | flowValue

/-- The next token shows that the node is left out. -/
def Place.leftOut : Place → Option Token → Bool
  | _, none => true
  | .document, some _ => false
  | .item, some token => token = .item || token = .blockEnd
  | .flatItem, some token =>
    token = .item || token = .key || token = .value || token = .blockEnd
  | .blockMember, some token => token = .key || token = .value || token = .blockEnd
  | .flowKey, some token =>
    token = .value || token = .comma || token = .flowSequenceEnd || token = .flowMappingEnd
  | .flowValue, some token =>
    token = .comma || token = .flowSequenceEnd || token = .flowMappingEnd

def Place.isBlock : Place → Bool
  | .flowKey => false
  | .flowValue => false
  | _ => true

abbrev Reading (α : Type) := Option (α × List Token)

mutual

def readAt (place : Place) : Nat → List Token → Reading Node
  | 0, _ => none
  | fuel + 1, tokens =>
    if place.leftOut tokens.head? then some (absent, tokens)
    else match tokens with
      | .scalar text plain :: rest => some (.scalar text plain, rest)
      | .flowSequenceStart :: .flowSequenceEnd :: rest => some (.sequence [], rest)
      | .flowSequenceStart :: rest => (readFlowItems fuel [] rest).map (Prod.map sequence id)
      | .flowMappingStart :: .flowMappingEnd :: rest => some (.mapping [], rest)
      | .flowMappingStart :: rest => (readFlowMembers fuel [] rest).map (Prod.map mapping id)
      | .blockSequenceStart :: rest =>
        if place.isBlock then (readItems fuel [] rest).map (Prod.map sequence id) else none
      | .blockMappingStart :: rest =>
        if place.isBlock then (readMembers fuel [] rest).map (Prod.map mapping id) else none
      | .item :: _ =>
        if place matches .blockMember then
          (readFlatItems fuel [] tokens).map (Prod.map sequence id)
        else none
      | _ => none

/-- The items of a block sequence up to its end; `sofar` holds those read, the last one first. -/
def readItems : Nat → List Node → List Token → Reading (List Node)
  | 0, _, _ => none
  | fuel + 1, sofar, tokens =>
    match tokens with
    | .item :: rest =>
      (readAt .item fuel rest).bind fun (node, after) => readItems fuel (node :: sofar) after
    | .blockEnd :: rest => some (sofar.reverse, rest)
    | _ => none

def readFlatItems : Nat → List Node → List Token → Reading (List Node)
  | 0, _, _ => none
  | fuel + 1, sofar, tokens =>
    match tokens with
    | .item :: rest =>
      (readAt .flatItem fuel rest).bind fun (node, after) =>
        readFlatItems fuel (node :: sofar) after
    | _ => some (sofar.reverse, tokens)

def readValue (place : Place) : Nat → List Token → Reading Node
  | 0, _ => none
  | fuel + 1, tokens =>
    match tokens with
    | .value :: rest => readAt place fuel rest
    | _ => some (absent, tokens)

def readMembers : Nat → List (Node × Node) → List Token → Reading (List (Node × Node))
  | 0, _, _ => none
  | fuel + 1, sofar, tokens =>
    match tokens with
    | .key :: rest =>
      (readAt .blockMember fuel rest).bind fun (key, after) =>
        (readValue .blockMember fuel after).bind fun (value, after) =>
          readMembers fuel ((key, value) :: sofar) after
    | .blockEnd :: rest => some (sofar.reverse, rest)
    | _ => none

/-- The items of a flow sequence up to its end. An item with a colon is a mapping of one member. -/
def readFlowItems : Nat → List Node → List Token → Reading (List Node)
  | 0, _, _ => none
  | fuel + 1, sofar, tokens =>
    let item : Reading Node := match tokens with
      | .key :: rest =>
        (readAt .flowKey fuel rest).bind fun (key, after) =>
          (readValue .flowValue fuel after).map fun (value, after) =>
            (.mapping [(key, value)], after)
      | .comma :: _ => none
      | .flowSequenceEnd :: _ => none
      | _ => readAt .flowValue fuel tokens
    item.bind fun (node, after) =>
      match after with
      | .comma :: .flowSequenceEnd :: rest => some ((node :: sofar).reverse, rest)
      | .comma :: rest => readFlowItems fuel (node :: sofar) rest
      | .flowSequenceEnd :: rest => some ((node :: sofar).reverse, rest)
      | _ => none

def readFlowMembers : Nat → List (Node × Node) → List Token → Reading (List (Node × Node))
  | 0, _, _ => none
  | fuel + 1, sofar, tokens =>
    let member : Reading (Node × Node) := match tokens with
      | .key :: rest =>
        (readAt .flowKey fuel rest).bind fun (key, after) =>
          (readValue .flowValue fuel after).map fun (value, after) => ((key, value), after)
      | .comma :: _ => none
      | .flowMappingEnd :: _ => none
      | _ => (readAt .flowValue fuel tokens).map fun (key, after) => ((key, absent), after)
    member.bind fun (entry, after) =>
      match after with
      | .comma :: .flowMappingEnd :: rest => some ((entry :: sofar).reverse, rest)
      | .comma :: rest => readFlowMembers fuel (entry :: sofar) rest
      | .flowMappingEnd :: rest => some ((entry :: sofar).reverse, rest)
      | _ => none

end

mutual

def depth : Node → Nat
  | .scalar _ _ => 0
  | .sequence items => itemsDepth items + 1
  | .mapping entries => entriesDepth entries + 1

def itemsDepth : List Node → Nat
  | [] => 0
  | item :: rest => max item.depth (itemsDepth rest)

def entriesDepth : List (Node × Node) → Nat
  | [] => 0
  | (key, value) :: rest => max (max key.depth value.depth) (entriesDepth rest)

end

/-- Collections of a document nest at most this deep. -/
def nestingLimit : Nat := 128

/-- The node of one document with the tokens after it; after a marker it may be left out. -/
def readDocument (tokens : List Token) : Reading Node :=
  let fuel := 4 * tokens.length + 4
  match tokens with
  | .documentStart :: .documentEnd :: rest => some (absent, .documentEnd :: rest)
  | .documentStart :: rest => readAt .document fuel rest
  | _ => readAt .document fuel tokens

def ofTokens? (tokens : List Token) : Option Node :=
  match readDocument tokens with
  | some (node, after) =>
    if (after.all fun token => token = .documentEnd) && node.depth ≤ nestingLimit then some node
    else none
  | none => none

def read? (text : String) : Option Node :=
  (tokens? text).bind ofTokens?

end Node

end SchemaCodec.Yaml
