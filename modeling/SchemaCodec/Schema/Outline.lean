import SchemaCodec.Schema.Basic

/-!
Outlines of nodes on one line, for looking at a schema while it is developed.
-/

namespace SchemaCodec

def outlineChar (c : Char) : String :=
  if c = '"' then "\\\""
  else if c = '\\' then "\\\\"
  else if c = '\n' then "\\n"
  else if c = '\r' then "\\r"
  else if c = '\t' then "\\t"
  else if c.toNat = 0 then "\\0"
  else if c.toNat < 32 || c.toNat = 127 then
    "\\u\x7b" ++ String.ofList (Nat.toDigits 16 c.toNat) ++ "\x7d"
  else String.singleton c

def outlineText (text : String) : String :=
  "\"" ++ String.join (text.toList.map outlineChar) ++ "\""

def outlineBool (b : Bool) : String :=
  if b then "true" else "false"

def outlineList (items : List String) : String :=
  "[" ++ String.intercalate ", " items ++ "]"

def outlineFields (name : String) (fields : List (String × String)) : String :=
  name ++ " \x7b " ++ String.intercalate ", " (fields.map fun field => field.1 ++ ": " ++ field.2)
    ++ " \x7d"

def Literal.outline : Literal → String
  | .string text => "String(" ++ outlineText text ++ ")"
  | .number n => "Number(" ++ Number.outline n ++ ")"
  | .boolean b => "Boolean(" ++ outlineBool b ++ ")"
  | .bigint i => "BigInt(" ++ Number.integerText i ++ ")"
  | .null => "Null"

def EnumValue.outline : EnumValue → String
  | .string text => "String(" ++ outlineText text ++ ")"
  | .number n => "Number(" ++ Number.outline n ++ ")"

def EnumMember.outline (member : EnumMember) : String :=
  outlineFields "EnumMember" [("name", outlineText member.name), ("value", member.value.outline)]

def Schema.outline (schema : Schema) : String :=
  match schema.annotations.label? with
  | some label => schema.tag ++ "(" ++ label ++ ")"
  | none =>
    match schema.kind with
    | .literal literal => "Literal(" ++ literal.outline ++ ")"
    | _ => schema.tag

/-- The outline of a kind with the nodes below it; unions, structs and templates have none. A lazy
node tells whether it was entered. -/
def Kind.outline? (hasEntered : LazyCell → Bool) : Kind Schema → Option String
  | .keyword word => some ("Keyword(" ++ word.name ++ ")")
  | .literal value => some ("Literal(" ++ value.outline ++ ")")
  | .uniqueSymbol symbol => some ("UniqueSymbol(" ++ symbol.text ++ ")")
  | .enums members => some ("Enums(" ++ outlineList (members.map EnumMember.outline) ++ ")")
  | .template _ => none
  | .tuple elements rest =>
    let element (e : Element Schema) : String :=
      outlineFields "Element" [("ty", e.schema.outline), ("optional", outlineBool e.optional)]
    some ("Tuple(" ++ outlineFields "Tuple"
      [("elements", outlineList (elements.map element)),
        ("rest", outlineList (rest.map Schema.outline))] ++ ")")
  | .struct _ _ => none
  | .union _ => none
  | .lazy cell =>
    some ("Lazy(" ++ outlineFields "Lazy" [("resolved", outlineBool (hasEntered cell))] ++ ")")
  | .refinement source _ =>
    some ("Refinement(" ++ outlineFields "Refinement" [("from", source.outline)] ++ ")")
  | .transform source target _ _ strict =>
    some ("Transform(" ++ outlineFields "Transform"
      [("from", source.outline), ("to", target.outline), ("strict", outlineBool strict)] ++ ")")
  | .declaration parameters _ _ =>
    some ("Declaration(" ++ outlineFields "Declaration"
      [("type_parameters", outlineList (parameters.map Schema.outline))] ++ ")")

/-- The outline of an annotation that holds a function or data of a hook. -/
def Annotation.outline? : Annotation → Option String
  | .message _ => some "Message(<fn>)"
  | .payload _ => some "Opaque(<any>)"
  | .text _ => none
  | .values _ => none

end SchemaCodec
