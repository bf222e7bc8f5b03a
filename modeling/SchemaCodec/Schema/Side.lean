import SchemaCodec.Schema.Union

/-!
The sides of a schema. The input side takes the source of each transformation and drops refinements;
the output side takes the targets and keeps refinements. A schema that has nothing to take away is
its own side. A composite that is rebuilt keeps its annotations on the output side only, since its
input describes a different value.
-/

namespace SchemaCodec.Schema

def sideAnnotations (side : Side) (annotations : Annotations) : Annotations :=
  match side with
  | .input => .empty
  | .output => annotations

mutual

def side? (side : Side) : Schema → Option Schema
  | .node id annotations kind =>
    let rebuilt (kind : Kind Schema) : Schema :=
      .node (.side side id) (sideAnnotations side annotations) kind
    match kind with
    | .keyword _ => none
    | .literal _ => none
    | .uniqueSymbol _ => none
    | .enums _ => none
    | .template _ => none
    | .transform source target _ _ _ =>
      match side with
      | .input => some ((source.side? side).getD source)
      | .output => some ((target.side? side).getD target)
    | .refinement source filter =>
      match side with
      | .input => some ((source.side? side).getD source)
      | .output => (source.side? side).map fun source => rebuilt (.refinement source filter)
    | .tuple elements rest =>
      match sideElements? side elements, sideAll? side rest with
      | none, none => none
      | changed, changedRest =>
        some (rebuilt (.tuple (changed.getD elements) (changedRest.getD rest)))
    | .struct fields indexes =>
      match sideFields? side fields, sideIndexes? side indexes with
      | none, none => none
      | changed, changedIndexes =>
        some (rebuilt (.struct (changed.getD fields) (changedIndexes.getD indexes)))
    | .union members =>
      (sideAll? side members).map fun members =>
        let union := Schema.union (.side side id) members
        match side with
        | .input => union
        | .output => union.annotateAll (.side side id) annotations
    | .lazy cell => some (rebuilt (.lazy (.side side (.side side id) cell)))
    | .declaration parameters decode encode =>
      (sideAll? side parameters).map fun parameters =>
        rebuilt (.declaration parameters decode encode)

def sideAll? (side : Side) : List Schema → Option (List Schema)
  | [] => none
  | schema :: rest =>
    match schema.side? side, sideAll? side rest with
    | none, none => none
    | changed, changedRest => some (changed.getD schema :: changedRest.getD rest)

def sideElements? (side : Side) : List (Element Schema) → Option (List (Element Schema))
  | [] => none
  | ⟨schema, optional⟩ :: rest =>
    match schema.side? side, sideElements? side rest with
    | none, none => none
    | changed, changedRest => some (⟨changed.getD schema, optional⟩ :: changedRest.getD rest)

def sideFields? (side : Side) : List (Field Schema) → Option (List (Field Schema))
  | [] => none
  | ⟨name, schema, optional⟩ :: rest =>
    match schema.side? side, sideFields? side rest with
    | none, none => none
    | changed, changedRest => some (⟨name, changed.getD schema, optional⟩ :: changedRest.getD rest)

def sideIndexes? (side : Side) :
    List (IndexSignature Schema) → Option (List (IndexSignature Schema))
  | [] => none
  | ⟨parameter, schema⟩ :: rest =>
    match parameter.side? side, schema.side? side, sideIndexes? side rest with
    | none, none, none => none
    | changedParameter, changed, changedRest =>
      some (⟨changedParameter.getD parameter, changed.getD schema⟩ :: changedRest.getD rest)

end

def sideOf (side : Side) (schema : Schema) : Schema :=
  (schema.side? side).getD schema

def inputSide (schema : Schema) : Schema :=
  schema.sideOf .input

def outputSide (schema : Schema) : Schema :=
  schema.sideOf .output

end SchemaCodec.Schema
