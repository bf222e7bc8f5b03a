import SchemaCodec.Registry
import SchemaCodec.Run.Parse

/-!
Sessions. A session holds the registries that references look names up in, and remembers the schema
that each reference stood for when it was first used: that schema stays, whatever is registered
later. References into a registry that is gone stand for the schema that accepts nothing.
-/

namespace SchemaCodec

structure Session where
  /-- The live registries by scope. -/
  registries : List (Nat × Registry)
  /-- The references used so far, in order of first use, with their schemas. -/
  resolved : List (Reference × Schema)
  /-- The lazy nodes entered so far. -/
  entered : List LazyCell

namespace Session

def empty : Session := ⟨[], [], []⟩

def registry (session : Session) (scope : Nat) : Registry :=
  (Table.find? scope session.registries).getD .empty

/-- Put a registry in place of the one of the scope. -/
def setRegistry (session : Session) (scope : Nat) (registry : Registry) : Session :=
  { session with registries := Table.insert scope registry session.registries }

def dropRegistry (session : Session) (scope : Nat) : Session :=
  { session with registries := Table.remove scope session.registries }

def lookUp (session : Session) (reference : Reference) : Schema :=
  ((Table.find? reference.scope session.registries).bind (·.get? reference.name)).getD Schema.never

/-- What a reference stands for: its schema at its first use, which may be now. -/
def targets (session : Session) : Targets := fun reference =>
  (Table.find? reference session.resolved).getD (session.lookUp reference)

def resolve (session : Session) (reference : Reference) : Session :=
  if Table.has reference session.resolved then session
  else { session with resolved := session.resolved ++ [(reference, session.lookUp reference)] }

def mark (session : Session) : LazyCell → Session
  | .reference target =>
    let session := session.resolve target
    if session.entered.contains (.reference target) then session
    else { session with entered := .reference target :: session.entered }
  | .side side node inner =>
    let session := session.mark inner
    if session.entered.contains (.side side node inner) then session
    else { session with entered := .side side node inner :: session.entered }

def hasEntered (session : Session) (cell : LazyCell) : Bool :=
  session.entered.contains cell

def enter (session : Session) (cell : LazyCell) : Schema × Session :=
  (cell.resolve session.targets, session.mark cell)

/-- Levels that a run may go down. -/
def depthLimit : Nat := 10000

/-- Run a value. The session remembers the lazy nodes that the run enters. -/
def parse (session : Session) (settings : Run.Settings) (schema : Schema) (input : Value) :
    Option Outcome × Session :=
  match Run.parseTraced session.targets depthLimit settings schema input with
  | (outcome, cells) => (outcome, cells.foldl mark session)

def decode (session : Session) (schema : Schema) (input : Value) (options : Options) :
    Option Outcome × Session :=
  session.parse ⟨.sync, options, .decode⟩ schema input

def encode (session : Session) (schema : Schema) (value : Value) (options : Options) :
    Option Outcome × Session :=
  session.parse ⟨.sync, options, .encode⟩ schema value

def decodeAsync (session : Session) (schema : Schema) (input : Value) (options : Options) :
    Option Outcome × Session :=
  session.parse ⟨.async, options, .decode⟩ schema input

def encodeAsync (session : Session) (schema : Schema) (value : Value) (options : Options) :
    Option Outcome × Session :=
  session.parse ⟨.async, options, .encode⟩ schema value

/-- Check a value against the output side of a schema. -/
def validate (session : Session) (schema : Schema) (value : Value) (options : Options) :
    Option Outcome × Session :=
  session.decode schema.outputSide value options

end Session

end SchemaCodec
