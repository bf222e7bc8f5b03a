import SchemaCodec.Schema.Standard

/-!
Named schemas.
-/

namespace SchemaCodec

/-- Schemas by name; a name is registered once, and registering it again replaces its schema. -/
structure Registry where
  entries : List (String × Schema)

namespace Registry

def empty : Registry := ⟨[]⟩

def register (registry : Registry) (name : String) (schema : Schema) : Registry :=
  ⟨Table.insert name schema registry.entries⟩

def get? (registry : Registry) (name : String) : Option Schema :=
  Table.find? name registry.entries

def contains (registry : Registry) (name : String) : Bool :=
  (registry.get? name).isSome

def size (registry : Registry) : Nat :=
  registry.entries.length

def isEmpty (registry : Registry) : Bool :=
  registry.entries.isEmpty

def names (registry : Registry) : List String :=
  (registry.entries.map (·.1)).mergeSort fun a b => a ≤ b

/-- Register all entries, from the first to the last. -/
def registerAll (registry : Registry) (entries : List (String × Schema)) : Registry :=
  ⟨Table.insertAll registry.entries entries⟩

end Registry

end SchemaCodec
