import NestedGraph.Attribute.Config

/-! # Builders — configurations while they are built

    A builder takes declarations one after the other and never stops.  A
    type that comes a second time in its category is left out, and the
    first such refusal is kept until the configuration is asked for.  The
    types of a category are kept in columns side by side, with a map from
    each type to its slot, so that no column has to be searched. -/

namespace NestedGraph

/-- What attribute types are declared for. -/
inductive Category where
  | vertex
  | edge
  | cluster
  | object
deriving DecidableEq, Repr

namespace Category

/-- What messages call the types of a category. -/
def kind : Category → String
  | .vertex => "vertex property"
  | .edge => "edge property"
  | .cluster => "cluster property"
  | .object => "object"

/-- The type that every configuration has in a category. -/
def builtIn? : Category → Option AttributeType
  | .vertex => some vertexIndex
  | .edge => some edgeIndex
  | .cluster => some changedFlag
  | .object => none

end Category

/-- The types of one category, column by column. -/
structure Register where
  kind : String
  types : List AttributeType
  names : List String
  initials : List Value
  /-- The slot of each type, the newest first. -/
  slots : List (AttributeType × Nat)

namespace Register

/-- A register without types. -/
def empty (kind : String) : Register := ⟨kind, [], [], [], []⟩

/-- The slot of a type. -/
def position? (r : Register) (type : AttributeType) : Option Nat := r.slots.lookup type

/-- The type is in the register. -/
def contains (r : Register) (type : AttributeType) : Bool := (r.slots.lookup type).isSome

/-- Adds a type at the end of every column. -/
def insert (r : Register) (type : AttributeType) : Register where
  kind := r.kind
  types := r.types ++ [type]
  names := r.names ++ [type.name]
  initials := r.initials ++ [type.initial]
  slots := (type, r.types.length) :: r.slots

/-- Adds a type; a second time is refused. -/
def push (r : Register) (type : AttributeType) : Except Error Register :=
  if r.contains type then .error (.duplicateType r.kind type.name) else .ok (r.insert type)

/-- Adds a type unless it is there. -/
def ensure (r : Register) (type : AttributeType) : Register :=
  if r.contains type then r else r.insert type

/-- The layout that the register describes. -/
def layout (r : Register) : Layout := ⟨r.kind, r.types⟩

end Register

/-- A configuration that is being built, and the first refusal. -/
structure Builder where
  registers : Category → Register
  vertexCapacity : Nat
  edgeCapacity : Nat
  error : Option Error

namespace Builder

/-- A builder before any declaration. -/
def blank : Builder := ⟨fun category => .empty category.kind, 16, 32, none⟩

/-- Takes a type in.  Of several refusals the first is kept. -/
def push (b : Builder) (category : Category) (type : AttributeType) : Builder :=
  match (b.registers category).push type with
  | .ok r => { b with registers := fun other => if other = category then r else b.registers other }
  | .error e => { b with error := b.error.or (some e) }

/-- Takes one declaration in. -/
def take (b : Builder) : Declaration → Builder
  | .vertex type => b.push .vertex type
  | .edge type => b.push .edge type
  | .cluster type => b.push .cluster type
  | .object type => b.push .object type
  | .vertexCapacity n => { b with vertexCapacity := n }
  | .edgeCapacity n => { b with edgeCapacity := n }

/-- Takes declarations in, in order. -/
def takeAll (b : Builder) (declarations : List Declaration) : Builder := declarations.foldl take b

/-- Adds the types that every configuration has. -/
def finish (b : Builder) : Builder :=
  { b with
    registers := fun category =>
      match category.builtIn? with
      | some type => (b.registers category).ensure type
      | none => b.registers category }

/-- The finished builder, if nothing was refused. -/
def build (b : Builder) : Except Error Builder :=
  match b.error with
  | some e => .error e
  | none => .ok b.finish

/-- The configuration that the registers describe. -/
def config (b : Builder) : Config where
  vertex := (b.registers .vertex).layout
  edge := (b.registers .edge).layout
  cluster := (b.registers .cluster).layout
  objects := (b.registers .object).layout
  vertexCapacity := b.vertexCapacity
  edgeCapacity := b.edgeCapacity

end Builder

end NestedGraph
