import NestedGraph.Attribute.Layout

/-! # Configurations — the attribute types of a tree

    A configuration is built by declarations in a row.  The first type
    that is declared twice in one layout fails the whole; otherwise the
    index and change types are appended where they were not declared. -/

namespace NestedGraph

/-- The attribute types of a tree, and room reserved in its storage. -/
structure Config where
  vertex : Layout
  edge : Layout
  cluster : Layout
  objects : Layout
  vertexCapacity : Nat
  edgeCapacity : Nat
deriving DecidableEq

/-- One step in building a configuration. -/
inductive Declaration where
  | vertex (type : AttributeType)
  | edge (type : AttributeType)
  | cluster (type : AttributeType)
  | object (type : AttributeType)
  | vertexCapacity (capacity : Nat)
  | edgeCapacity (capacity : Nat)

namespace Config

/-- A configuration before any declaration. -/
def blank : Config where
  vertex := ⟨"vertex property", []⟩
  edge := ⟨"edge property", []⟩
  cluster := ⟨"cluster property", []⟩
  objects := ⟨"object", []⟩
  vertexCapacity := 16
  edgeCapacity := 32

/-- Takes one declaration in. -/
def declare (c : Config) : Declaration → Except Error Config
  | .vertex type => do return { c with vertex := ← c.vertex.declare type }
  | .edge type => do return { c with edge := ← c.edge.declare type }
  | .cluster type => do return { c with cluster := ← c.cluster.declare type }
  | .object type => do return { c with objects := ← c.objects.declare type }
  | .vertexCapacity n => .ok { c with vertexCapacity := n }
  | .edgeCapacity n => .ok { c with edgeCapacity := n }

/-- Takes the declarations in, in order, up to the first that fails. -/
def declareAll (c : Config) : List Declaration → Except Error Config
  | [] => .ok c
  | d :: rest => do (← c.declare d).declareAll rest

/-- Adds the types that every configuration has. -/
def complete (c : Config) : Config :=
  { c with
    vertex := c.vertex.declareOnce vertexIndex
    edge := c.edge.declareOnce edgeIndex
    cluster := c.cluster.declareOnce changedFlag }

/-- The configuration that the declarations describe. -/
def build (declarations : List Declaration) : Except Error Config := do
  return (← blank.declareAll declarations).complete

/-- The configuration without declarations. -/
def standard : Config := blank.complete

/-- Entities of both configurations have the same slots. -/
def compatible (a b : Config) : Bool :=
  decide (a.vertex.types = b.vertex.types) && decide (a.edge.types = b.edge.types)
    && decide (a.cluster.types = b.cluster.types) && decide (a.objects.types = b.objects.types)

end Config

end NestedGraph
