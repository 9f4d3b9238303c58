/-! # Identifiers — names for vertices, edges and clusters

    Two kinds of names stand side by side.  A global name is unique over
    a whole tree of clusters and survives every move and copy.  A handle
    names a slot in the storage of one cluster: it stays good until the
    entity in that slot is removed, and means nothing in another
    cluster. -/

namespace NestedGraph

/-- Ids up to and including this one are never handed out. -/
def lastReservedId : UInt64 := 9

/-! ## Global names -/

/-- Tree-wide name of a vertex. -/
structure GlobalVertex where
  id : UInt64
deriving DecidableEq, Repr

namespace GlobalVertex

/-- A vertex name is usable when its id lies above the reserved ones. -/
def isUsable (v : GlobalVertex) : Bool := lastReservedId < v.id

/-- A vertex is written `v` and its id. -/
def text (v : GlobalVertex) : String := "v" ++ toString v.id.toNat

end GlobalVertex

/-- Tree-wide name of an edge, with the endpoints it was created for. -/
structure GlobalEdge where
  source : GlobalVertex
  target : GlobalVertex
  id : UInt64
deriving DecidableEq, Repr

namespace GlobalEdge

/-- An edge name is usable when its id lies above the reserved ones. -/
def isUsable (e : GlobalEdge) : Bool := lastReservedId < e.id

/-- Two descriptors name the same edge when their ids agree, whatever
    endpoints they carry. -/
def same (a b : GlobalEdge) : Bool := a.id == b.id

/-- The endpoint across from `v`, if `v` is an endpoint. -/
def opposite? (e : GlobalEdge) (v : GlobalVertex) : Option GlobalVertex :=
  if e.source = v then some e.target
  else if e.target = v then some e.source
  else none

/-- The edge has an endpoint among `vs`. -/
def touches (vs : List GlobalVertex) (e : GlobalEdge) : Bool :=
  decide (e.source ∈ vs) || decide (e.target ∈ vs)

/-- An edge is written `e`, its id and its endpoints in parentheses. -/
def text (e : GlobalEdge) : String :=
  "e" ++ toString e.id.toNat ++ "(" ++ e.source.text ++ ", " ++ e.target.text ++ ")"

end GlobalEdge

/-! ## Handles -/

/-- What a handle points at. -/
inductive Entity where
  | vertex
  | edge
deriving DecidableEq, Repr

/-- A slot of one cluster's storage.  Slots are reused; the generation
    tells a stale handle from the entity that took over its slot.  The index
    stands for a number of 32 bits: a graph of petgraph refuses further slots
    where the index would not fit, and up to there the two agree. -/
structure Handle (entity : Entity) where
  index : Nat
  generation : UInt32
deriving DecidableEq, Repr

/-- Handle of a vertex in one cluster. -/
abbrev LocalVertex := Handle .vertex

/-- Handle of an edge in one cluster. -/
abbrev LocalEdge := Handle .edge

namespace Handle

/-- The letters in front of a handle's index. -/
def mark : Entity → String
  | .vertex => "lv"
  | .edge => "le"

/-- A handle is written with its index; a generation other than the first
    follows after `#`. -/
def text {entity : Entity} (h : Handle entity) : String :=
  let head := mark entity ++ toString h.index
  if h.generation = 0 then head else head ++ "#" ++ toString h.generation.toNat

/-- Handles are ordered by index, then by generation. -/
def order {entity : Entity} (a b : Handle entity) : Ordering :=
  (compare a.index b.index).then (compare a.generation b.generation)

end Handle

/-! ## Clusters -/

/-- Address of a cluster in its tree; never used twice in one tree.  The id
    stands for a number of 64 bits, and the two agree until a tree has had
    `2 ^ 64 - 1` clusters.  An arena counts in 64 bits, and a run of arenas ends
    where a tree would need more (`Space.lays_run`). -/
structure ClusterId where
  id : Nat
deriving DecidableEq, Repr

/-- A cluster is written `c` and its id. -/
def ClusterId.text (c : ClusterId) : String := "c" ++ toString c.id

end NestedGraph
