import NestedGraph.Arena.Job

/-! # Snapshots — a full account of a graph

    A snapshot lists all clusters, level by level from the root, and for
    each its vertices and edges by slot with everything that is kept for
    them.  Attributes are listed in the order of the types asked for, as
    far as they are registered. -/

namespace NestedGraph

/-- A vertex in a snapshot. -/
structure VertexRow where
  handle : LocalVertex
  global : GlobalVertex
  properties : List Value
  objects : List (Option TypedObject)

/-- An edge in a snapshot. -/
structure EdgeRow where
  handle : LocalEdge
  first : LocalVertex
  second : LocalVertex
  properties : List Value
  carried : List (GlobalEdge × List (Option TypedObject))

/-- A cluster in a snapshot. -/
structure ClusterRow where
  id : ClusterId
  /-- The cluster around, and the vertex there; none for the root. -/
  place : Option (ClusterId × LocalVertex)
  copyMode : Bool
  properties : List Value
  vertices : List VertexRow
  edges : List EdgeRow
  children : List (LocalVertex × ClusterId)

/-- An account of a graph. -/
structure Snapshot where
  /-- The last id given out. -/
  count : UInt64
  live : Nat
  clusters : List ClusterRow

/-! ## Level by level -/

/-- Two rows of levels as one: each level of the first followed by the same
    level of the second. -/
def mergeLevels {α : Type} : List (List α) → List (List α) → List (List α)
  | [], other => other
  | levels, [] => levels
  | level :: rest, level' :: rest' => (level ++ level') :: mergeLevels rest rest'

/-- The branches of a forest level by level, each with the cluster around it
    and the vertex there. -/
def Forest.levels (around : ClusterId) :
    Forest → List (List ((ClusterId × LocalVertex) × Branch))
  | nil => []
  | cons v k inside rest =>
      mergeLevels ([((around, v), ⟨k, inside⟩)] :: inside.levels k.id) (rest.levels around)

/-! ## Rows -/

namespace Layout

/-- The values of the asked types that are registered. -/
def values (l : Layout) (types : List AttributeType) (slots : List Value) : List Value :=
  types.filterMap (fun type => (l.read type slots).toOption)

/-- For each asked type that is registered, its object if there is one. -/
def objects (l : Layout) (types : List AttributeType) (slots : List (Option TypedObject)) :
    List (Option TypedObject) :=
  types.filterMap (fun type => (l.readObject type slots).toOption)

end Layout

/-- The row of a cluster, given its place and its children. -/
def Cluster.row (config : Config) (properties objects : List AttributeType)
    (place : Option (ClusterId × LocalVertex)) (children : List (LocalVertex × ClusterId))
    (k : Cluster) : ClusterRow where
  id := k.id
  place := place
  copyMode := k.copyMode
  properties := config.cluster.values properties k.properties
  vertices := k.storage.vertices.entries.map (fun (v, record) =>
    ⟨v, record.global, config.vertex.values properties record.properties,
      config.objects.objects objects record.objects⟩)
  edges := k.storage.edges.entries.map (fun (e, l) =>
    ⟨e, l.first, l.second, config.edge.values properties l.record.properties,
      l.record.carried.map (fun edge =>
        (edge.global, config.objects.objects objects edge.objects))⟩)
  children := children

/-- The snapshot of a graph. -/
def Graph.snapshot (g : Graph) (properties objects : List AttributeType) : Snapshot where
  count := g.ids.count
  live := g.tree.clusterCount
  clusters :=
    let row := fun place (b : Branch) =>
      b.cluster.row g.tree.config properties objects place b.inside.entries
    row none g.tree.top ::
      (g.tree.top.inside.levels g.tree.top.cluster.id).flatten.map (fun (place, b) =>
        row (some place) b)

/-- The clusters in a queue, and those inside them after all that are in the
    queue before. -/
def Arena.levels (a : Arena) : Nat → List ClusterId → List Cell
  | 0, _ | _, [] => []
  | steps + 1, c :: queue =>
      match a.get? c with
      | some k => k :: a.levels steps (queue ++ k.children.map Prod.snd)
      | none => a.levels steps queue

/-- The snapshot of an arena with its source of ids. -/
def Desk.snapshot (d : Desk) (properties objects : List AttributeType) : Snapshot where
  count := d.ids.count
  live := d.arena.count
  clusters := (d.arena.levels d.arena.count [d.arena.root]).map (fun k =>
    k.cluster.row d.arena.config properties objects
      (k.parent.bind (fun parent => k.vertex.map (fun v => (parent, v)))) k.children)

end NestedGraph
