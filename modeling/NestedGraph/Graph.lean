import NestedGraph.IdSource
import NestedGraph.Tree.Relocation
import NestedGraph.Tree.Replica

/-! # Graphs — a tree with the source of its ids

    The operations that create vertices and edges draw an id each.  They
    draw it after all checks, so a refused operation leaves the source
    where it was. -/

namespace NestedGraph

/-- A tree and the source that its ids come from. -/
structure Graph where
  tree : Tree
  ids : IdSource

namespace Graph

/-- A graph with an empty root. -/
def new (config : Config) (ids : IdSource) : Graph := ⟨Tree.new config, ids⟩

/-! ## Clusters -/

/-- Creates an empty child, on a new vertex of the cluster. -/
def addCluster (g : Graph) (c : ClusterId) :
    Except Error (Graph × ClusterId × LocalVertex) := do
  let b ← g.tree.require c
  let config := g.tree.config
  let child : ClusterId := ⟨g.tree.nextClusterId⟩
  let grown := g.tree.receive c (config.newVertex ⟨g.ids.next⟩)
    (some ⟨config.newCluster child, .nil⟩)
  return (⟨{ grown with nextClusterId := g.tree.nextClusterId + 1 }.mark c, g.ids.advance⟩,
    child, b.nextVertex)

/-! ## Vertices -/

/-- The graph with an ordinary vertex added to a cluster. -/
def putVertex (g : Graph) (c : ClusterId) (global : GlobalVertex) : Tree :=
  (g.tree.receive c (g.tree.config.newVertex global) none).mark c

/-- Adds a vertex with the next id. -/
def addVertex (g : Graph) (c : ClusterId) :
    Except Error (Graph × LocalVertex × GlobalVertex) := do
  let b ← g.tree.require c
  let global : GlobalVertex := ⟨g.ids.next⟩
  return (⟨g.putVertex c global, g.ids.advance⟩, b.nextVertex, global)

/-- Adds a vertex with an id of the caller's choice, and moves the source
    past it.  Where the vertex is stored inside the cluster already, it or
    its representative is the answer and nothing changes. -/
def addVertexNamed (g : Graph) (c : ClusterId) (global : GlobalVertex) :
    Except Error (Graph × LocalVertex × GlobalVertex) := do
  if !global.isUsable then throw (.invalidGlobalId global.id)
  let b ← g.tree.require c
  match b.representative? global with
  | some v => return (g, v, global)
  | none => return (⟨g.putVertex c global, g.ids.raise global.id⟩, b.nextVertex, global)

/-! ## Edges -/

/-- The graph with a global edge, under the next id, on the edge between two
    vertices of a cluster. -/
def putEdge (g : Graph) (c : ClusterId) (a b : LocalVertex) (global : GlobalEdge) : Graph :=
  let config := g.tree.config
  ⟨(g.tree.mapStorage c (fun s =>
      s.attach a b config.edge.initialValues [config.newCarried global])).mark c,
    g.ids.advance⟩

/-- Refuses a vertex that stands for a child. -/
def requireOrdinary (g : Graph) (c : ClusterId) (v : LocalVertex) (global : GlobalVertex) :
    Except Error Unit :=
  if g.tree.isClusterVertex c v then .error (.clusterEndpoint global) else .ok ()

/-- The branch of a cluster, and the global names of two of its vertices that
    may be connected. -/
def edgeEnds (g : Graph) (c : ClusterId) (a b : LocalVertex) :
    Except Error (Branch × GlobalVertex × GlobalVertex) := do
  if a = b then throw .selfLoop
  let branch ← g.tree.requireVertex c a
  match branch.cluster.storage.global? a, branch.cluster.storage.global? b with
  | some source, some target =>
      -- Both handles resolve before either is refused for what it stands for.
      g.requireOrdinary c a source
      g.requireOrdinary c b target
      return (branch, source, target)
  | _, _ => throw (.invalidLocalVertex b)

/-- Connects two vertices of a cluster by a new global edge. -/
def addEdge (g : Graph) (c : ClusterId) (a b : LocalVertex) :
    Except Error (Graph × LocalEdge × GlobalEdge) := do
  let (branch, source, target) ← g.edgeEnds c a b
  let global : GlobalEdge := ⟨source, target, g.ids.next⟩
  return (g.putEdge c a b global, branch.cluster.storage.attachHandle a b, global)

/-- The vertex of a branch that is or represents a global vertex. -/
def requireRepresentative (b : Branch) (global : GlobalVertex) : Except Error LocalVertex :=
  match b.representative? global with
  | some v => .ok v
  | none => .error (.vertexNotFound global)

/-- Refuses a global vertex that stands for a cluster anywhere inside `c`. -/
def requireOrdinaryGlobal (g : Graph) (c : ClusterId) (global : GlobalVertex) :
    Except Error Unit :=
  match g.tree.vertexOwner? c global with
  | some (owner, v) => g.requireOrdinary owner v global
  | none => .ok ()

/-- The branch in which an edge between two global vertices is stored, and
    the vertices that it connects there: the cluster's own branch, or that
    of one of its children when both vertices lie inside that child. -/
def edgePlace (g : Graph) (c : ClusterId) (source target : GlobalVertex) :
    Except Error (Branch × LocalVertex × LocalVertex) := do
  let branch ← g.tree.require c
  let a ← requireRepresentative branch source
  let b ← requireRepresentative branch target
  g.requireOrdinaryGlobal c source
  g.requireOrdinaryGlobal c target
  if a ≠ b then return (branch, a, b)
  -- One vertex leads to both, so they can only be apart inside it.
  match branch.inside.branchAt? a with
  | none => throw .selfLoop
  | some child =>
      let a ← requireRepresentative child source
      let b ← requireRepresentative child target
      if a = b then throw .selfLoop else return (child, a, b)

/-- Connects two global vertices stored inside a cluster by a new global
    edge.  The flag tells whether the edge is stored in the cluster itself,
    and not in one of its children. -/
def connect (g : Graph) (c : ClusterId) (source target : GlobalVertex) :
    Except Error (Graph × LocalEdge × GlobalEdge × Bool) := do
  let (holder, a, b) ← g.edgePlace c source target
  let global : GlobalEdge := ⟨source, target, g.ids.next⟩
  return (g.putEdge holder.cluster.id a b global, holder.cluster.storage.attachHandle a b, global,
    decide (holder.cluster.id = c))

/-! ## Copies -/

/-- Replaces the content of a cluster by a copy of a cluster of another
    graph, and moves the source of ids past all that was copied. -/
def copyInto {σ : Type} (g : Graph) (c : ClusterId) (target : Graph) (into : ClusterId)
    (cloner : Cloner σ) : ExceptT Error (StateM σ) Graph := do
  let (branch, place) ← g.tree.copyable c target.tree into
  let tree ← target.tree.replaceContent cloner place branch
  return ⟨tree, target.ids.raise g.ids.count⟩

/-- A new graph with a copy of this one, and with ids that go on from
    here. -/
def duplicate {σ : Type} (g : Graph) (cloner : Cloner σ) : ExceptT Error (StateM σ) Graph :=
  g.copyInto g.tree.root (new g.tree.config (.startingAt g.ids.count)) Tree.rootId cloner

end Graph

end NestedGraph
