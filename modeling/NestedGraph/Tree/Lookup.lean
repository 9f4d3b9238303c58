import NestedGraph.Tree

/-! # Lookup — from global names to handles and back

    A vertex deep inside the tree is represented in every cluster around
    it by the vertex that stands for the child on the way down.  A
    recursive lookup answers with that representative; a search for the
    owner answers with the cluster that stores the entity itself. -/

namespace NestedGraph

namespace Branch

/-- The cluster that stores a vertex, and its handle there. -/
def vertexOwner? (b : Branch) (global : GlobalVertex) : Option (ClusterId × LocalVertex) :=
  b.clusters.findSome? (fun k => (k.storage.vertexOf? global).map (fun v => (k.id, v)))

/-- The cluster that stores a global edge, and the handle of the edge that
    carries it. -/
def edgeOwner? (b : Branch) (global : GlobalEdge) : Option (ClusterId × LocalEdge) :=
  b.clusters.findSome? (fun k => (k.storage.edgeOf? global).map (fun e => (k.id, e)))

/-- The vertex on which the first child that stores a vertex hangs. -/
def leadingVertex? (b : Branch) (global : GlobalVertex) : Option LocalVertex :=
  (b.inside.branches.find? (fun entry => (entry.2.vertexOwner? global).isSome)).map Prod.fst

/-- The vertex of the branch's own cluster that is or represents a vertex
    stored in the branch. -/
def representative? (b : Branch) (global : GlobalVertex) : Option LocalVertex :=
  match b.cluster.storage.vertexOf? global with
  | some v => some v
  | none => b.leadingVertex? global

end Branch

namespace Tree

/-! ## Vertices -/

/-- The global name of a vertex. -/
def global? (t : Tree) (c : ClusterId) (v : LocalVertex) : Option GlobalVertex :=
  (t.storage? c).bind (fun s => s.global? v)

/-- The vertex of a cluster with that global name; a recursive lookup also
    finds the representative of a vertex further inside. -/
def localVertex? (t : Tree) (c : ClusterId) (global : GlobalVertex) (recursive : Bool) :
    Option LocalVertex :=
  (t.find? c).bind (fun b =>
    if recursive then b.representative? global else b.cluster.storage.vertexOf? global)

/-- The cluster inside `c` that stores a vertex, and its handle there. -/
def vertexOwner? (t : Tree) (c : ClusterId) (global : GlobalVertex) :
    Option (ClusterId × LocalVertex) :=
  (t.find? c).bind (fun b => b.vertexOwner? global)

/-- The global names of the vertices of a cluster. -/
def globals (t : Tree) (c : ClusterId) : List GlobalVertex :=
  match t.storage? c with
  | some s => s.globals
  | none => []

/-- The vertices of a cluster. -/
def vertices (t : Tree) (c : ClusterId) : List LocalVertex :=
  match t.storage? c with
  | some s => s.vertices.handles
  | none => []

/-! ## Edges -/

/-- The edge of a cluster that carries a global edge. -/
def localEdge? (t : Tree) (c : ClusterId) (global : GlobalEdge) : Option LocalEdge :=
  (t.storage? c).bind (fun s => s.edgeOf? global)

/-- The cluster inside `c` that stores a global edge, and the handle of the
    edge that carries it. -/
def edgeOwner? (t : Tree) (c : ClusterId) (global : GlobalEdge) :
    Option (ClusterId × LocalEdge) :=
  (t.find? c).bind (fun b => b.edgeOwner? global)

/-- The edge between two vertices of a cluster. -/
def edgeBetween? (t : Tree) (c : ClusterId) (a b : LocalVertex) : Option LocalEdge :=
  (t.storage? c).bind (fun s => s.edgeBetween? a b)

/-- The ends of an edge. -/
def endpoints? (t : Tree) (c : ClusterId) (e : LocalEdge) : Option (LocalVertex × LocalVertex) :=
  (t.storage? c).bind (fun s => s.endpoints? e)

/-- The edges at a vertex. -/
def incident (t : Tree) (c : ClusterId) (v : LocalVertex) : List LocalEdge :=
  match t.storage? c with
  | some s => s.incident v
  | none => []

/-- The global edges that an edge carries. -/
def carried (t : Tree) (c : ClusterId) (e : LocalEdge) : List GlobalEdge :=
  match t.storage? c with
  | some s => s.carried e
  | none => []

/-- The edges of a cluster. -/
def edges (t : Tree) (c : ClusterId) : List LocalEdge :=
  match t.storage? c with
  | some s => s.edges.handles
  | none => []

end Tree

end NestedGraph
