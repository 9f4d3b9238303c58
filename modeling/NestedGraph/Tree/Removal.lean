import NestedGraph.Tree.Marking
import NestedGraph.Tree.Lookup

/-! # Removal — taking vertices, edges and clusters out

    Removing a vertex takes every edge of it along, wherever in the tree
    the edge is stored: in the vertex's own cluster, and in the clusters
    around it on the vertices that lead down to it.  A vertex that stands
    for a cluster takes the whole cluster along.  What went is listed in
    the order in which it went. -/

namespace NestedGraph

/-- Something that was taken out of a tree. -/
inductive Removal where
  | vertex (vertex : GlobalVertex)
  | edge (edge : GlobalEdge)
  | cluster (cluster : ClusterId)
deriving DecidableEq, Repr

/-! ## What goes with a cluster -/

/-- What goes with a cluster itself, given what is inside it: its edges,
    its vertices that stand for no cluster, and the cluster. -/
def Cluster.removals (k : Cluster) (inside : Forest) : List Removal :=
  k.storage.allCarried.map .edge
    ++ (k.storage.vertices.entries.filter
        (fun entry => (inside.branchAt? entry.1).isNone)).map (fun entry => .vertex entry.2.global)
    ++ [.cluster k.id]

/-- What goes with the clusters of a forest: each cluster after those
    inside it. -/
def Forest.removals : Forest → List Removal
  | nil => []
  | cons _ k inside rest => inside.removals ++ k.removals inside ++ rest.removals

/-- What goes with a branch. -/
def Branch.removals (b : Branch) : List Removal := b.inside.removals ++ b.cluster.removals b.inside

/-! ## Edges further up -/

/-- Takes the matching edges off a vertex, and marks the cluster if there
    were any. -/
def Cluster.withdrawAt (config : Config) (p : GlobalEdge → Bool) (v : LocalVertex) (k : Cluster) :
    Cluster :=
  if (k.storage.matchingAt p v).isEmpty then k
  else Cluster.mark config { k with storage := k.storage.withdrawAt p v }

namespace Tree

/-- The matching edges stored around a cluster, on the vertices that lead
    down to it, nearest first. -/
def matchingAbove (p : GlobalEdge → Bool) (t : Tree) (c : ClusterId) : List GlobalEdge :=
  (t.path c).flatMap (fun step =>
    match t.storage? step.1 with
    | some s => s.matchingAt p step.2
    | none => [])

/-- Takes the matching edges stored around a cluster out. -/
def withdrawAbove (p : GlobalEdge → Bool) (t : Tree) (c : ClusterId) : Tree :=
  (t.path c).foldl (fun t step => t.mapCluster step.1 (Cluster.withdrawAt t.config p step.2)) t

/-! ## Vertices and clusters -/

/-- Takes a vertex out, with the branch that it stands for and with every
    edge of them. -/
def discard (t : Tree) (c : ClusterId) (v : LocalVertex) : Tree × List Removal :=
  match t.find? c with
  | none => (t, [])
  | some b =>
      -- Further up, an edge of the vertex shows only by the names in it.
      let p := GlobalEdge.touches (b.travelling v)
      let inside :=
        match b.inside.branchAt? v with
        | some child => child.removals
        | none => []
      let gone := b.cluster.storage.carriedAt v ++ t.matchingAbove p c
      -- The vertex's own edges go with its slot, those above one by one.
      (((t.cutAt c v).withdrawAbove p c).mark c, inside ++ gone.map .edge)

/-- Takes several vertices of one cluster out, one after the other. -/
def discardAll (t : Tree) (c : ClusterId) : List LocalVertex → Tree × List Removal
  | [] => (t, [])
  | v :: rest =>
      let (t, first) := t.discard c v
      let (t, others) := t.discardAll c rest
      (t, first ++ others)

/-- Removes a child with everything inside it. -/
def removeCluster (t : Tree) (parent child : ClusterId) : Except Error (Tree × List Removal) := do
  let v ← t.vertexOfChild parent child
  return t.discard parent v

/-- Removes the child that a vertex stands for. -/
def removeClusterOn (t : Tree) (parent : ClusterId) (v : LocalVertex) :
    Except Error (Tree × List Removal) := do
  let child ← t.requireChildAt parent v
  t.removeCluster parent child

/-- Removes all children of a cluster. -/
def removeClusters (t : Tree) (c : ClusterId) : Except Error (Tree × List Removal) := do
  let b ← t.require c
  return t.discardAll c (b.inside.entries.map Prod.fst)

/-- Removes a vertex of a cluster. -/
def removeVertex (t : Tree) (c : ClusterId) (v : LocalVertex) :
    Except Error (Tree × List Removal) := do
  let _ ← t.requireVertex c v
  return t.discard c v

/-- Removes a vertex stored anywhere inside a cluster, and marks all
    clusters on the way up to that one. -/
def removeGlobalVertex (t : Tree) (c : ClusterId) (global : GlobalVertex) :
    Except Error (Tree × List Removal) :=
  match t.vertexOwner? c global with
  | none => .error (.vertexNotFound global)
  | some (owner, v) =>
      let (t, removed) := t.discard owner v
      .ok (t.markUpTo owner c, removed)

/-! ## Edges -/

/-- Removes an edge of a cluster with all global edges that it carries. -/
def removeEdge (t : Tree) (c : ClusterId) (e : LocalEdge) : Except Error (Tree × List Removal) := do
  let b ← t.requireEdge c e
  return ((t.mapStorage c (fun s => s.removeEdge e)).mark c,
    (b.cluster.storage.carried e).map .edge)

/-- Removes one global edge stored anywhere inside a cluster, and marks all
    clusters on the way up to that one. -/
def removeGlobalEdge (t : Tree) (c : ClusterId) (global : GlobalEdge) : Except Error Tree :=
  match t.edgeOwner? c global with
  | none => .error (.edgeNotFound global)
  | some (owner, e) =>
      .ok ((t.mapStorage owner (fun s => s.withdraw (fun other => other.same global) e)).markUpTo
        owner c)

end Tree

end NestedGraph
