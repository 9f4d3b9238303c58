import NestedGraph.Arena.Job

/-! # Removal, cluster by cluster

    A cluster goes after those inside it, and its parent lets go of it
    after that.  Then the clusters further up lose the edges of all that
    went, one after the other. -/

namespace NestedGraph.Job

/-! ## Vertices and clusters -/

/-- Takes the matching edges stored around a cluster out. -/
def purgeAbove (p : GlobalEdge → Bool) (c : ClusterId) : Job Unit :=
  sweep (fun a => a.purgeUp a.count p c)

/-- Takes a cluster out with everything inside it. -/
def teardown (c : ClusterId) : Job Unit := sweep (fun a => a.teardown (2 * a.count) c)

/-- Takes an ordinary vertex out, with every edge of it. -/
def dropVertex (c : ClusterId) (v : LocalVertex) : Job Unit := do
  match ← read (fun a => (a.storage? c).bind (fun s => (s.global? v).map (fun g => (s, g)))) with
  | none => return
  | some (s, global) => do
      report ((s.carriedAt v).map .edge)
      edit (fun a => a.mapStorage c (fun s => s.removeVertex v))
      purgeAbove (GlobalEdge.touches [global]) c
      mark c

/-- Takes the child on a vertex out, with every edge of it and of what is inside
    it. -/
def detach (parent : ClusterId) (v : LocalVertex) (child : ClusterId) : Job Unit := do
  let inside ← subtreeGlobals child
  let own ← read (fun a => a.global? parent v)
  teardown child
  match ← read (fun a => a.storage? parent) with
  | none => pure ()
  | some s => do
      report ((s.carriedAt v).map .edge)
      edit (fun a => a.modify parent (Cell.cut v))
  purgeAbove (GlobalEdge.touches (inside ++ own.toList)) parent
  mark parent

/-- Takes children out, one after the other. -/
def detachAll (parent : ClusterId) : ChildMap → Job Unit
  | [] => return
  | (v, child) :: rest => do
      detach parent v child
      detachAll parent rest

/-- Takes a vertex out, with the child on it if it stands for one. -/
def discard (c : ClusterId) (v : LocalVertex) : Job Unit := do
  match ← read (fun a => a.childAt? c v) with
  | some child => detach c v child
  | none => dropVertex c v

/-- Removes a child with everything inside it. -/
def removeCluster (parent child : ClusterId) : Job Unit := do
  let v ← look (fun a => a.vertexOfChild parent child)
  detach parent v child

/-- Removes the child that a vertex stands for. -/
def removeClusterOn (parent : ClusterId) (v : LocalVertex) : Job Unit := do
  let child ← look (fun a => a.requireChildAt parent v)
  removeCluster parent child

/-- Removes all children of a cluster. -/
def removeClusters (c : ClusterId) : Job Unit := do
  let k ← cell c
  detachAll c k.children

/-- Removes a vertex of a cluster. -/
def removeVertex (c : ClusterId) (v : LocalVertex) : Job Unit := do
  let _ ← look (fun a => a.requireVertex c v)
  discard c v

/-- Removes a vertex stored anywhere inside a cluster, and marks all clusters on
    the way up to that one. -/
def removeGlobalVertex (c : ClusterId) (global : GlobalVertex) : Job Unit := do
  match ← vertexOwner c global with
  | none => throw (.vertexNotFound global)
  | some (owner, v) => do
      discard owner v
      markUpTo owner c

/-! ## Edges -/

/-- Removes an edge of a cluster with all global edges that it carries. -/
def removeEdge (c : ClusterId) (e : LocalEdge) : Job Unit := do
  let k ← look (fun a => a.requireEdge c e)
  edit (fun a => a.mapStorage c (fun s => s.removeEdge e))
  report ((k.storage.carried e).map .edge)
  mark c

/-- Removes one global edge stored anywhere inside a cluster, and marks all
    clusters on the way up to that one. -/
def removeGlobalEdge (c : ClusterId) (global : GlobalEdge) : Job Unit := do
  match ← edgeOwner c global with
  | none => throw (.edgeNotFound global)
  | some (owner, e) => do
      let k ← cell owner
      if !k.storage.hasEdge e then throw (.edgeNotFound global)
      edit (fun a => a.mapStorage owner (fun s => s.withdraw (fun other => other.same global) e))
      markUpTo owner c

end NestedGraph.Job
