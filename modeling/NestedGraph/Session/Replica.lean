import NestedGraph.Session

/-! # Replicas step by step

    The copy of `Graph.copyInto` as it is carried out: the destination is
    emptied first, and then filled vertex by vertex, edge by edge and
    cluster by cluster. -/

namespace NestedGraph.Act

/-- Runs steps, and goes on with what they come to even if one fails. -/
def attempt {α : Type} (x : Act α) : Act (Except Error α) := fun s =>
  let (result, s) := x s
  (.ok result, s)

/-- Turns copy mode of a cluster on or off. -/
def setCopyMode (c : ClusterId) (on : Bool) : Act Unit := do
  let _ ← look (fun g => g.tree.require c)
  edit (fun t => t.mapCluster c (fun k => { k with copyMode := on }))

section Content

variable (cloner : Cloner Nat)

/-- Adds a copy of each vertex, and tells the new handles. -/
def copyVertices (into : ClusterId) : List (LocalVertex × VertexRecord) → Act Renaming
  | [] => return []
  | (v, r) :: rest => do
      let objects ← clone (cloneSlots cloner r.objects)
      let w ← bringIn into { r with objects := objects } none
      return (v, w) :: (← copyVertices into rest)

/-- Adds a copy of each edge between the new handles of its ends. -/
def copyEdges (into : ClusterId) (names : Renaming) : List Link → Act Unit
  | [] => return
  | l :: rest =>
      match names.handle? l.first, names.handle? l.second with
      | some a, some b => do
          let carried ← clone (cloneCarried cloner l.record.carried)
          let target ← look (fun g => g.tree.require into)
          if !(target.cluster.storage.hasVertex a && target.cluster.storage.hasVertex b) then
            throw (.cluster (.mapMismatch a))
          edit (fun t => t.mapStorage into (fun s =>
            s.addEdge a b { l.record with carried := carried }))
          copyEdges into names rest
      | _, _ => copyEdges into names rest

/-- Copies one cluster without what is inside it, and tells the new
    handles. -/
def copyContent (source : Cluster) (into : ClusterId) : Act Renaming := do
  let _ ← look (fun g => g.tree.require into)
  edit (fun t => t.mapCluster into (fun k => { k with properties := source.properties }))
  let names ← copyVertices cloner into source.storage.vertices.entries
  copyEdges cloner into names source.storage.edges.values
  return names

/-- Copies the clusters of a forest, each before those inside it.  In an arena
    each of them has to be looked up first (`Job.copyCluster`). -/
def copyInside (names : Renaming) (into : ClusterId) : Forest → Act Unit
  | .nil => return
  | .cons v k inside rest =>
      match names.handle? v with
      | none => copyInside names into rest
      | some w => do
          let copy ← allocate
          let _ ← look (fun g => g.tree.require into)
          edit (fun t => t.graft into w ⟨t.config.newCluster copy, .nil⟩)
          let inner ← copyContent cloner k copy
          copyInside inner copy inside
          copyInside names into rest

/-- Replaces the content of a cluster by a copy of a cluster of another
    graph.  The cluster is in copy mode meanwhile. -/
def copyInto (source : Graph) (c into : ClusterId) : Act Unit := do
  let (branch, place) ← look (fun g => source.tree.copyable c g.tree into)
  edit (fun t => t.emptied place)
  raiseIds source.ids.count
  setCopyMode into true
  let result ← attempt (do
    let names ← copyContent cloner branch.cluster into
    copyInside cloner names into branch.inside)
  -- Copy mode is as it was before an error is passed on.
  setCopyMode into place.cluster.copyMode
  look (fun _ => result)

end Content

end NestedGraph.Act
