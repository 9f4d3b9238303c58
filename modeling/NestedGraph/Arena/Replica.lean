import NestedGraph.Arena.Attributes
import NestedGraph.Arena.Growth
import NestedGraph.Arena.Removal

/-! # Replicas, cluster by cluster

    The clusters of one arena are read by their ids, and their copies are
    put into another: each gets an id there, is listed by the copy of its
    parent, and is filled after that, before its next sibling comes. -/

namespace NestedGraph.Job

variable (cloner : Cloner Nat)

/-! ## One cluster -/

/-- Adds a copy of each vertex, and tells the new handles. -/
def copyVertices (into : ClusterId) : List (LocalVertex × VertexRecord) → Job Renaming
  | [] => return []
  | (v, r) :: rest => do
      let objects ← clone (cloneSlots cloner r.objects)
      let w ← putVertex into { r with objects := objects }
      return (v, w) :: (← copyVertices into rest)

/-- Adds a copy of each edge between the new handles of its ends. -/
def copyEdges (into : ClusterId) (names : Renaming) : List Link → Job Unit
  | [] => return
  | l :: rest =>
      match names.handle? l.first, names.handle? l.second with
      | some v, some w => do
          let carried ← clone (cloneCarried cloner l.record.carried)
          let k ← cell into
          if !(k.storage.hasVertex v && k.storage.hasVertex w) then
            throw (.cluster (.mapMismatch v))
          edit (fun a => a.mapStorage into (fun s =>
            s.addEdge v w { l.record with carried := carried }))
          copyEdges into names rest
      | _, _ => copyEdges into names rest

/-- Copies one cluster without what is inside it, and tells the new handles. -/
def copyContent (source : Cluster) (into : ClusterId) : Job Renaming := do
  rewrite into (fun k => k.mapCluster (fun cluster =>
    { cluster with properties := source.properties }))
  let names ← copyVertices cloner into source.storage.vertices.entries
  copyEdges cloner into names source.storage.edges.values
  return names

/-! ## Nested clusters -/

/-- Puts an empty cluster in for each child, and has it filled.  Tells what
    filling them told. -/
def copyChildren (fill : ClusterId → ClusterId → Job (List ClusterId)) (names : Renaming)
    (into : ClusterId) : ChildMap → Job (List ClusterId)
  | [] => return []
  | (v, child) :: rest =>
      match names.handle? v with
      | none => copyChildren fill names into rest
      | some w => do
          let copy ← alloc into w
          rewrite into (Cell.hang w copy)
          let filled ← fill child copy
          return filled ++ (← copyChildren fill names into rest)

/-- Copies a cluster of another arena with everything inside it, and tells the
    clusters that were copied, in order.  `depth` bounds how far inside it
    goes. -/
def copyCluster (source : Arena) : Nat → ClusterId → ClusterId → Job (List ClusterId)
  | 0, _, _ => fun _ => .error .endless
  | depth + 1, c, into => do
      let k ← settle (source.require c)
      let names ← copyContent cloner k.cluster into
      let inside ← copyChildren (fun child copy => copyCluster source depth child copy) names into
        k.children
      return c :: inside

/-! ## Copies -/

/-- Takes children out, one after the other, as they were listed before. -/
def teardownAll : List ClusterId → Job Unit
  | [] => return
  | child :: rest => do
      teardown child
      teardownAll rest

/-- Empties a cluster, and takes out the edges that reach into it. -/
def clearContent (c : ClusterId) : Job Unit := silently do
  let inside ← subtreeGlobals c
  purgeAbove (GlobalEdge.touches inside) c
  match ← read (fun a => a.get? c) with
  | none => return
  | some k => do
      teardownAll (k.children.map Prod.snd)
      edit (fun a => a.modify c Cell.clear)

/-- The ids that stay when the content of a cluster goes. -/
def keptIds (c : ClusterId) : Job (List UInt64) := do
  let inside ← subtreeGlobals c
  traverse (fun a => a.links.collectKept a.count inside a.root c)

/-- The first id in a cluster of an arena, or inside it, that is one of `ids`. -/
def firstIdIn (source : Arena) (ids : List UInt64) (c : ClusterId) : Job (Option UInt64) :=
  traverse (fun _ => source.links.seekId source.count ids c)

/-- Makes a cluster ready for a copy from an arena whose ids went up to `count`: it
    is emptied, and in copy mode from now on. -/
def prepare (count : UInt64) (into : ClusterId) : Job Unit := do
  clearContent into
  raiseIds count
  setCopyMode into true

/-- Replaces the content of a cluster by a copy of a cluster of another arena,
    whose ids went up to `count`.  The cluster is in copy mode meanwhile. -/
def copyInto (source : Arena) (count : UInt64) (c into : ClusterId) : Job Unit := do
  if !source.config.compatible (← read Arena.config) then throw .incompatibleConfig
  let _ ← settle (source.require c)
  let place ← cell into
  match ← firstIdIn source (← keptIds into) c with
  | some id => throw (.duplicateGlobalId id)
  | none => do
      prepare count into
      let result ← attempt (copyCluster cloner source source.count c into)
      -- Copy mode is as it was before an error is passed on.
      setCopyMode into place.cluster.copyMode
      let _ ← settle result

end NestedGraph.Job
