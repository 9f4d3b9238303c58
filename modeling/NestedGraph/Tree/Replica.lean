import NestedGraph.Tree.Removal

/-! # Replicas — one cluster's content placed in another

    A copy keeps all global names, properties and the nesting of
    clusters.  Handles are issued anew: the k-th vertex of a cluster, by
    slot, becomes the k-th vertex that its copy receives.  Objects go
    through a cloner, one after the other, which may keep a state of its
    own. -/

namespace NestedGraph

/-- Produces the object that a copy holds in place of another.  It may keep a
    state of its own, but it does not see the clusters or their source of ids:
    one that draws ids from the source of the target is not among these. -/
abbrev Cloner (σ : Type) := TypedObject → StateM σ TypedObject

/-- New handles for old ones. -/
abbrev Renaming := List (LocalVertex × LocalVertex)

/-- The new handle for an old one. -/
def Renaming.handle? (r : Renaming) (v : LocalVertex) : Option LocalVertex :=
  (r.find? (fun entry => decide (entry.1 = v))).map Prod.snd

/-! ## Content of one cluster -/

section Content

variable {σ : Type} (cloner : Cloner σ)

/-- The object slots of a copy, cloned in slot order. -/
def cloneSlots : List (Option TypedObject) → StateM σ (List (Option TypedObject))
  | [] => return []
  | none :: rest => do return none :: (← cloneSlots rest)
  | some object :: rest => do
      let copy ← cloner object
      return some copy :: (← cloneSlots rest)

/-- The global edges of a copy. -/
def cloneCarried : List CarriedEdge → StateM σ (List CarriedEdge)
  | [] => return []
  | edge :: rest => do
      let objects ← cloneSlots cloner edge.objects
      return { edge with objects := objects } :: (← cloneCarried rest)

/-- Adds a copy of each vertex, and tells the new handles. -/
def cloneVertices (target : Storage) :
    List (LocalVertex × VertexRecord) → StateM σ (Storage × Renaming)
  | [] => return (target, [])
  | (v, r) :: rest => do
      let objects ← cloneSlots cloner r.objects
      let (result, names) ←
        cloneVertices (target.addVertex { r with objects := objects }) rest
      return (result, (v, target.vertices.nextHandle) :: names)

/-- Adds a copy of each edge between the new handles of its ends. -/
def cloneEdges (names : Renaming) (target : Storage) :
    List Link → StateM σ Storage
  | [] => return target
  | l :: rest =>
      match names.handle? l.first, names.handle? l.second with
      | some a, some b => do
          let carried ← cloneCarried cloner l.record.carried
          cloneEdges names (target.addEdge a b { l.record with carried := carried }) rest
      | _, _ => cloneEdges names target rest

/-- Adds a copy of one storage to another, and tells the new handles. -/
def cloneStorage (source target : Storage) : StateM σ (Storage × Renaming) := do
  let (target, names) ← cloneVertices cloner target source.vertices.entries
  return (← cloneEdges cloner names target source.edges.values, names)

/-! ## Nested clusters -/

/-- A copy of a forest on the new handles of its vertices.  Clusters get the
    ids from `next` on, each before those inside it; the first id that is
    left comes with the copy. -/
def Forest.clone (names : Renaming) (next : Nat) : Forest → StateM σ (Forest × Nat)
  | nil => return (nil, next)
  | cons v k inside rest =>
      match names.handle? v with
      | none => rest.clone names next
      | some w => do
          let (storage, inner) ← cloneStorage cloner k.storage .empty
          let (insideCopy, next') ← inside.clone inner (next + 1)
          let (restCopy, next'') ← rest.clone names next'
          return (cons w ⟨⟨next⟩, storage, k.properties, false⟩ insideCopy restCopy, next'')

/-- A copy of a branch in a cluster without content.  The cluster keeps its
    id and its copy mode. -/
def Branch.clone (next : Nat) (into : Cluster) (source : Branch) : StateM σ (Branch × Nat) := do
  let (storage, names) ← cloneStorage cloner source.cluster.storage into.storage
  let (inside, next) ← source.inside.clone cloner names next
  return (⟨{ into with storage := storage, properties := source.cluster.properties }, inside⟩, next)

end Content

/-! ## Ids in the way -/

/-- All ids in a storage: those of its vertices, then those of its edges. -/
def Storage.ids (s : Storage) : List UInt64 :=
  s.globals.map GlobalVertex.id ++ s.allCarried.map GlobalEdge.id

/-- The cluster without vertices and edges; no handle issued so far
    resolves in it. -/
def Cluster.cleared (k : Cluster) : Cluster := { k with storage := k.storage.clear }

namespace Tree

/-- The clusters outside the branch of a cluster. -/
def outside (t : Tree) (c : ClusterId) : List Cluster :=
  if t.top.cluster.id = c then [] else t.top.cluster :: (t.top.inside.prune c).clusters

/-- The ids that stay when the content of a branch goes: those outside it,
    apart from edges with an endpoint in it. -/
def remainingIds (t : Tree) (b : Branch) : List UInt64 :=
  (t.outside b.cluster.id).flatMap (fun k =>
    k.storage.globals.map GlobalVertex.id
      ++ (k.storage.allCarried.filter (fun e => !e.touches b.globals)).map GlobalEdge.id)

/-- The tree without what is in a branch, and without the edges that reach
    into it.  The emptied cluster itself stays. -/
def emptied (t : Tree) (b : Branch) : Tree :=
  (t.withdrawAbove (GlobalEdge.touches b.globals) b.cluster.id).update b.cluster.id
    (fun b => ⟨b.cluster.cleared, .nil⟩)

/-- The branches of a cluster and of a cluster of another tree, when the
    first can be copied into the second. -/
def copyable (source : Tree) (c : ClusterId) (target : Tree) (into : ClusterId) :
    Except Error (Branch × Branch) := do
  if !source.config.compatible target.config then throw .incompatibleConfig
  let branch ← source.require c
  let place ← target.require into
  let kept := target.remainingIds place
  match (branch.clustersLastFirst.flatMap (fun k => k.storage.ids)).find?
      (fun id => decide (id ∈ kept)) with
  | some id => throw (.duplicateGlobalId id)
  | none => return (branch, place)

/-- The tree with a copy of another tree's branch in place of the content of
    one of its own. -/
def replaceContent {σ : Type} (cloner : Cloner σ) (t : Tree) (place branch : Branch) :
    StateM σ Tree := do
  -- Ids of clusters go on from this tree's own; none of those that go is used again.
  let (copy, next) ← branch.clone cloner t.nextClusterId place.cluster.cleared
  return { (t.emptied place).update place.cluster.id (fun _ => copy) with
    nextClusterId := next }

end Tree

end NestedGraph
