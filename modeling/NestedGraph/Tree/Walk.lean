import NestedGraph.Tree

/-! # Walks — visiting objects

    A walk visits the objects on the vertices of a cluster, then those on
    the global edges of its edges, all by slot.  A recursive walk goes on
    into each child, and names the child before anything inside it. -/

namespace NestedGraph

/-- One step of a walk. -/
inductive WalkStep where
  | cluster (cluster : ClusterId)
  | object (object : TypedObject)
deriving DecidableEq

/-- The objects on the vertices and global edges of a cluster, in the order
    of a walk, as far as `pick` takes them from the slots of one entity. -/
def Storage.objects (pick : List (Option TypedObject) → List TypedObject) (s : Storage) :
    List TypedObject :=
  s.vertices.values.flatMap (fun r => pick r.objects)
    ++ s.edges.values.flatMap (fun l => l.record.carried.flatMap (fun edge => pick edge.objects))

/-- A recursive walk through the clusters of a forest. -/
def Forest.walk (pick : List (Option TypedObject) → List TypedObject) : Forest → List WalkStep
  | nil => []
  | cons _ k inside rest =>
      .cluster k.id :: (k.storage.objects pick).map .object ++ inside.walk pick ++ rest.walk pick

/-- A walk through a cluster, and through what is inside it if
    recursive. -/
def Branch.walk (pick : List (Option TypedObject) → List TypedObject) (recursive : Bool)
    (b : Branch) : List WalkStep :=
  (b.cluster.storage.objects pick).map .object ++ (if recursive then b.inside.walk pick else [])

namespace Tree

/-- Visits the objects of one type in the slots of that type. -/
def visitType (t : Tree) (type : AttributeType) (c : ClusterId) (recursive : Bool) :
    Except Error (List WalkStep) := do
  let slot ← t.config.objects.require type
  let b ← t.require c
  return b.walk
    (fun slots => (slots[slot]?.join).toList.filter (fun object => decide (object.type = type)))
    recursive

/-- Visits all objects. -/
def visitAll (t : Tree) (c : ClusterId) (recursive : Bool) : Except Error (List WalkStep) := do
  let b ← t.require c
  return b.walk (fun slots => slots.filterMap id) recursive

end Tree

end NestedGraph
