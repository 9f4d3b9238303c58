import NestedGraph.Tree

/-! # Marking — which clusters changed

    Every change to the structure of a cluster sets its change flag,
    unless the cluster is in copy mode. -/

namespace NestedGraph

/-- Sets the change flag, unless in copy mode. -/
def Cluster.mark (config : Config) (k : Cluster) : Cluster :=
  if k.copyMode then k
  else { k with properties := config.cluster.put changedFlag (.flag true) k.properties }

@[simp] theorem Cluster.id_mark (config : Config) (k : Cluster) : (k.mark config).id = k.id := by
  unfold mark
  split <;> rfl

@[simp] theorem Cluster.storage_mark (config : Config) (k : Cluster) :
    (k.mark config).storage = k.storage := by
  unfold mark
  split <;> rfl

@[simp] theorem Cluster.copyMode_mark (config : Config) (k : Cluster) :
    (k.mark config).copyMode = k.copyMode := by
  unfold mark
  split <;> rfl

namespace Tree

/-- Marks a cluster as changed, unless it is in copy mode. -/
def mark (t : Tree) (c : ClusterId) : Tree := t.mapCluster c (Cluster.mark t.config)

/-- Marks a cluster and those around it up to `last`. -/
def markUpTo (t : Tree) (c last : ClusterId) : Tree := (t.wayUp c last).foldl mark t

/-- The change flag of a cluster; a dead cluster has none. -/
def isChanged (t : Tree) (c : ClusterId) : Bool :=
  match t.find? c with
  | some b =>
      match t.config.cluster.read changedFlag b.cluster.properties with
      | .ok value => decide (value = .flag true)
      | .error _ => false
  | none => false

/-- The cluster is in copy mode. -/
def isCopyMode (t : Tree) (c : ClusterId) : Bool :=
  (t.find? c).any (fun b => b.cluster.copyMode)

/-- Marks a live cluster as changed. -/
def setChanged (t : Tree) (c : ClusterId) : Except Error Tree := do
  let _ ← t.require c
  return t.mark c

/-- Turns copy mode of a live cluster on or off. -/
def setCopyMode (t : Tree) (c : ClusterId) (on : Bool) : Except Error Tree := do
  let _ ← t.require c
  return t.mapCluster c (fun k => { k with copyMode := on })

end Tree

end NestedGraph
