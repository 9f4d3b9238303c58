import NestedGraph.Forest

/-! # Trees — all clusters under one root

    A tree has one root cluster and one configuration.  Every operation
    names the cluster it addresses by id; handles that come with it are
    meant in that cluster.  This module finds clusters, and changes one at
    a time. -/

namespace NestedGraph

/-- A cluster without vertices, with initial properties. -/
def Config.newCluster (c : Config) (id : ClusterId) : Cluster :=
  ⟨id, .empty, c.cluster.initialValues, false⟩

/-- A tree of clusters. -/
structure Tree where
  config : Config
  /-- The id of the next cluster.  An arena has it in 64 bits. -/
  nextClusterId : Nat
  /-- The root cluster with everything inside it. -/
  top : Branch

namespace Tree

/-- The id of every root. -/
def rootId : ClusterId := ⟨0⟩

/-- A tree with an empty root. -/
def new (config : Config) : Tree := ⟨config, 1, ⟨config.newCluster rootId, .nil⟩⟩

/-- The id of the root. -/
def root (t : Tree) : ClusterId := t.top.cluster.id

/-- The cluster is the root. -/
def isRoot (t : Tree) (c : ClusterId) : Bool := decide (c = t.root)

/-- All clusters, each before those inside it. -/
def clusters (t : Tree) : List Cluster := t.top.clusters

/-- How many clusters there are. -/
def clusterCount (t : Tree) : Nat := t.clusters.length

/-! ## Finding clusters -/

/-- The branch of a cluster, if it is alive. -/
def find? (t : Tree) (c : ClusterId) : Option Branch := t.top.find? c

/-- The cluster is alive. -/
def isLive (t : Tree) (c : ClusterId) : Bool := (t.find? c).isSome

/-- The storage of a cluster. -/
def storage? (t : Tree) (c : ClusterId) : Option Storage :=
  (t.find? c).map (fun b => b.cluster.storage)

/-- The branch of a cluster that has to be alive. -/
def require (t : Tree) (c : ClusterId) : Except Error Branch :=
  match t.find? c with
  | some b => .ok b
  | none => .error (.clusterNotFound c)

/-- The branch of a cluster in which a vertex handle has to resolve. -/
def requireVertex (t : Tree) (c : ClusterId) (v : LocalVertex) : Except Error Branch := do
  let b ← t.require c
  if b.cluster.storage.hasVertex v then return b else throw (.invalidLocalVertex v)

/-- The branch of a cluster in which an edge handle has to resolve. -/
def requireEdge (t : Tree) (c : ClusterId) (e : LocalEdge) : Except Error Branch := do
  let b ← t.require c
  if b.cluster.storage.hasEdge e then return b else throw (.invalidLocalEdge e)

/-! ## The way up -/

/-- The clusters around a cluster, nearest first, each with the vertex
    that stands in it for what lies on the way down to the cluster.  Empty
    for the root and for a dead cluster. -/
def path (t : Tree) (c : ClusterId) : List (ClusterId × LocalVertex) :=
  if t.top.cluster.id = c then []
  else (t.top.inside.path? t.top.cluster.id c).getD []

/-- The cluster around a cluster, and the vertex that stands for it
    there. -/
def place? (t : Tree) (c : ClusterId) : Option (ClusterId × LocalVertex) := (t.path c).head?

/-- The cluster around a cluster. -/
def parent? (t : Tree) (c : ClusterId) : Option ClusterId := (t.place? c).map Prod.fst

/-- The vertex that stands for a cluster in the cluster around it. -/
def vertex? (t : Tree) (c : ClusterId) : Option LocalVertex := (t.place? c).map Prod.snd

/-- A cluster and those around it, nearest first, up to the first one that
    is `last`. -/
def wayUp (t : Tree) (c last : ClusterId) : List ClusterId :=
  upTo (c :: (t.path c).map Prod.fst)
where
  upTo : List ClusterId → List ClusterId
    | [] => []
    | d :: rest => if d = last then [d] else d :: upTo rest

/-- The cluster is `c` itself or lies around it. -/
def isAncestor (t : Tree) (a c : ClusterId) : Bool :=
  decide (a ∈ c :: (t.path c).map Prod.fst)

/-! ## Direct children -/

/-- The children of a cluster with the vertices that stand for them. -/
def children (t : Tree) (c : ClusterId) : List (LocalVertex × ClusterId) :=
  match t.find? c with
  | some b => b.inside.entries
  | none => []

/-- The child that a vertex stands for. -/
def childAt? (t : Tree) (c : ClusterId) (v : LocalVertex) : Option ClusterId :=
  ((t.find? c).bind (fun b => b.inside.branchAt? v)).map (fun b => b.cluster.id)

/-- The vertex stands for a child. -/
def isClusterVertex (t : Tree) (c : ClusterId) (v : LocalVertex) : Bool :=
  (t.childAt? c v).isSome

/-- The vertex of a cluster that has to be a direct child. -/
def vertexOfChild (t : Tree) (parent child : ClusterId) : Except Error LocalVertex := do
  let p ← t.require parent
  let _ ← t.require child
  match t.place? child with
  | some (q, v) =>
      -- That the parent lists the child there holds of every tree, where an arena has to
      -- compare (`Arena.Lays.vertexOfChild`).  That the vertex resolves holds of the trees
      -- that operations lead to.
      if q ≠ parent then throw (.notASubcluster parent child)
      else if p.cluster.storage.hasVertex v then return v
      else throw (.cluster (.mapMismatch v))
  | none => throw (.notASubcluster parent child)

/-- The child that a vertex has to stand for. -/
def requireChildAt (t : Tree) (c : ClusterId) (v : LocalVertex) : Except Error ClusterId :=
  match t.childAt? c v with
  | some child => .ok child
  | none => .error (.invalidLocalVertex v)

/-! ## Changing one cluster -/

/-- Changes the branch of a cluster. -/
def update (t : Tree) (c : ClusterId) (f : Branch → Branch) : Tree :=
  { t with top := t.top.update c f }

/-- Changes a cluster, but not what is inside it. -/
def mapCluster (t : Tree) (c : ClusterId) (f : Cluster → Cluster) : Tree :=
  t.update c (fun b => { b with cluster := f b.cluster })

/-- Changes the storage of a cluster. -/
def mapStorage (t : Tree) (c : ClusterId) (f : Storage → Storage) : Tree :=
  t.update c (fun b => b.mapStorage f)

/-- Adds a vertex to a cluster, and hangs a branch on it if one is given. -/
def receive (t : Tree) (c : ClusterId) (record : VertexRecord) (nested : Option Branch) : Tree :=
  t.update c (fun b => b.receive record nested)

/-- Takes a vertex off a cluster, with its edges there and the branch that
    it stands for. -/
def cutAt (t : Tree) (c : ClusterId) (v : LocalVertex) : Tree :=
  t.update c (fun b =>
    { b.mapStorage (fun s => s.removeVertex v) with inside := b.inside.eraseAt v })

/-- Hangs a branch on a vertex of a cluster, after those that hang there. -/
def graft (t : Tree) (c : ClusterId) (v : LocalVertex) (child : Branch) : Tree :=
  t.update c (fun b => { b with inside := b.inside.append (.single v child) })

@[simp] theorem config_update (t : Tree) (c : ClusterId) (f : Branch → Branch) :
    (t.update c f).config = t.config := rfl

@[simp] theorem nextClusterId_update (t : Tree) (c : ClusterId) (f : Branch → Branch) :
    (t.update c f).nextClusterId = t.nextClusterId := rfl

@[simp] theorem config_mapCluster (t : Tree) (c : ClusterId) (f : Cluster → Cluster) :
    (t.mapCluster c f).config = t.config := rfl

@[simp] theorem nextClusterId_mapCluster (t : Tree) (c : ClusterId) (f : Cluster → Cluster) :
    (t.mapCluster c f).nextClusterId = t.nextClusterId := rfl

end Tree

end NestedGraph
