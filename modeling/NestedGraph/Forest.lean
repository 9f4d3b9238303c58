import NestedGraph.Storage

/-! # Forests — clusters inside clusters

    A cluster hangs on a vertex of the cluster around it.  Nesting is kept
    structural: a forest is a row of clusters on their vertices, each
    with the forest of the clusters inside it.  An arena keeps the same
    clusters apart, with the names that they have of each other.  That
    these names always make up a forest is a fact about its operations
    (`Arena.Lays`); here it holds by construction. -/

namespace NestedGraph

/-- One cluster, apart from the clusters inside it. -/
structure Cluster where
  id : ClusterId
  storage : Storage
  properties : List Value
  /-- Changes to the cluster are not marked while this is set. -/
  copyMode : Bool

/-- The clusters inside one cluster, in order, with all that is inside
    them. -/
inductive Forest where
  | nil
  | cons (vertex : LocalVertex) (cluster : Cluster) (inside rest : Forest)

/-- A cluster with all that is inside it. -/
structure Branch where
  cluster : Cluster
  inside : Forest

namespace Forest

/-! ## One level -/

/-- One branch on a vertex. -/
def single (v : LocalVertex) (b : Branch) : Forest := cons v b.cluster b.inside nil

/-- The first forest followed by the second. -/
def append : Forest → Forest → Forest
  | nil, other => other
  | cons v k inside rest, other => cons v k inside (rest.append other)

/-- The branches of this level with their vertices. -/
def branches : Forest → List (LocalVertex × Branch)
  | nil => []
  | cons v k inside rest => (v, ⟨k, inside⟩) :: rest.branches

@[simp] theorem branches_append (f other : Forest) :
    (f.append other).branches = f.branches ++ other.branches := by
  induction f with
  | nil => rfl
  | cons v k inside rest _ ih => simp [append, branches, ih]

/-- The vertices and ids of this level. -/
def entries (f : Forest) : List (LocalVertex × ClusterId) :=
  f.branches.map (fun entry => (entry.1, entry.2.cluster.id))

/-- The branch on a vertex of this level. -/
def branchAt? (v : LocalVertex) : Forest → Option Branch
  | nil => none
  | cons w k inside rest => if w = v then some ⟨k, inside⟩ else rest.branchAt? v

/-- This level without the branch on a vertex. -/
def eraseAt (v : LocalVertex) : Forest → Forest
  | nil => nil
  | cons w k inside rest => if w = v then rest else cons w k inside (rest.eraseAt v)

/-! ## All levels -/

/-- All clusters, each before those inside it. -/
def clusters : Forest → List Cluster
  | nil => []
  | cons _ k inside rest => k :: inside.clusters ++ rest.clusters

@[simp] theorem clusters_append (f other : Forest) :
    (f.append other).clusters = f.clusters ++ other.clusters := by
  induction f with
  | nil => rfl
  | cons v k inside rest _ ih => simp [append, clusters, ih]

/-- All clusters, each before those inside it, later siblings first. -/
def clustersLastFirst : Forest → List Cluster
  | nil => []
  | cons _ k inside rest => rest.clustersLastFirst ++ k :: inside.clustersLastFirst

/-- The branch of a cluster. -/
def find? (c : ClusterId) : Forest → Option Branch
  | nil => none
  | cons _ k inside rest =>
      if k.id = c then some ⟨k, inside⟩ else (inside.find? c).or (rest.find? c)

/-- The branch that is found is that of the cluster. -/
theorem id_of_find? {c : ClusterId} {f : Forest} {b : Branch} (h : f.find? c = some b) :
    b.cluster.id = c := by
  induction f with
  | nil => exact nomatch h
  | cons v k inside rest ihInside ihRest =>
      unfold find? at h
      split at h
      · rename_i hk
        obtain rfl := Option.some.inj h
        exact hk
      · rcases Option.or_eq_some_iff.mp h with h | ⟨-, h⟩
        · exact ihInside h
        · exact ihRest h

/-- A cluster has a branch exactly when it is one of the clusters. -/
theorem find?_isSome_iff (c : ClusterId) (f : Forest) :
    (f.find? c).isSome = true ↔ c ∈ f.clusters.map Cluster.id := by
  induction f with
  | nil => simp [find?, clusters]
  | cons v k inside rest ihInside ihRest =>
      by_cases hk : k.id = c
      · simp [find?, clusters, hk]
      · rw [find?, if_neg hk, Option.isSome_or, Bool.or_eq_true, ihInside, ihRest]
        simp [clusters, Ne.symm hk]

/-- Changes the branch of a cluster. -/
def update (c : ClusterId) (f : Branch → Branch) : Forest → Forest
  | nil => nil
  | cons v k inside rest =>
      if k.id = c then
        let b := f ⟨k, inside⟩
        cons v b.cluster b.inside (rest.update c f)
      else cons v k (inside.update c f) (rest.update c f)

/-- The forest without the branch of a cluster. -/
def prune (c : ClusterId) : Forest → Forest
  | nil => nil
  | cons v k inside rest =>
      if k.id = c then rest.prune c else cons v k (inside.prune c) (rest.prune c)

/-- The way up from a cluster: the clusters around it, nearest first, each
    with the vertex on which the way goes down again.  The forest lies in
    the cluster `around`. -/
def path? (around c : ClusterId) : Forest → Option (List (ClusterId × LocalVertex))
  | nil => none
  | cons v k inside rest =>
      if k.id = c then some [(around, v)]
      else ((inside.path? k.id c).map (· ++ [(around, v)])).or (rest.path? around c)

end Forest

namespace Branch

/-- All clusters of the branch, each before those inside it. -/
def clusters (b : Branch) : List Cluster := b.cluster :: b.inside.clusters

/-- All clusters of the branch, each before those inside it, later
    siblings first. -/
def clustersLastFirst (b : Branch) : List Cluster := b.cluster :: b.inside.clustersLastFirst

/-- The branch of a cluster. -/
def find? (c : ClusterId) (b : Branch) : Option Branch :=
  if b.cluster.id = c then some b else b.inside.find? c

/-- Changes the branch of a cluster. -/
def update (c : ClusterId) (f : Branch → Branch) (b : Branch) : Branch :=
  if b.cluster.id = c then f b else { b with inside := b.inside.update c f }

/-- Changes the storage of the branch's own cluster. -/
def mapStorage (b : Branch) (f : Storage → Storage) : Branch :=
  { b with cluster := { b.cluster with storage := f b.cluster.storage } }

/-- The handle of the vertex that is added next. -/
def nextVertex (b : Branch) : LocalVertex := b.cluster.storage.vertices.nextHandle

/-- Adds a vertex to the branch's own cluster, and hangs a branch on it if
    one is given. -/
def receive (b : Branch) (record : VertexRecord) (nested : Option Branch) : Branch where
  cluster := { b.cluster with storage := b.cluster.storage.addVertex record }
  inside :=
    match nested with
    | some child => b.inside.append (.single b.nextVertex child)
    | none => b.inside

/-- The global names of all vertices in the branch. -/
def globals (b : Branch) : List GlobalVertex := b.clusters.flatMap (fun k => k.storage.globals)

/-- The global names that go with a vertex of the branch's own cluster: its
    own, and those of all vertices in the branch that it stands for. -/
def travelling (b : Branch) (v : LocalVertex) : List GlobalVertex :=
  (b.cluster.storage.global? v).toList
    ++ (match b.inside.branchAt? v with
        | some child => child.globals
        | none => [])

end Branch

end NestedGraph
