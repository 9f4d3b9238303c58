import NestedGraph.Tree.Marking
import NestedGraph.Tree.Traversal

/-! # Arenas — clusters stored one by one

    An arena keeps each cluster of a tree under its id, and what hangs
    where is written down twice: a cluster lists its children with the
    vertices that stand for them, and names its own parent and the vertex
    that stands for it there.  The two are written at different times, and
    only the operations keep them in step. -/

namespace NestedGraph

/-! ## Children maps -/

/-- The children of a cluster on their vertices, in the order in which they
    were put in. -/
abbrev ChildMap := List (LocalVertex × ClusterId)

namespace ChildMap

/-- The child on a vertex. -/
def get? (m : ChildMap) (v : LocalVertex) : Option ClusterId :=
  (m.find? (fun entry => decide (entry.1 = v))).map Prod.snd

/-- Puts a child on a vertex, in place of one that is there or else last. -/
def insert (m : ChildMap) (v : LocalVertex) (d : ClusterId) : ChildMap :=
  if (m.get? v).isSome then m.map (fun entry => if entry.1 = v then (v, d) else entry)
  else m ++ [(v, d)]

/-- Takes the child off a vertex. -/
def erase (m : ChildMap) (v : LocalVertex) : ChildMap :=
  m.filter (fun entry => decide (entry.1 ≠ v))

end ChildMap

/-! ## One cluster -/

/-- What an arena keeps for one cluster. -/
structure Cell where
  cluster : Cluster
  children : ChildMap
  /-- The cluster around; none for the root. -/
  parent : Option ClusterId
  /-- The vertex that stands for the cluster in its parent; none for the
      root. -/
  vertex : Option LocalVertex

namespace Cell

/-- The id of the cluster. -/
def id (k : Cell) : ClusterId := k.cluster.id

/-- The storage of the cluster. -/
def storage (k : Cell) : Storage := k.cluster.storage

/-- Changes the cluster, but not what hangs where. -/
def mapCluster (k : Cell) (f : Cluster → Cluster) : Cell := { k with cluster := f k.cluster }

/-- Changes the storage of the cluster. -/
def mapStorage (k : Cell) (f : Storage → Storage) : Cell :=
  k.mapCluster (fun cluster => { cluster with storage := f cluster.storage })

/-- Lists a child on a vertex. -/
def hang (v : LocalVertex) (d : ClusterId) (k : Cell) : Cell :=
  { k with children := k.children.insert v d }

/-- Takes a vertex out of the storage with its edges there, and the child on it
    off the list. -/
def cut (v : LocalVertex) (k : Cell) : Cell :=
  { k.mapStorage (fun s => s.removeVertex v) with children := k.children.erase v }

/-- Names another parent, and the vertex there. -/
def settle (parent : ClusterId) (v : LocalVertex) (k : Cell) : Cell :=
  { k with parent := some parent, vertex := some v }

/-- Without vertices, edges and children. -/
def clear (k : Cell) : Cell := { k.mapCluster Cluster.cleared with children := [] }

/-- What goes with the cluster itself: its edges, its vertices that stand for no
    child, and the cluster. -/
def removals (k : Cell) : List Removal :=
  k.storage.allCarried.map .edge
    ++ (k.storage.vertices.entries.filter
        (fun entry => (k.children.get? entry.1).isNone)).map (fun entry => .vertex entry.2.global)
    ++ [.cluster k.id]

end Cell

/-! ## All clusters -/

/-- The clusters of one tree. -/
structure Arena where
  config : Config
  cells : List Cell
  /-- The id of the next cluster. -/
  next : UInt64
  root : ClusterId

namespace Arena

/-- An arena with an empty root. -/
def new (config : Config) : Arena :=
  ⟨config, [⟨config.newCluster Tree.rootId, [], none, none⟩], 1, Tree.rootId⟩

/-- How many clusters there are. -/
def count (a : Arena) : Nat := a.cells.length

/-! ### Reading -/

/-- What is kept for a cluster, if it is alive. -/
def get? (a : Arena) (c : ClusterId) : Option Cell :=
  a.cells.find? (fun k => decide (k.id = c))

/-- The cluster is alive. -/
def isLive (a : Arena) (c : ClusterId) : Bool := (a.get? c).isSome

/-- The storage of a cluster. -/
def storage? (a : Arena) (c : ClusterId) : Option Storage := (a.get? c).map Cell.storage

/-- The parent that a cluster names. -/
def parent? (a : Arena) (c : ClusterId) : Option ClusterId := (a.get? c).bind Cell.parent

/-- The vertex by which a cluster says that it is represented. -/
def vertex? (a : Arena) (c : ClusterId) : Option LocalVertex := (a.get? c).bind Cell.vertex

/-- The children that a cluster lists. -/
def children (a : Arena) (c : ClusterId) : ChildMap :=
  match a.get? c with
  | some k => k.children
  | none => []

/-- The child that a cluster lists on a vertex. -/
def childAt? (a : Arena) (c : ClusterId) (v : LocalVertex) : Option ClusterId :=
  (a.get? c).bind (fun k => k.children.get? v)

/-- The ids of the children that a cluster lists, if it is alive. -/
def childIds? (a : Arena) (c : ClusterId) : Option (List ClusterId) :=
  (a.get? c).map (fun k => k.children.map Prod.snd)

/-- The clusters of an arena as a traversal reads them. -/
def links (a : Arena) : Links := ⟨a.parent?, a.vertex?, a.childIds?, a.storage?⟩

/-- The global name of a vertex. -/
def global? (a : Arena) (c : ClusterId) (v : LocalVertex) : Option GlobalVertex :=
  (a.storage? c).bind (fun s => s.global? v)

/-! ### Checks -/

/-- What is kept for a cluster that has to be alive. -/
def require (a : Arena) (c : ClusterId) : Except Error Cell :=
  match a.get? c with
  | some k => .ok k
  | none => .error (.clusterNotFound c)

/-- What is kept for a cluster in which a vertex handle has to resolve. -/
def requireVertex (a : Arena) (c : ClusterId) (v : LocalVertex) : Except Error Cell := do
  let k ← a.require c
  if k.storage.hasVertex v then return k else throw (.invalidLocalVertex v)

/-- What is kept for a cluster in which an edge handle has to resolve. -/
def requireEdge (a : Arena) (c : ClusterId) (e : LocalEdge) : Except Error Cell := do
  let k ← a.require c
  if k.storage.hasEdge e then return k else throw (.invalidLocalEdge e)

/-- The child that a vertex has to stand for. -/
def requireChildAt (a : Arena) (c : ClusterId) (v : LocalVertex) : Except Error ClusterId :=
  match a.childAt? c v with
  | some child => .ok child
  | none => .error (.invalidLocalVertex v)

/-- The vertex of a cluster that has to be a direct child.  What the child says
    of its place is held against what the parent lists there. -/
def vertexOfChild (a : Arena) (parent child : ClusterId) : Except Error LocalVertex := do
  let p ← a.require parent
  let k ← a.require child
  if k.parent ≠ some parent then throw (.notASubcluster parent child)
  match k.vertex with
  | none => throw (.notASubcluster parent child)
  | some v =>
      if p.children.get? v ≠ some child ∨ p.storage.hasVertex v = false then
        throw (.cluster (.mapMismatch v))
      else return v

/-! ### Writing -/

/-- Keeps something for a cluster, in place of what was kept under its id. -/
def insert (a : Arena) (k : Cell) : Arena :=
  { a with cells := k :: a.cells.filter (fun other => decide (other.id ≠ k.id)) }

/-- Drops a cluster. -/
def remove (a : Arena) (c : ClusterId) : Arena :=
  { a with cells := a.cells.filter (fun k => decide (k.id ≠ c)) }

/-- Changes what is kept for a cluster, if it is alive. -/
def modify (a : Arena) (c : ClusterId) (f : Cell → Cell) : Arena :=
  { a with cells := a.cells.map (fun k => if k.id = c then f k else k) }

/-- Changes a cluster, but not what hangs where. -/
def mapCluster (a : Arena) (c : ClusterId) (f : Cluster → Cluster) : Arena :=
  a.modify c (fun k => k.mapCluster f)

/-- Changes the storage of a cluster. -/
def mapStorage (a : Arena) (c : ClusterId) (f : Storage → Storage) : Arena :=
  a.modify c (fun k => k.mapStorage f)

/-- Marks a cluster as changed, unless it is in copy mode. -/
def mark (a : Arena) (c : ClusterId) : Arena := a.mapCluster c (Cluster.mark a.config)

/-! ### Traversals that change clusters -/

/-- Marks a cluster and those around it up to `last`. -/
def markUp (a : Arena) (steps : Nat) (c last : ClusterId) : Option (Trace Arena) :=
  climb (fun a d => (a.parent? d).map (fun p => (p, ()))) (fun a d _ => (a.mark d, decide (d = last)))
    steps a c none

/-- Takes the matching edges off a vertex of a cluster, and marks the cluster if
    there were any. -/
def purgeAt (p : GlobalEdge → Bool) (a : Arena) (c : ClusterId) (v : LocalVertex) :
    Arena × List Removal :=
  match a.get? c with
  | none => (a, [])
  | some k =>
      let (s, taken) := k.storage.purgeAt p v
      let a := a.mapStorage c (fun _ => s)
      (if taken.isEmpty then a else a.mark c, taken.map .edge)

/-- Takes the matching edges off the vertex by which a cluster was reached. -/
def purgeVisit (p : GlobalEdge → Bool) (s : Arena × List Removal) (c : ClusterId) :
    Option LocalVertex → (Arena × List Removal) × Bool
  | none => (s, false)
  | some v =>
      let (a, more) := s.1.purgeAt p c v
      ((a, s.2 ++ more), false)

/-- Takes the matching edges stored around a cluster out. -/
def purgeUp (a : Arena) (steps : Nat) (p : GlobalEdge → Bool) (c : ClusterId) :
    Option (Trace (Arena × List Removal)) :=
  climb (fun s d => (s.1.parent? d).bind (fun q => (s.1.vertex? d).map (fun v => (q, v))))
    (purgeVisit p) steps (a, []) c none

/-- Takes clusters out after those inside them. -/
def remover : Visitor (Arena × List Removal) where
  childIds? := fun s => s.1.childIds?
  enter := fun s _ => (s, false)
  announce := fun s _ => s
  leave := fun (a, gone) c =>
    match a.get? c with
    | some k => (a.remove c, gone ++ k.removals)
    | none => (a, gone)

/-- Takes a cluster out with everything inside it. -/
def teardown (a : Arena) (steps : Nat) (c : ClusterId) : Option (Trace (Arena × List Removal)) :=
  remover.visit steps (a, []) c

end Arena

end NestedGraph
