import NestedGraph.Graph.Command

/-! # Sessions — a graph while an operation works on it

    An operation goes step by step.  A step that fails ends it, and what
    the steps before changed stays changed: nothing is rolled back.  This
    module has the steps themselves, and the operations that create
    vertices, clusters and edges. -/

namespace NestedGraph

/-- A graph that is worked on, the serial number of the newest object, and
    everything reported as removed so far, the oldest first. -/
structure Session where
  graph : Graph
  serial : Nat
  reported : List Removal

/-- Steps in a row, each of which may fail. -/
abbrev Act (α : Type) := ExceptT Error (StateM Session) α

namespace Act

variable {α : Type}

/-! ## Single steps -/

/-- Looks something up, or fails. -/
def look (f : Graph → Except Error α) : Act α := fun s => (f s.graph, s)

/-- Changes the tree. -/
def edit (f : Tree → Tree) : Act Unit := fun s =>
  (.ok (), { s with graph := { s.graph with tree := f s.graph.tree } })

/-- Draws an id. -/
def mint : Act UInt64 := fun s =>
  (.ok s.graph.ids.next, { s with graph := { s.graph with ids := s.graph.ids.advance } })

/-- Moves the source of ids forward. -/
def raiseIds (count : UInt64) : Act Unit := fun s =>
  (.ok (), { s with graph := { s.graph with ids := s.graph.ids.raise count } })

/-- Makes objects for a copy, and counts them. -/
def clone (x : StateM Nat α) : Act α := fun s =>
  let (a, serial) := x s.serial
  (.ok a, { s with serial := serial })

/-- Reserves the id of the next cluster. -/
def allocate : Act ClusterId := fun s =>
  let tree := s.graph.tree
  (.ok ⟨tree.nextClusterId⟩,
    { s with graph := { s.graph with tree := { tree with nextClusterId := tree.nextClusterId + 1 } } })

/-- Does in one step what makes all its checks before the first change, and
    reports what that removes. -/
def atOnce (f : Graph → Except Error (Graph × Reply)) : Act Reply := fun s =>
  match f s.graph with
  | .ok (g, reply) =>
      (.ok reply, { s with graph := g, reported := s.reported ++ reply.removals })
  | .error e => (.error e, s)

/-! ## Vertices and clusters -/

/-- Adds a vertex to a cluster, hangs a branch on it if one is given, and
    tells its handle.  In an arena the cluster on the vertex is looked up again
    to be told its place, which may fail there (`Job.reparent`). -/
def bringIn (c : ClusterId) (record : VertexRecord) (nested : Option Branch) :
    Act LocalVertex := do
  let b ← look (fun g => g.tree.require c)
  edit (fun t => t.receive c record nested)
  return b.nextVertex

/-- Adds a vertex under a newly drawn id. -/
def bringInNew (c : ClusterId) : Act (LocalVertex × GlobalVertex) := do
  let _ ← look (fun g => g.tree.require c)
  let global : GlobalVertex := ⟨← mint⟩
  let record ← look (fun g => .ok (g.tree.config.newVertex global))
  return (← bringIn c record none, global)

/-- Adds a vertex with the next id. -/
def addVertex (c : ClusterId) : Act (LocalVertex × GlobalVertex) := do
  let (v, global) ← bringInNew c
  edit (fun t => t.mark c)
  return (v, global)

/-- Creates an empty child, on a new vertex of the cluster. -/
def addCluster (c : ClusterId) : Act (ClusterId × LocalVertex) := do
  let (v, _) ← bringInNew c
  let child ← allocate
  edit (fun t => t.graft c v ⟨t.config.newCluster child, .nil⟩)
  edit (fun t => t.mark c)
  return (child, v)

/-! ## Edges -/

/-- Puts global edges onto the edge between two vertices.  Where there is
    none, both have to resolve for one to be made. -/
def attach (c : ClusterId) (a b : LocalVertex) (properties : List Value)
    (carried : List CarriedEdge) : Act LocalEdge := do
  let branch ← look (fun g => g.tree.require c)
  match branch.cluster.storage.edgeBetween? a b with
  | some _ => pure ()
  | none => do
      let _ ← look (fun g => g.tree.requireVertex c a)
      let _ ← look (fun g => g.tree.requireVertex c b)
  edit (fun t => t.mapStorage c (fun s => s.attach a b properties carried))
  return branch.cluster.storage.attachHandle a b

/-- Puts records of global edges onto edges, one after the other. -/
def attachLinks (c : ClusterId) : List Link → Act Unit
  | [] => return
  | l :: rest => do
      let _ ← attach c l.first l.second l.record.properties l.record.carried
      attachLinks c rest

/-- Puts a global edge without objects onto the edge between two vertices,
    under a newly drawn id. -/
def attachNew (c : ClusterId) (a b : LocalVertex) (source target : GlobalVertex) :
    Act (LocalEdge × GlobalEdge) := do
  let global : GlobalEdge := ⟨source, target, ← mint⟩
  let config ← look (fun g => .ok g.tree.config)
  let e ← attach c a b config.edge.initialValues [config.newCarried global]
  edit (fun t => t.mark c)
  return (e, global)

/-- Connects two vertices of a cluster by a new global edge. -/
def addEdge (c : ClusterId) (a b : LocalVertex) : Act (LocalEdge × GlobalEdge) := do
  let (_, source, target) ← look (fun g => g.edgeEnds c a b)
  attachNew c a b source target

/-- Connects two global vertices stored inside a cluster by a new global
    edge.  The flag tells whether the edge is stored in the cluster
    itself. -/
def connect (c : ClusterId) (source target : GlobalVertex) :
    Act (LocalEdge × GlobalEdge × Bool) := do
  let (holder, a, b) ← look (fun g => g.edgePlace c source target)
  let (e, global) ← attachNew holder.cluster.id a b source target
  return (e, global, decide (holder.cluster.id = c))

end Act

end NestedGraph
