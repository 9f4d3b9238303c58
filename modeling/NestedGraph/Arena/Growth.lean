import NestedGraph.Arena.Job

/-! # New vertices, clusters and edges

    Ids are drawn after all checks.  A new cluster is kept under its id
    first, with the place it is going to have, and listed by its parent
    after that. -/

namespace NestedGraph.Job

/-! ## Vertices and clusters -/

/-- Adds a vertex to a cluster, and tells its handle. -/
def putVertex (c : ClusterId) (record : VertexRecord) : Job LocalVertex := do
  let k ← cell c
  edit (fun a => a.mapStorage c (fun s => s.addVertex record))
  return k.storage.vertices.nextHandle

/-- Adds a vertex under a newly drawn id. -/
def putNewVertex (c : ClusterId) : Job (LocalVertex × GlobalVertex) := do
  let _ ← cell c
  let global : GlobalVertex := ⟨← mint⟩
  let record ← read (fun a => a.config.newVertex global)
  return (← putVertex c record, global)

/-- Adds a vertex with the next id. -/
def addVertex (c : ClusterId) : Job (LocalVertex × GlobalVertex) := do
  let (v, global) ← putNewVertex c
  mark c
  return (v, global)

/-- Adds a vertex with an id of the caller's choice, and moves the source past
    it.  Where the vertex is stored inside the cluster already, it or what
    stands for it is the answer and nothing changes. -/
def addVertexNamed (c : ClusterId) (global : GlobalVertex) :
    Job (LocalVertex × GlobalVertex) := do
  if !global.isUsable then throw (.invalidGlobalId global.id)
  let _ ← cell c
  match ← localVertex c global true with
  | some v => return (v, global)
  | none => do
      let record ← read (fun a => a.config.newVertex global)
      let v ← putVertex c record
      raiseIds global.id
      mark c
      return (v, global)

/-- Creates an empty child, on a new vertex of the cluster. -/
def addCluster (c : ClusterId) : Job (ClusterId × LocalVertex) := do
  let (v, _) ← putNewVertex c
  let child ← alloc c v
  edit (fun a => a.modify c (Cell.hang v child))
  mark c
  return (child, v)

/-! ## Edges -/

/-- Puts global edges onto the edge between two vertices.  Where there is none,
    both have to resolve for one to be made. -/
def attach (c : ClusterId) (v w : LocalVertex) (properties : List Value)
    (carried : List CarriedEdge) : Job LocalEdge := do
  let k ← cell c
  match k.storage.edgeBetween? v w with
  | some _ => pure ()
  | none => do
      let _ ← look (fun a => a.requireVertex c v)
      let _ ← look (fun a => a.requireVertex c w)
  edit (fun a => a.mapStorage c (fun s => s.attach v w properties carried))
  return k.storage.attachHandle v w

/-- Puts records of global edges onto edges, one after the other. -/
def attachLinks (c : ClusterId) : List Link → Job Unit
  | [] => return
  | l :: rest => do
      let _ ← attach c l.first l.second l.record.properties l.record.carried
      attachLinks c rest

/-- Puts a global edge without objects onto the edge between two vertices,
    under a newly drawn id. -/
def attachNew (c : ClusterId) (v w : LocalVertex) (source target : GlobalVertex) :
    Job (LocalEdge × GlobalEdge) := do
  let global : GlobalEdge := ⟨source, target, ← mint⟩
  let config ← read Arena.config
  let e ← attach c v w config.edge.initialValues [config.newCarried global]
  mark c
  return (e, global)

/-- Refuses a vertex that stands for a child. -/
def requireOrdinary (c : ClusterId) (v : LocalVertex) (global : GlobalVertex) : Job Unit := do
  if (← read (fun a => a.childAt? c v)).isSome then throw (.clusterEndpoint global)

/-- Connects two vertices of a cluster by a new global edge. -/
def addEdge (c : ClusterId) (v w : LocalVertex) : Job (LocalEdge × GlobalEdge) := do
  if v = w then throw .selfLoop
  let k ← look (fun a => a.requireVertex c v)
  match k.storage.global? v, k.storage.global? w with
  | some source, some target => do
      requireOrdinary c v source
      requireOrdinary c w target
      attachNew c v w source target
  | _, _ => throw (.invalidLocalVertex w)

/-- The vertex of a cluster that is or stands for a global vertex. -/
def requireRepresentative (c : ClusterId) (global : GlobalVertex) : Job LocalVertex := do
  match ← localVertex c global true with
  | some v => return v
  | none => throw (.vertexNotFound global)

/-- Refuses a global vertex that stands for a cluster anywhere inside `c`. -/
def requireOrdinaryGlobal (c : ClusterId) (global : GlobalVertex) : Job Unit := do
  match ← vertexOwner c global with
  | some (owner, v) => requireOrdinary owner v global
  | none => return

/-- The cluster in which an edge between two global vertices is stored, and the
    vertices that it connects there: `c` itself, or one of its children when
    both vertices lie inside that child. -/
def edgePlace (c : ClusterId) (source target : GlobalVertex) :
    Job (ClusterId × LocalVertex × LocalVertex) := do
  let _ ← cell c
  let v ← requireRepresentative c source
  let w ← requireRepresentative c target
  requireOrdinaryGlobal c source
  requireOrdinaryGlobal c target
  if v ≠ w then return (c, v, w)
  match ← read (fun a => a.childAt? c v) with
  | none => throw .selfLoop
  | some child => do
      let v ← requireRepresentative child source
      let w ← requireRepresentative child target
      if v = w then throw .selfLoop else return (child, v, w)

/-- Connects two global vertices stored inside a cluster by a new global edge.
    The flag tells whether the edge is stored in the cluster itself. -/
def connect (c : ClusterId) (source target : GlobalVertex) :
    Job (LocalEdge × GlobalEdge × Bool) := do
  let (holder, v, w) ← edgePlace c source target
  let (e, global) ← attachNew holder v w source target
  return (e, global, decide (holder = c))

end NestedGraph.Job
