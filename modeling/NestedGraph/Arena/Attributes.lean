import NestedGraph.Arena.Job

/-! # Attributes in an arena

    A global key is looked for cluster by cluster, and what it names is
    read or written in the cluster that stores it. -/

namespace NestedGraph.Job

/-! ## Resolving keys -/

/-- The place that a key names. -/
def resolve (c : ClusterId) : AttributeKey → Job Location
  | .localVertex v => do
      let _ ← look (fun a => a.requireVertex c v)
      return .vertex c v
  | .localEdge e => do
      let _ ← look (fun a => a.requireEdge c e)
      return .edge c e none
  | .globalVertex global => do
      let _ ← cell c
      match ← vertexOwner c global with
      | some (owner, v) => return .vertex owner v
      | none => throw (.vertexNotFound global)
  | .globalEdge global => do
      let _ ← cell c
      match ← edgeOwner c global with
      | some (owner, e) => return .edge owner e (some global)
      | none => throw (.edgeNotFound global)

/-- What is kept for a vertex of a live cluster. -/
def vertexRecord (c : ClusterId) (v : LocalVertex) : Job VertexRecord := do
  match (← cell c).storage.vertex? v with
  | some record => return record
  | none => throw (.invalidLocalVertex v)

/-- What is kept for an edge of a live cluster. -/
def edgeRecord (c : ClusterId) (e : LocalEdge) : Job EdgeRecord := do
  match (← cell c).storage.edgeRecord? e with
  | some record => return record
  | none => throw (.invalidLocalEdge e)

/-- Changes what is kept for a vertex. -/
def modifyVertex (c : ClusterId) (v : LocalVertex) (f : VertexRecord → VertexRecord) : Job Unit :=
  edit (fun a => a.mapStorage c (fun s => s.modifyVertex v f))

/-- Changes what is kept for an edge. -/
def modifyEdge (c : ClusterId) (e : LocalEdge) (f : EdgeRecord → EdgeRecord) : Job Unit :=
  edit (fun a => a.mapStorage c (fun s => s.modifyEdge e f))

/-! ## Properties -/

/-- The value of a property of a vertex or an edge. -/
def property (type : AttributeType) (c : ClusterId) (key : AttributeKey) : Job Value := do
  let config ← read Arena.config
  match ← resolve c key with
  | .vertex owner v => settle (config.vertex.read type (← vertexRecord owner v).properties)
  | .edge owner e _ => settle (config.edge.read type (← edgeRecord owner e).properties)

/-- Gives a property of a vertex or an edge another value. -/
def setProperty (type : AttributeType) (c : ClusterId) (key : AttributeKey) (value : Value) :
    Job Unit := do
  let config ← read Arena.config
  match ← resolve c key with
  | .vertex owner v => do
      let properties ← settle (config.vertex.write type value (← vertexRecord owner v).properties)
      modifyVertex owner v (fun r => { r with properties := properties })
  | .edge owner e _ => do
      let properties ← settle (config.edge.write type value (← edgeRecord owner e).properties)
      modifyEdge owner e (fun r => { r with properties := properties })

/-- The value of a property of a cluster. -/
def clusterProperty (type : AttributeType) (c : ClusterId) : Job Value := do
  let config ← read Arena.config
  settle (config.cluster.read type (← cell c).cluster.properties)

/-- Gives a property of a cluster another value. -/
def setClusterProperty (type : AttributeType) (c : ClusterId) (value : Value) : Job Unit := do
  let config ← read Arena.config
  let properties ← settle (config.cluster.write type value (← cell c).cluster.properties)
  edit (fun a => a.mapCluster c (fun k => { k with properties := properties }))

/-- The value of a property of the child that a vertex stands for. -/
def subclusterProperty (type : AttributeType) (c : ClusterId) (v : LocalVertex) : Job Value := do
  clusterProperty type (← look (fun a => a.requireChildAt c v))

/-- Gives a property of the child that a vertex stands for another value. -/
def setSubclusterProperty (type : AttributeType) (c : ClusterId) (v : LocalVertex)
    (value : Value) : Job Unit := do
  setClusterProperty type (← look (fun a => a.requireChildAt c v)) value

/-- Marks a live cluster as changed. -/
def setChanged (c : ClusterId) : Job Unit := do
  let _ ← cell c
  mark c

/-- Turns copy mode of a live cluster on or off. -/
def setCopyMode (c : ClusterId) (on : Bool) : Job Unit :=
  rewrite c (fun k => k.mapCluster (fun cluster => { cluster with copyMode := on }))

/-! ## Objects -/

/-- The object of a type on a vertex or a global edge, if there is one. -/
def object (type : AttributeType) (c : ClusterId) (key : AttributeKey) :
    Job (Option TypedObject) := do
  let config ← read Arena.config
  match ← resolve c key with
  | .vertex owner v => settle (config.objects.readObject type (← vertexRecord owner v).objects)
  | .edge owner e global => do
      let edge ← settle ((← edgeRecord owner e).carriedFor e global)
      settle (config.objects.readObject type edge.objects)

/-- Puts another object, or none, into the slot of a type on a vertex or a
    global edge. -/
def writeObject (type : AttributeType) (c : ClusterId) (key : AttributeKey)
    (object : Option TypedObject) : Job Unit := do
  let config ← read Arena.config
  match ← resolve c key with
  | .vertex owner v => do
      let objects ← settle (config.objects.writeObject type object (← vertexRecord owner v).objects)
      modifyVertex owner v (fun r => { r with objects := objects })
  | .edge owner e global => do
      let edge ← settle ((← edgeRecord owner e).carriedFor e global)
      let objects ← settle (config.objects.writeObject type object edge.objects)
      modifyEdge owner e (fun r =>
        r.modifyCarried global (fun edge => { edge with objects := objects }))

/-- The objects of a type on all global edges that an edge carries. -/
def objects (type : AttributeType) (c : ClusterId) (e : LocalEdge) :
    Job (List (GlobalEdge × Option TypedObject)) := do
  let config ← read Arena.config
  settle ((← edgeRecord c e).carried.mapM (fun edge => do
    return (edge.global, ← config.objects.readObject type edge.objects)))

/-! ## Walks -/

/-- Visits objects in a cluster, and in what is inside it if recursive. -/
def visit (pick : List (Option TypedObject) → List TypedObject) (c : ClusterId)
    (recursive : Bool) : Job (List WalkStep) := do
  let _ ← cell c
  if recursive then traverse (fun a => a.links.walk (2 * a.count) pick c)
  else read (fun a => a.links.deliver pick c)

/-- Visits the objects of one type in the slots of that type. -/
def visitType (type : AttributeType) (c : ClusterId) (recursive : Bool) : Job (List WalkStep) := do
  let slot ← settle ((← read Arena.config).objects.require type)
  visit
    (fun slots => (slots[slot]?.join).toList.filter (fun object => decide (object.type = type)))
    c recursive

/-- Visits all objects. -/
def visitAll (c : ClusterId) (recursive : Bool) : Job (List WalkStep) :=
  visit (fun slots => slots.filterMap id) c recursive

/-! ## Index properties -/

/-- Gives the vertices of a cluster the numbers from `k` on as indices. -/
def numberVertices (c : ClusterId) (k : Nat) : List LocalVertex → Job Unit
  | [] => return
  | v :: rest => do
      let config ← read Arena.config
      let record ← vertexRecord c v
      let properties ← settle (config.vertex.write vertexIndex (.index k) record.properties)
      modifyVertex c v (fun r => { r with properties := properties })
      numberVertices c (k + 1) rest

/-- Gives the edges of a cluster the numbers from `k` on as indices. -/
def numberEdges (c : ClusterId) (k : Nat) : List LocalEdge → Job Unit
  | [] => return
  | e :: rest => do
      let config ← read Arena.config
      let record ← edgeRecord c e
      let properties ← settle (config.edge.write edgeIndex (.index k) record.properties)
      modifyEdge c e (fun r => { r with properties := properties })
      numberEdges c (k + 1) rest

/-- The vertices and the edges of a cluster, by slot, get the indices from
    zero on. -/
def renumber (c : ClusterId) : Job Unit := do
  let k ← cell c
  numberVertices c 0 k.storage.vertices.handles
  numberEdges c 0 k.storage.edges.handles

end NestedGraph.Job
