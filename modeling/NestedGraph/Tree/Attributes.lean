import NestedGraph.Identifier.AttributeKey
import NestedGraph.Tree.Marking
import NestedGraph.Tree.Lookup

/-! # Attributes — reading and writing properties and objects

    A key is first resolved: in the addressed cluster for a local key, in
    the cluster that stores the entity for a global one.  Then the type
    is looked up in the layout of that kind of entity. -/

namespace NestedGraph

/-- A place that has attributes. -/
inductive Location where
  | vertex (owner : ClusterId) (vertex : LocalVertex)
  /-- A local edge, and the global edge that is meant; none means the
      first one it carries. -/
  | edge (owner : ClusterId) (edge : LocalEdge) (global : Option GlobalEdge)
deriving DecidableEq

namespace EdgeRecord

/-- What is carried for a global edge, or for the first. -/
def carriedFor (r : EdgeRecord) (e : LocalEdge) : Option GlobalEdge → Except Error CarriedEdge
  | some global =>
      match r.carriedAs? global with
      | some edge => .ok edge
      | none => .error (.edgeNotFound global)
  | none =>
      match r.carried.head? with
      | some edge => .ok edge
      | none => .error (.invalidLocalEdge e)

/-- The carried edges with the first that satisfies a test changed. -/
def changeFirst (p : GlobalEdge → Bool) (f : CarriedEdge → CarriedEdge) :
    List CarriedEdge → List CarriedEdge
  | [] => []
  | edge :: rest =>
      if p edge.global then f edge :: rest else edge :: changeFirst p f rest

/-- Changes what is carried for a global edge, or for the first. -/
def modifyCarried (r : EdgeRecord) (global : Option GlobalEdge) (f : CarriedEdge → CarriedEdge) :
    EdgeRecord :=
  match global with
  | some global => { r with carried := changeFirst (fun other => other.same global) f r.carried }
  | none => { r with carried := changeFirst (fun _ => true) f r.carried }

end EdgeRecord

namespace Tree

/-! ## Resolving keys -/

/-- The place that a key names. -/
def resolve (t : Tree) (c : ClusterId) : AttributeKey → Except Error Location
  | .localVertex v => do
      let _ ← t.requireVertex c v
      return .vertex c v
  | .localEdge e => do
      let _ ← t.requireEdge c e
      return .edge c e none
  | .globalVertex global => do
      let b ← t.require c
      match b.vertexOwner? global with
      | some (owner, v) => return .vertex owner v
      | none => throw (.vertexNotFound global)
  | .globalEdge global => do
      let b ← t.require c
      match b.edgeOwner? global with
      | some (owner, e) => return .edge owner e (some global)
      | none => throw (.edgeNotFound global)

/-- What is kept for a vertex of a live cluster. -/
def vertexRecord (t : Tree) (c : ClusterId) (v : LocalVertex) : Except Error VertexRecord := do
  let b ← t.require c
  match b.cluster.storage.vertex? v with
  | some record => return record
  | none => throw (.invalidLocalVertex v)

/-- What is kept for an edge of a live cluster. -/
def edgeRecord (t : Tree) (c : ClusterId) (e : LocalEdge) : Except Error EdgeRecord := do
  let b ← t.require c
  match b.cluster.storage.edgeRecord? e with
  | some record => return record
  | none => throw (.invalidLocalEdge e)

/-- Changes what is kept for a vertex. -/
def modifyVertex (t : Tree) (c : ClusterId) (v : LocalVertex) (f : VertexRecord → VertexRecord) :
    Tree :=
  t.mapStorage c (fun s => s.modifyVertex v f)

/-- Changes what is kept for an edge. -/
def modifyEdge (t : Tree) (c : ClusterId) (e : LocalEdge) (f : EdgeRecord → EdgeRecord) : Tree :=
  t.mapStorage c (fun s => s.modifyEdge e f)

/-! ## Properties -/

/-- The value of a property of a vertex or an edge. -/
def property (t : Tree) (type : AttributeType) (c : ClusterId) (key : AttributeKey) :
    Except Error Value := do
  match ← t.resolve c key with
  | .vertex owner v => t.config.vertex.read type (← t.vertexRecord owner v).properties
  | .edge owner e _ => t.config.edge.read type (← t.edgeRecord owner e).properties

/-- Gives a property of a vertex or an edge another value. -/
def setProperty (t : Tree) (type : AttributeType) (c : ClusterId) (key : AttributeKey)
    (value : Value) : Except Error Tree := do
  match ← t.resolve c key with
  | .vertex owner v =>
      let properties ← t.config.vertex.write type value (← t.vertexRecord owner v).properties
      return t.modifyVertex owner v (fun r => { r with properties := properties })
  | .edge owner e _ =>
      let properties ← t.config.edge.write type value (← t.edgeRecord owner e).properties
      return t.modifyEdge owner e (fun r => { r with properties := properties })

/-- The value of a property of a cluster. -/
def clusterProperty (t : Tree) (type : AttributeType) (c : ClusterId) : Except Error Value := do
  t.config.cluster.read type (← t.require c).cluster.properties

/-- Gives a property of a cluster another value. -/
def setClusterProperty (t : Tree) (type : AttributeType) (c : ClusterId) (value : Value) :
    Except Error Tree := do
  let properties ← t.config.cluster.write type value (← t.require c).cluster.properties
  return t.mapCluster c (fun k => { k with properties := properties })

/-- The value of a property of the child that a vertex stands for. -/
def subclusterProperty (t : Tree) (type : AttributeType) (c : ClusterId) (v : LocalVertex) :
    Except Error Value := do
  t.clusterProperty type (← t.requireChildAt c v)

/-- Gives a property of the child that a vertex stands for another
    value. -/
def setSubclusterProperty (t : Tree) (type : AttributeType) (c : ClusterId) (v : LocalVertex)
    (value : Value) : Except Error Tree := do
  t.setClusterProperty type (← t.requireChildAt c v) value

/-- Clears the change flag of a cluster. -/
def clearChanged (t : Tree) (c : ClusterId) : Except Error Tree :=
  t.setClusterProperty changedFlag c (.flag false)

/-! ## Objects -/

/-- The object of a type on a vertex or a global edge, if there is one. -/
def object (t : Tree) (type : AttributeType) (c : ClusterId) (key : AttributeKey) :
    Except Error (Option TypedObject) := do
  match ← t.resolve c key with
  | .vertex owner v => t.config.objects.readObject type (← t.vertexRecord owner v).objects
  | .edge owner e global =>
      let edge ← (← t.edgeRecord owner e).carriedFor e global
      t.config.objects.readObject type edge.objects

/-- Puts another object, or none, into the slot of a type on a vertex or a
    global edge. -/
def writeObject (t : Tree) (type : AttributeType) (c : ClusterId) (key : AttributeKey)
    (object : Option TypedObject) : Except Error Tree := do
  match ← t.resolve c key with
  | .vertex owner v =>
      let objects ← t.config.objects.writeObject type object (← t.vertexRecord owner v).objects
      return t.modifyVertex owner v (fun r => { r with objects := objects })
  | .edge owner e global =>
      let edge ← (← t.edgeRecord owner e).carriedFor e global
      let objects ← t.config.objects.writeObject type object edge.objects
      return t.modifyEdge owner e (fun r =>
        r.modifyCarried global (fun edge => { edge with objects := objects }))

/-- Stores an object in the slot of its type. -/
def setObject (t : Tree) (c : ClusterId) (key : AttributeKey) (object : TypedObject) :
    Except Error Tree :=
  t.writeObject object.type c key (some object)

/-- Empties the slot of a type. -/
def clearObject (t : Tree) (type : AttributeType) (c : ClusterId) (key : AttributeKey) :
    Except Error Tree :=
  t.writeObject type c key none

/-- The objects of a type on all global edges that an edge carries. -/
def objects (t : Tree) (type : AttributeType) (c : ClusterId) (e : LocalEdge) :
    Except Error (List (GlobalEdge × Option TypedObject)) := do
  (← t.edgeRecord c e).carried.mapM (fun edge => do
    return (edge.global, ← t.config.objects.readObject type edge.objects))

/-! ## Index properties -/

/-- The vertices, in this order, get the numbers from `k` on as indices. -/
def numberVertices (t : Tree) (c : ClusterId) (k : Nat) : List LocalVertex → Tree
  | [] => t
  | v :: rest =>
      (t.modifyVertex c v (fun r =>
        { r with properties := t.config.vertex.put vertexIndex (.index k) r.properties })
        ).numberVertices c (k + 1) rest

/-- The edges, in this order, get the numbers from `k` on as indices. -/
def numberEdges (t : Tree) (c : ClusterId) (k : Nat) : List LocalEdge → Tree
  | [] => t
  | e :: rest =>
      (t.modifyEdge c e (fun r =>
        { r with properties := t.config.edge.put edgeIndex (.index k) r.properties })
        ).numberEdges c (k + 1) rest

/-- The vertices and the edges of a cluster, by slot, get the indices from
    zero on. -/
def renumber (t : Tree) (c : ClusterId) : Except Error Tree := do
  let s := (← t.require c).cluster.storage
  return (t.numberVertices c 0 s.vertices.handles).numberEdges c 0 s.edges.handles

end Tree

end NestedGraph
