import NestedGraph.Storage.Record
import NestedGraph.Storage.SlotStore

/-! # Storage — the vertices and edges of one cluster

    An undirected graph over two slot stores.  Each edge remembers which
    end it was given first.  The edges at a vertex are listed with those
    that have it as first end, then those that have it as second end,
    each group from the newest to the oldest.  This order is taken over
    from petgraph, and so is that the edge between two vertices is found
    in either direction, and that a vertex takes its edges with it. -/

namespace NestedGraph

/-- A stored edge: its ends in the order given, and its record. -/
structure Link where
  first : LocalVertex
  second : LocalVertex
  record : EdgeRecord

namespace Link

/-- The end across from `v`, if `v` is an end. -/
def opposite? (l : Link) (v : LocalVertex) : Option LocalVertex :=
  if l.first = v then some l.second
  else if l.second = v then some l.first
  else none

/-- The edge runs between the two vertices, in either direction. -/
def joins (l : Link) (a b : LocalVertex) : Bool :=
  (decide (l.first = a) && decide (l.second = b))
    || (decide (l.first = b) && decide (l.second = a))

end Link

/-- Vertices and edges of one cluster. -/
structure Storage where
  vertices : SlotStore .vertex VertexRecord
  edges : SlotStore .edge Link
  /-- The edges, the newest first. -/
  recent : List LocalEdge

namespace Storage

/-- A storage without vertices. -/
def empty : Storage := ⟨.empty, .empty, []⟩

/-! ## Looking things up -/

/-- The record of a vertex. -/
def vertex? (s : Storage) (v : LocalVertex) : Option VertexRecord := s.vertices.get? v

/-- The vertex handle resolves. -/
def hasVertex (s : Storage) (v : LocalVertex) : Bool := s.vertices.contains v

/-- The global name of a vertex. -/
def global? (s : Storage) (v : LocalVertex) : Option GlobalVertex :=
  (s.vertex? v).map VertexRecord.global

/-- The global names of all vertices, by slot. -/
def globals (s : Storage) : List GlobalVertex := s.vertices.values.map VertexRecord.global

/-- The vertex with that global name. -/
def vertexOf? (s : Storage) (global : GlobalVertex) : Option LocalVertex :=
  (s.vertices.entries.find? (fun entry => decide (entry.2.global = global))).map Prod.fst

/-- The stored edge behind a handle. -/
def link? (s : Storage) (e : LocalEdge) : Option Link := s.edges.get? e

/-- The edge handle resolves. -/
def hasEdge (s : Storage) (e : LocalEdge) : Bool := s.edges.contains e

/-- The record of an edge. -/
def edgeRecord? (s : Storage) (e : LocalEdge) : Option EdgeRecord := (s.link? e).map Link.record

/-- The ends of an edge, in the order given. -/
def endpoints? (s : Storage) (e : LocalEdge) : Option (LocalVertex × LocalVertex) :=
  (s.link? e).map (fun l => (l.first, l.second))

/-- The end of an edge across from `v`. -/
def opposite? (s : Storage) (e : LocalEdge) (v : LocalVertex) : Option LocalVertex :=
  (s.link? e).bind (fun l => l.opposite? v)

/-- The edge that carries a global edge. -/
def edgeOf? (s : Storage) (global : GlobalEdge) : Option LocalEdge :=
  (s.edges.entries.find? (fun entry => (entry.2.record.carriedAs? global).isSome)).map Prod.fst

/-- The global edges carried by an edge; none if it does not resolve. -/
def carried (s : Storage) (e : LocalEdge) : List GlobalEdge :=
  match s.edgeRecord? e with
  | some r => r.globals
  | none => []

/-- The global edges carried by all edges, by slot. -/
def allCarried (s : Storage) : List GlobalEdge :=
  s.edges.values.flatMap (fun l => l.record.globals)

/-- The edges whose links satisfy a test, the newest first. -/
def recentWhere (s : Storage) (p : Link → Bool) : List LocalEdge :=
  s.recent.filter (fun e => (s.link? e).any p)

/-- The edges at a vertex. -/
def incident (s : Storage) (v : LocalVertex) : List LocalEdge :=
  s.recentWhere (fun l => decide (l.first = v)) ++ s.recentWhere (fun l => decide (l.second = v))

/-- The edge between two vertices, in either direction. -/
def edgeBetween? (s : Storage) (a b : LocalVertex) : Option LocalEdge :=
  (s.recentWhere (fun l => l.joins a b)).head?

/-! ## Changes -/

/-- Adds a vertex; its handle is `s.vertices.nextHandle`. -/
def addVertex (s : Storage) (record : VertexRecord) : Storage :=
  { s with vertices := s.vertices.insert record }

/-- Adds an edge; its handle is `s.edges.nextHandle`. -/
def addEdge (s : Storage) (first second : LocalVertex) (record : EdgeRecord) : Storage :=
  { s with
    edges := s.edges.insert ⟨first, second, record⟩
    recent := s.edges.nextHandle :: s.recent }

/-- Changes what is kept for a vertex. -/
def modifyVertex (s : Storage) (v : LocalVertex) (f : VertexRecord → VertexRecord) :
    Storage :=
  { s with vertices := s.vertices.modify v f }

/-- Changes what is kept for an edge. -/
def modifyEdge (s : Storage) (e : LocalEdge) (f : EdgeRecord → EdgeRecord) : Storage :=
  { s with edges := s.edges.modify e (fun l => { l with record := f l.record }) }

/-- Removes an edge. -/
def removeEdge (s : Storage) (e : LocalEdge) : Storage :=
  { s with edges := s.edges.erase e, recent := s.recent.filter (fun other => decide (other ≠ e)) }

@[simp] theorem vertices_addEdge (s : Storage) (a b : LocalVertex) (r : EdgeRecord) :
    (s.addEdge a b r).vertices = s.vertices := rfl

@[simp] theorem vertices_modifyEdge (s : Storage) (e : LocalEdge) (f : EdgeRecord → EdgeRecord) :
    (s.modifyEdge e f).vertices = s.vertices := rfl

@[simp] theorem vertices_removeEdge (s : Storage) (e : LocalEdge) :
    (s.removeEdge e).vertices = s.vertices := rfl

@[simp] theorem edges_addVertex (s : Storage) (r : VertexRecord) :
    (s.addVertex r).edges = s.edges := rfl

@[simp] theorem edges_modifyVertex (s : Storage) (v : LocalVertex)
    (f : VertexRecord → VertexRecord) : (s.modifyVertex v f).edges = s.edges := rfl

/-- Removes a vertex, after all edges at it. -/
def removeVertex (s : Storage) (v : LocalVertex) : Storage :=
  let s := (s.incident v).foldl removeEdge s
  { s with vertices := s.vertices.erase v }

/-- Removes everything; no handle issued so far resolves. -/
def clear (s : Storage) : Storage where
  vertices := s.vertices.clear
  edges := s.edges.clear
  recent := []

/-! ## Carried edges -/

/-- Puts global edges onto the edge between two vertices.  A new edge is
    made, with the given properties, where there is none. -/
def attach (s : Storage) (a b : LocalVertex) (properties : List Value)
    (carried : List CarriedEdge) : Storage :=
  match s.edgeBetween? a b with
  | some e => s.modifyEdge e (fun record => { record with carried := record.carried ++ carried })
  | none => s.addEdge a b ⟨properties, carried⟩

/-- The edge that `attach` puts global edges onto. -/
def attachHandle (s : Storage) (a b : LocalVertex) : LocalEdge :=
  (s.edgeBetween? a b).getD s.edges.nextHandle

/-- Puts records of global edges onto edges, one after the other. -/
def attachLinks (s : Storage) (links : List Link) : Storage :=
  links.foldl (fun s l => s.attach l.first l.second l.record.properties l.record.carried) s

@[simp] theorem vertices_attach (s : Storage) (a b : LocalVertex) (properties : List Value)
    (carried : List CarriedEdge) : (s.attach a b properties carried).vertices = s.vertices := by
  unfold attach
  split <;> rfl

@[simp] theorem vertices_attachLinks (s : Storage) (links : List Link) :
    (s.attachLinks links).vertices = s.vertices := by
  induction links generalizing s with
  | nil => rfl
  | cons l rest ih =>
      show ((s.attach _ _ _ _).attachLinks rest).vertices = _
      rw [ih, vertices_attach]

/-- The records of the edges at a vertex, each with the far end. -/
def recordsAt (s : Storage) (v : LocalVertex) : List (LocalVertex × EdgeRecord) :=
  (s.incident v).filterMap (fun e =>
    (s.link? e).bind (fun l => (l.opposite? v).map (fun w => (w, l.record))))

/-- The global edges on an edge that match. -/
def matching (s : Storage) (p : GlobalEdge → Bool) (e : LocalEdge) : List CarriedEdge :=
  match s.edgeRecord? e with
  | some r => r.matching p
  | none => []

/-- Takes the global edges that match off an edge, and removes the edge
    when that leaves it with nothing. -/
def withdraw (p : GlobalEdge → Bool) (s : Storage) (e : LocalEdge) : Storage :=
  if (s.matching p e).isEmpty then s
  else
    -- An edge that carries nothing does not stay.
    let rest := s.modifyEdge e (fun record => record.without p)
    if (rest.carried e).isEmpty then rest.removeEdge e else rest

@[simp] theorem vertices_withdraw (p : GlobalEdge → Bool) (s : Storage) (e : LocalEdge) :
    (s.withdraw p e).vertices = s.vertices := by
  unfold withdraw
  split
  · rfl
  · dsimp only
    split <;> rfl

/-- Takes the global edges that match off all edges at a vertex. -/
def withdrawAt (p : GlobalEdge → Bool) (s : Storage) (v : LocalVertex) : Storage :=
  (s.incident v).foldl (withdraw p) s

/-- The global edges at a vertex that match, edge by edge. -/
def matchingAt (p : GlobalEdge → Bool) (s : Storage) (v : LocalVertex) : List GlobalEdge :=
  (s.incident v).flatMap (fun e => (s.matching p e).map CarriedEdge.global)

/-- What `withdrawAt` takes off: a record for each edge that carries
    anything that matches, with the far end. -/
def withdrawnAt (p : GlobalEdge → Bool) (s : Storage) (v : LocalVertex) :
    List (LocalVertex × EdgeRecord) :=
  ((s.recordsAt v).map (fun near => (near.1, near.2.part p))).filter
    (fun near => !near.2.carried.isEmpty)

/-- The global edges at a vertex, edge by edge. -/
def carriedAt (s : Storage) (v : LocalVertex) : List GlobalEdge :=
  (s.incident v).flatMap s.carried

end Storage

end NestedGraph
