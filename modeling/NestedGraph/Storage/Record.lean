import NestedGraph.Attribute.Config

/-! # Records — what a cluster keeps for one vertex or edge

    A local edge carries one or more global edges.  Its properties are
    shared by all of them; each global edge has objects of its own. -/

namespace NestedGraph

/-- What is kept for a vertex. -/
structure VertexRecord where
  global : GlobalVertex
  properties : List Value
  objects : List (Option TypedObject)

/-- A global edge as carried by a local edge. -/
structure CarriedEdge where
  global : GlobalEdge
  objects : List (Option TypedObject)

/-- What is kept for a local edge. -/
structure EdgeRecord where
  properties : List Value
  carried : List CarriedEdge

/-- A vertex with initial values. -/
def Config.newVertex (c : Config) (global : GlobalVertex) : VertexRecord :=
  ⟨global, c.vertex.initialValues, c.objects.emptySlots⟩

/-- A global edge without objects. -/
def Config.newCarried (c : Config) (global : GlobalEdge) : CarriedEdge :=
  ⟨global, c.objects.emptySlots⟩

namespace EdgeRecord

/-- The global edges carried, in order. -/
def globals (r : EdgeRecord) : List GlobalEdge := r.carried.map CarriedEdge.global

/-- The carried edges that match, in order. -/
def matching (r : EdgeRecord) (p : GlobalEdge → Bool) : List CarriedEdge :=
  r.carried.filter (fun edge => p edge.global)

/-- The record with only the carried edges that match. -/
def part (r : EdgeRecord) (p : GlobalEdge → Bool) : EdgeRecord :=
  { r with carried := r.matching p }

/-- The record without the carried edges that match. -/
def without (r : EdgeRecord) (p : GlobalEdge → Bool) : EdgeRecord :=
  { r with carried := r.carried.filter (fun edge => !p edge.global) }

/-- What is carried for that global edge. -/
def carriedAs? (r : EdgeRecord) (e : GlobalEdge) : Option CarriedEdge :=
  r.carried.find? (fun edge => edge.global.same e)

end EdgeRecord

end NestedGraph
