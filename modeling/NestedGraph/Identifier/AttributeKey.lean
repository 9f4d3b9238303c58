import NestedGraph.Identifier

/-! # Keys — addressing the attributes of a vertex or an edge

    Local keys are meant in the addressed cluster, global keys anywhere in
    its subtree.  A local edge stands for its own properties and for the
    objects of the first edge it carries; a global edge for its own
    objects and the properties of the local edge that carries it. -/

namespace NestedGraph

/-- A name whose attributes are meant. -/
inductive AttributeKey where
  | localVertex (vertex : LocalVertex)
  | localEdge (edge : LocalEdge)
  | globalVertex (vertex : GlobalVertex)
  | globalEdge (edge : GlobalEdge)
deriving DecidableEq, Repr

namespace AttributeKey

/-- The key names a vertex. -/
def isVertex : AttributeKey → Bool
  | .localVertex _ | .globalVertex _ => true
  | .localEdge _ | .globalEdge _ => false

/-- Two keys are the same when they are of one form and name the same
    thing. -/
def same : AttributeKey → AttributeKey → Bool
  | .globalEdge a, .globalEdge b => a.same b
  | a, b => decide (a = b)

end AttributeKey

end NestedGraph
