import NestedGraph.Identifier

/-! # Errors — why an operation was refused -/

namespace NestedGraph

/-- Ways in which a tree could disagree with itself. -/
inductive Inconsistency where
  | mapMismatch (vertex : LocalVertex)
  | danglingParent (cluster : ClusterId)
  | unresolvedEdge (edge : GlobalEdge)
deriving DecidableEq, Repr

namespace Inconsistency

/-- The wording of an inconsistency. -/
def message : Inconsistency → String
  | .mapMismatch v => "cluster map and cluster vertices disagree at " ++ v.text
  | .danglingParent c => "cluster " ++ c.text ++ " has a dangling parent"
  | .unresolvedEdge e =>
      "global edge " ++ e.text ++ " does not resolve to distinct local vertices"

end Inconsistency

/-- Causes for which an operation is refused. -/
inductive Error where
  /-- The vertex is not stored in the addressed subtree. -/
  | vertexNotFound (vertex : GlobalVertex)
  /-- The edge is not stored in the addressed subtree. -/
  | edgeNotFound (edge : GlobalEdge)
  /-- The vertex handle does not resolve in the addressed cluster. -/
  | invalidLocalVertex (vertex : LocalVertex)
  /-- The edge handle does not resolve in the addressed cluster. -/
  | invalidLocalEdge (edge : LocalEdge)
  /-- An id chosen by the caller is reserved. -/
  | invalidGlobalId (id : UInt64)
  /-- Both ends of a new edge come down to one vertex. -/
  | selfLoop
  /-- A vertex that stands for a cluster was named as the end of an edge. -/
  | clusterEndpoint (vertex : GlobalVertex)
  /-- No live cluster has that id. -/
  | clusterNotFound (cluster : ClusterId)
  /-- The cluster is not a direct child of the addressed one. -/
  | notASubcluster (parent child : ClusterId)
  /-- The root has no parent to move into. -/
  | rootHasNoParent
  /-- The attribute type is not in the layout. -/
  | unregisteredType (kind name : String)
  /-- The attribute type is in the layout twice. -/
  | duplicateType (kind name : String)
  /-- A copied id is in use outside the destination. -/
  | duplicateGlobalId (id : UInt64)
  /-- Two trees have different attribute types. -/
  | incompatibleConfig
  /-- The tree disagrees with itself. -/
  | cluster (cause : Inconsistency)
deriving DecidableEq, Repr

namespace Error

/-- The wording of an error. -/
def message : Error → String
  | .vertexNotFound v => "vertex " ++ v.text ++ " not found"
  | .edgeNotFound e => "edge " ++ e.text ++ " not found"
  | .invalidLocalVertex v => "local vertex " ++ v.text ++ " is not valid in this cluster"
  | .invalidLocalEdge e => "local edge " ++ e.text ++ " is not valid in this cluster"
  | .invalidGlobalId id => "global id " ++ toString id.toNat ++ " is reserved"
  | .selfLoop => "edge endpoints resolve to the same vertex"
  | .clusterEndpoint v =>
      "vertex " ++ v.text ++ " represents a subcluster and cannot be an edge endpoint"
  | .clusterNotFound c => "cluster " ++ c.text ++ " not found"
  | .notASubcluster parent child =>
      "cluster " ++ child.text ++ " is not a subcluster of " ++ parent.text
  | .rootHasNoParent => "the root cluster has no parent"
  | .unregisteredType kind name => kind ++ " type " ++ name ++ " is not registered"
  | .duplicateType kind name => kind ++ " type " ++ name ++ " is registered twice"
  | .duplicateGlobalId id =>
      "global id " ++ toString id.toNat ++ " already exists in the target tree"
  | .incompatibleConfig => "graph configurations are incompatible"
  | .cluster cause => "cluster error: " ++ cause.message

/-- Two errors are the same when their causes and details agree; edges in
    them are compared by id. -/
def same : Error → Error → Bool
  | .edgeNotFound a, .edgeNotFound b => a.same b
  | .cluster (.unresolvedEdge a), .cluster (.unresolvedEdge b) => a.same b
  | a, b => decide (a = b)

end Error

end NestedGraph
