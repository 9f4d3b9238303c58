import NestedGraph.Graph
import NestedGraph.Tree.Attributes

/-! # Commands — everything that changes a graph

    Each change that a caller can ask of one graph, as data, with the
    answer that it gives.  A refused command has no resulting graph. -/

namespace NestedGraph

/-- A change to one graph. -/
inductive Command where
  | drawId
  | raiseIds (count : UInt64)
  | setChanged (c : ClusterId)
  | clearChanged (c : ClusterId)
  | setCopyMode (c : ClusterId) (on : Bool)
  | addCluster (c : ClusterId)
  | removeCluster (c child : ClusterId)
  | removeClusterOn (c : ClusterId) (v : LocalVertex)
  | removeClusters (c : ClusterId)
  | addVertex (c : ClusterId)
  | addVertexNamed (c : ClusterId) (global : GlobalVertex)
  | addEdge (c : ClusterId) (a b : LocalVertex)
  | connect (c : ClusterId) (source target : GlobalVertex)
  | removeVertex (c : ClusterId) (v : LocalVertex)
  | removeGlobalVertex (c : ClusterId) (global : GlobalVertex)
  | removeEdge (c : ClusterId) (e : LocalEdge)
  | removeGlobalEdge (c : ClusterId) (global : GlobalEdge)
  | moveIn (c : ClusterId) (v : LocalVertex) (child : ClusterId)
  | moveInOn (c : ClusterId) (v place : LocalVertex)
  | moveOut (c : ClusterId) (v : LocalVertex)
  | setProperty (type : AttributeType) (c : ClusterId) (key : AttributeKey) (value : Value)
  | setClusterProperty (type : AttributeType) (c : ClusterId) (value : Value)
  | setSubclusterProperty (type : AttributeType) (c : ClusterId) (v : LocalVertex) (value : Value)
  | setObject (c : ClusterId) (key : AttributeKey) (object : TypedObject)
  | clearObject (type : AttributeType) (c : ClusterId) (key : AttributeKey)
  | renumber (c : ClusterId)

/-- What a change answers. -/
inductive Reply where
  | done
  | id (id : UInt64)
  | serial (serial : Nat)
  | graph (number : Nat)
  | removed (removed : List Removal)
  | subcluster (cluster : ClusterId) (vertex : LocalVertex)
  | vertex (vertex : LocalVertex) (global : GlobalVertex)
  | edge (edge : LocalEdge) (global : GlobalEdge)
  | placedEdge (edge : LocalEdge) (global : GlobalEdge) (own : Bool)
  | moved (vertex : LocalVertex)
deriving DecidableEq

/-- What an answer reports as removed. -/
def Reply.removals : Reply → List Removal
  | .removed gone => gone
  | _ => []

namespace Graph

/-- The graph with another tree, and nothing to tell. -/
def quietly (g : Graph) (t : Tree) : Graph × Reply := ({ g with tree := t }, .done)

/-- The graph with another tree, and what was removed from it. -/
def reporting (g : Graph) (change : Tree × List Removal) : Graph × Reply :=
  ({ g with tree := change.1 }, .removed change.2)

/-- The graph with another tree, and the new handle of a vertex. -/
def moving (g : Graph) (change : Tree × LocalVertex) : Graph × Reply :=
  ({ g with tree := change.1 }, .moved change.2)

/-- Carries out a command. -/
def perform (g : Graph) : Command → Except Error (Graph × Reply)
  | .drawId => .ok ({ g with ids := g.ids.advance }, .id g.ids.next)
  | .raiseIds count => .ok ({ g with ids := g.ids.raise count }, .done)
  | .setChanged c => g.quietly <$> g.tree.setChanged c
  | .clearChanged c => g.quietly <$> g.tree.clearChanged c
  | .setCopyMode c on => g.quietly <$> g.tree.setCopyMode c on
  | .addCluster c => (fun (h, child, v) => (h, .subcluster child v)) <$> g.addCluster c
  | .removeCluster c child => g.reporting <$> g.tree.removeCluster c child
  | .removeClusterOn c v => g.reporting <$> g.tree.removeClusterOn c v
  | .removeClusters c => g.reporting <$> g.tree.removeClusters c
  | .addVertex c => (fun (h, v, global) => (h, .vertex v global)) <$> g.addVertex c
  | .addVertexNamed c global =>
      (fun (h, v, global) => (h, .vertex v global)) <$> g.addVertexNamed c global
  | .addEdge c a b => (fun (h, e, global) => (h, .edge e global)) <$> g.addEdge c a b
  | .connect c source target =>
      (fun (h, e, global, own) => (h, .placedEdge e global own)) <$> g.connect c source target
  | .removeVertex c v => g.reporting <$> g.tree.removeVertex c v
  | .removeGlobalVertex c global => g.reporting <$> g.tree.removeGlobalVertex c global
  | .removeEdge c e => g.reporting <$> g.tree.removeEdge c e
  | .removeGlobalEdge c global => g.quietly <$> g.tree.removeGlobalEdge c global
  | .moveIn c v child => g.moving <$> g.tree.moveIn c v child
  | .moveInOn c v place => g.moving <$> g.tree.moveInOn c v place
  | .moveOut c v => g.moving <$> g.tree.moveOut c v
  | .setProperty type c key value => g.quietly <$> g.tree.setProperty type c key value
  | .setClusterProperty type c value => g.quietly <$> g.tree.setClusterProperty type c value
  | .setSubclusterProperty type c v value =>
      g.quietly <$> g.tree.setSubclusterProperty type c v value
  | .setObject c key object =>
      (fun t => ({ g with tree := t }, .serial object.serial)) <$> g.tree.setObject c key object
  | .clearObject type c key => g.quietly <$> g.tree.clearObject type c key
  | .renumber c => g.quietly <$> g.tree.renumber c

end Graph

end NestedGraph
