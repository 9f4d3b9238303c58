import NestedGraph.Session.Relocation
import NestedGraph.Session.Replica

/-! # Commands step by step

    `Graph.perform` says what a command leads to.  Here is how it gets
    there: the operations that may fail after their first change go step
    by step, and all others check first and then change once. -/

namespace NestedGraph.Act

/-- Gives the vertices of a cluster the numbers from `k` on as indices. -/
def numberVertices (c : ClusterId) (k : Nat) : List LocalVertex → Act Unit
  | [] => return
  | v :: rest => do
      let properties ← look (fun g => do
        g.tree.config.vertex.write vertexIndex (.index k) (← g.tree.vertexRecord c v).properties)
      edit (fun t => t.modifyVertex c v (fun r => { r with properties := properties }))
      numberVertices c (k + 1) rest

/-- Gives the edges of a cluster the numbers from `k` on as indices. -/
def numberEdges (c : ClusterId) (k : Nat) : List LocalEdge → Act Unit
  | [] => return
  | e :: rest => do
      let properties ← look (fun g => do
        g.tree.config.edge.write edgeIndex (.index k) (← g.tree.edgeRecord c e).properties)
      edit (fun t => t.modifyEdge c e (fun r => { r with properties := properties }))
      numberEdges c (k + 1) rest

/-- The vertices and the edges of a cluster, by slot, get the indices from
    zero on. -/
def renumber (c : ClusterId) : Act Unit := do
  let b ← look (fun g => g.tree.require c)
  numberVertices c 0 b.cluster.storage.vertices.handles
  numberEdges c 0 b.cluster.storage.edges.handles

/-- Carries out a command. -/
def carryOut : Command → Act Reply
  | .addCluster c => (fun (child, v) => .subcluster child v) <$> addCluster c
  | .addVertex c => (fun (v, global) => .vertex v global) <$> addVertex c
  | .addEdge c a b => (fun (e, global) => .edge e global) <$> addEdge c a b
  | .connect c source target =>
      (fun (e, global, own) => .placedEdge e global own) <$> connect c source target
  | .moveIn c v child => .moved <$> moveIn c v child
  | .moveInOn c v place => .moved <$> moveInOn c v place
  | .moveOut c v => .moved <$> moveOut c v
  | .renumber c => (fun _ => .done) <$> renumber c
  | command => atOnce (fun g => g.perform command)

end NestedGraph.Act
