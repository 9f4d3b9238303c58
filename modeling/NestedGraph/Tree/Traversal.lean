import NestedGraph.Traversal

/-! # Traversals of a tree

    What a traversal reads of the clusters of a tree, and the way up on
    which the clusters around another lose edges. -/

namespace NestedGraph

/-- Takes the matching edges off the edges at a vertex, as they are listed
    before, and tells what was taken. -/
def Storage.purgeAt (p : GlobalEdge → Bool) (s : Storage) (v : LocalVertex) :
    Storage × List GlobalEdge :=
  (s.incident v).foldl (fun (s, taken) e =>
    (s.withdraw p e, taken ++ (s.matching p e).map CarriedEdge.global)) (s, [])

namespace Tree

/-- The ids of the children of a cluster, if it is alive. -/
def childIds? (t : Tree) (c : ClusterId) : Option (List ClusterId) :=
  (t.find? c).map (fun b => b.inside.entries.map Prod.snd)

/-- The clusters of a tree as a traversal reads them. -/
def links (t : Tree) : Links := ⟨t.parent?, t.vertex?, t.childIds?, t.storage?⟩

/-- Takes the matching edges off a vertex of a cluster, and marks the cluster if
    there were any. -/
def purgeAt (p : GlobalEdge → Bool) (t : Tree) (c : ClusterId) (v : LocalVertex) :
    Tree × List GlobalEdge :=
  match t.find? c with
  | none => (t, [])
  | some b =>
      let (s, taken) := b.cluster.storage.purgeAt p v
      let t := t.mapStorage c (fun _ => s)
      (if taken.isEmpty then t else t.mark c, taken)

/-- Takes the matching edges off the vertex by which a cluster was reached. -/
def purgeVisit (p : GlobalEdge → Bool) (s : Tree × List GlobalEdge) (c : ClusterId) :
    Option LocalVertex → (Tree × List GlobalEdge) × Bool
  | none => (s, false)
  | some v =>
      let (t, more) := s.1.purgeAt p c v
      ((t, s.2 ++ more), false)

/-- Takes the matching edges stored around a cluster out. -/
def purgeUp (t : Tree) (steps : Nat) (p : GlobalEdge → Bool) (c : ClusterId) :
    Option (Trace (Tree × List GlobalEdge)) :=
  climb (fun s => s.1.place?) (purgeVisit p) steps (t, []) c none

end Tree

end NestedGraph
