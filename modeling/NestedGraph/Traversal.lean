import NestedGraph.Tree.Replica
import NestedGraph.Tree.Walk

/-! # Traversals — clusters visited link by link

    A cluster names the cluster around it, the vertex that stands for it
    there, and its children.  A traversal knows only these names: it goes on
    from one cluster to the next, and nothing bounds it but the number of
    steps that it is given.  It answers if it ends within them. -/

namespace NestedGraph

/-- How far a traversal came. -/
structure Trace (σ : Type) where
  state : σ
  /-- The clusters that were visited, in order. -/
  visited : List ClusterId
  /-- A visit ended the traversal. -/
  stopped : Bool

/-- With a cluster visited before all others. -/
def Trace.after {σ : Type} (c : ClusterId) (r : Trace σ) : Trace σ :=
  { r with visited := c :: r.visited }

/-! ## Up -/

/-- Goes from a cluster to the one around it, and on.  A visit is told by which
    link the cluster was reached, and whether it ends the way up. -/
def climb {σ ι : Type} (up? : σ → ClusterId → Option (ClusterId × ι))
    (visit : σ → ClusterId → Option ι → σ × Bool) :
    Nat → σ → ClusterId → Option ι → Option (Trace σ)
  | 0, _, _, _ => none
  | steps + 1, s, c, via =>
      match visit s c via with
      | (s, true) => some ⟨s, [c], true⟩
      | (s, false) =>
          match up? s c with
          | none => some ⟨s, [c], false⟩
          | some (parent, link) =>
              (climb up? visit steps s parent (some link)).map (Trace.after c)

/-! ## Down, with a stack -/

/-- Visits the clusters on a stack, and puts the children of each onto it.  A
    cluster that names no children is left out. -/
def drain {σ : Type} (childIds? : ClusterId → Option (List ClusterId))
    (visit : σ → ClusterId → σ × Bool) : Nat → σ → List ClusterId → Option (Trace σ)
  | _, s, [] => some ⟨s, [], false⟩
  | 0, _, _ :: _ => none
  | steps + 1, s, c :: stack =>
      match childIds? c with
      | none => drain childIds? visit steps s stack
      | some ds =>
          match visit s c with
          | (s, true) => some ⟨s, [c], true⟩
          | (s, false) => (drain childIds? visit steps s (ds.reverse ++ stack)).map (Trace.after c)

/-! ## Down, by recursion -/

/-- What a recursive traversal does. -/
structure Visitor (σ : Type) where
  /-- The children of a cluster, if it is there. -/
  childIds? : σ → ClusterId → Option (List ClusterId)
  /-- Before the children, and whether that ends the traversal. -/
  enter : σ → ClusterId → σ × Bool
  /-- Before a child is visited. -/
  announce : σ → ClusterId → σ
  /-- After the children. -/
  leave : σ → ClusterId → σ

namespace Visitor

variable {σ : Type} (w : Visitor σ)

mutual

/-- Visits a cluster, and all that is inside it. -/
def visit : Nat → σ → ClusterId → Option (Trace σ)
  | 0, _, _ => none
  | steps + 1, s, c =>
      match w.childIds? s c with
      | none => some ⟨s, [], false⟩
      | some ds =>
          match w.enter s c with
          | (s, true) => some ⟨s, [c], true⟩
          | (s, false) =>
              match visitAll steps s ds with
              | none => none
              | some ⟨s, visited, true⟩ => some ⟨s, c :: visited, true⟩
              | some ⟨s, visited, false⟩ => some ⟨w.leave s c, c :: visited, false⟩

/-- Visits children, one after the other. -/
def visitAll : Nat → σ → List ClusterId → Option (Trace σ)
  | 0, _, _ => none
  | _ + 1, s, [] => some ⟨s, [], false⟩
  | steps + 1, s, d :: ds =>
      match visit steps (w.announce s d) d with
      | none => none
      | some ⟨s, visited, true⟩ => some ⟨s, visited, true⟩
      | some ⟨s, visited, false⟩ =>
          (visitAll steps s ds).map (fun r => { r with visited := visited ++ r.visited })

end

end Visitor

/-! ## Traversals that only read -/

/-- What a traversal reads of clusters: the names that they have of each other,
    and what is stored in them. -/
structure Links where
  parent? : ClusterId → Option ClusterId
  /-- The vertex that stands for a cluster in the cluster around it. -/
  vertex? : ClusterId → Option LocalVertex
  childIds? : ClusterId → Option (List ClusterId)
  storage? : ClusterId → Option Storage

namespace Links

variable (l : Links)

/-- The global names of the vertices of a cluster. -/
def globals (c : ClusterId) : List GlobalVertex :=
  match l.storage? c with
  | some s => s.globals
  | none => []

/-- The ids in a cluster, apart from those of edges with an endpoint among the
    vertices `inside`. -/
def idsBeyond (inside : List GlobalVertex) (c : ClusterId) : List UInt64 :=
  match l.storage? c with
  | some s =>
      s.globals.map GlobalVertex.id
        ++ (s.allCarried.filter (fun e => !e.touches inside)).map GlobalEdge.id
  | none => []

section Up

variable (steps : Nat)

/-- Looks for a cluster among another and those around it. -/
def seekAncestor (a c : ClusterId) : Option (Trace Bool) :=
  climb (fun _ d => (l.parent? d).map (fun p => (p, ())))
    (fun _ d _ => (decide (d = a), decide (d = a))) steps false c none

/-- Looks for the vertex that stands for a vertex of `c` in a cluster around
    it. -/
def seekRepresentative (scope c : ClusterId) (v : LocalVertex) :
    Option (Trace (Option LocalVertex)) :=
  climb (fun _ d => (l.parent? d).map (fun p => (p, l.vertex? d)))
    (fun _ d via => if d = scope then (via.join, true) else (none, false)) steps none c
    (some (some v))

end Up

section Stack

variable (steps : Nat)

/-- Collects the global names of all vertices in a cluster and inside it. -/
def collectGlobals (c : ClusterId) : Option (Trace (List GlobalVertex)) :=
  drain l.childIds? (fun found d => (found ++ l.globals d, false)) steps [] [c]

/-- Collects the ids that stay when the content of a cluster goes, in which the
    vertices `inside` are. -/
def collectKept (inside : List GlobalVertex) (root c : ClusterId) : Option (Trace (List UInt64)) :=
  drain (fun d => if d = c then none else l.childIds? d)
    (fun found d => (found ++ l.idsBeyond inside d, false)) steps [] [root]

/-- Looks for the first id in a cluster or inside it that is one of `ids`. -/
def seekId (ids : List UInt64) (c : ClusterId) : Option (Trace (Option UInt64)) :=
  drain l.childIds?
    (fun _ d =>
      let hit := (l.storage? d).bind (fun s => s.ids.find? (fun id => decide (id ∈ ids)))
      (hit, hit.isSome))
    steps none [c]

end Stack

section Recursive

/-- Looks for the first cluster in which something is found. -/
def searcher {α : Type} (find? : Storage → Option α) : Visitor (Option (ClusterId × α)) where
  childIds? := fun _ => l.childIds?
  enter := fun _ d =>
    let hit := ((l.storage? d).bind find?).map (fun a => (d, a))
    (hit, hit.isSome)
  announce := fun s _ => s
  leave := fun s _ => s

variable (steps : Nat)

/-- Looks for the cluster inside another that stores a vertex, and for its
    handle there. -/
def seekVertex (global : GlobalVertex) (c : ClusterId) :
    Option (Trace (Option (ClusterId × LocalVertex))) :=
  (l.searcher (fun s => s.vertexOf? global)).visit steps none c

/-- Looks for the cluster inside another that stores a global edge, and for the
    handle there of the edge that carries it. -/
def seekEdge (global : GlobalEdge) (c : ClusterId) :
    Option (Trace (Option (ClusterId × LocalEdge))) :=
  (l.searcher (fun s => s.edgeOf? global)).visit steps none c

/-- Delivers the objects of a cluster. -/
def deliver (pick : List (Option TypedObject) → List TypedObject) (c : ClusterId) :
    List WalkStep :=
  match l.storage? c with
  | some s => (s.objects pick).map .object
  | none => []

/-- Delivers objects, and names each child before anything inside it. -/
def walker (pick : List (Option TypedObject) → List TypedObject) : Visitor (List WalkStep) where
  childIds? := fun _ => l.childIds?
  enter := fun walked d => (walked ++ l.deliver pick d, false)
  announce := fun walked d => walked ++ [.cluster d]
  leave := fun walked _ => walked

/-- Walks through a cluster and what is inside it. -/
def walk (pick : List (Option TypedObject) → List TypedObject) (c : ClusterId) :
    Option (Trace (List WalkStep)) :=
  (l.walker pick).visit steps [] c

end Recursive

end Links

end NestedGraph
