import NestedGraph.Tree.Removal

/-! # Relocation — moving a vertex one level in or out

    A move keeps every global name.  The vertex gets a new handle where it
    arrives, and what is inside the cluster that it stands for comes
    along.  Each global edge is stored again in the innermost cluster in
    which its two ends are apart: an edge to a neighbour that stays behind
    now ends at the vertex between the two levels, and an edge that ended
    there because of the moved vertex now ends at the vertex itself. -/

namespace NestedGraph

/-- The endpoint that stays behind when the vertices in `moving` leave; none
    when both or neither of the endpoints leave. -/
def GlobalEdge.farEnd? (moving : List GlobalVertex) (e : GlobalEdge) : Option GlobalVertex :=
  if e.source ∈ moving then
    if e.target ∈ moving then none else some e.target
  else if e.target ∈ moving then some e.source
  else none

/-- Where each of some global edges ends in a cluster. -/
abbrev Routes := List (GlobalEdge × LocalVertex)

/-- The end of an edge; of two entries for one edge the later counts. -/
def Routes.target? (routes : Routes) (e : GlobalEdge) : Option LocalVertex :=
  (routes.reverse.find? (fun route => route.1.same e)).map Prod.snd

namespace Branch

/-- Where the end of each edge that stays behind is found in this branch,
    when the vertices in `moving` come in. -/
def routes (b : Branch) (moving : List GlobalVertex) : List GlobalEdge → Except Error Routes
  | [] => .ok []
  | e :: rest =>
      match (e.farEnd? moving).bind b.representative? with
      | some w => do return (e, w) :: (← b.routes moving rest)
      | none => .error (.cluster (.unresolvedEdge e))

/-! ## Into a child -/

/-- The records between a vertex and the vertex of a child. -/
def inward (b : Branch) (v cv : LocalVertex) : List EdgeRecord :=
  ((b.cluster.storage.recordsAt v).filter (fun near => decide (near.1 = cv))).map Prod.snd

/-- The edges of a vertex to all others than the vertex of a child, made to
    end there. -/
def outward (b : Branch) (v cv : LocalVertex) : List Link :=
  ((b.cluster.storage.recordsAt v).filter (fun near => decide (near.1 ≠ cv))).map
    (fun near => ⟨near.1, cv, near.2⟩)

/-- The edges that come in with a vertex, one for each global edge. -/
def incoming (records : List EdgeRecord) (routes : Routes) (v : LocalVertex) : List Link :=
  records.flatMap (fun r =>
    r.carried.filterMap (fun edge =>
      (routes.target? edge.global).map (fun w => ⟨v, w, ⟨r.properties, [edge]⟩⟩)))

/-! ## Out of a child -/

/-- The edges of a vertex that leaves for the cluster around, made to end
    at the vertex of the cluster that it leaves. -/
def left (inner : Branch) (v nv cv : LocalVertex) : List Link :=
  (inner.cluster.storage.recordsAt v).map (fun near => ⟨nv, cv, near.2⟩)

/-- The edges that ended at the vertex of a cluster because of vertices
    that leave it, made to end at the vertex that leaves. -/
def lifted (b : Branch) (moving : List GlobalVertex) (nv cv : LocalVertex) : List Link :=
  (b.cluster.storage.withdrawnAt (GlobalEdge.touches moving) cv).map
    (fun near => ⟨nv, near.1, near.2⟩)

end Branch

namespace Tree

/-! ## The moved tree -/

/-- The tree with vertex `v` of a cluster moved into the child on vertex
    `cv`, given the branches of both. -/
def lower (t : Tree) (v cv : LocalVertex) (routes : Routes) (b inner : Branch) : Tree :=
  match b.cluster.storage.vertex? v with
  | none => t
  | some record =>
      let c := b.cluster.id
      let child := inner.cluster.id
      -- The vertex arrives before its inner edges, which end at its new handle.
      ((((((t.cutAt c v).mapStorage c (fun s => s.attachLinks (b.outward v cv))).receive child record
          (b.inside.branchAt? v)).mapStorage child (fun s =>
            s.attachLinks (Branch.incoming (b.inward v cv) routes inner.nextVertex))).mark c).mark
        child)

/-- The tree with vertex `v` moved out of the child on vertex `cv` of a
    cluster, given the branches of both. -/
def raise (t : Tree) (cv v : LocalVertex) (inner b : Branch) : Tree :=
  match inner.cluster.storage.vertex? v with
  | none => t
  | some record =>
      let c := inner.cluster.id
      let parent := b.cluster.id
      let moving := inner.travelling v
      -- Slots are freed in both clusters before the vertex takes a new one.
      ((((((t.mapStorage parent (fun s => s.withdrawAt (GlobalEdge.touches moving) cv)).cutAt c
          v).receive parent record (inner.inside.branchAt? v)).mapStorage parent (fun s =>
            s.attachLinks (inner.left v b.nextVertex cv ++ b.lifted moving b.nextVertex cv))).mark
        c).mark parent)

/-! ## Moves -/

/-- Moves a vertex of a cluster into one of its children.  All checks come
    before the first change. -/
def moveIn (t : Tree) (c : ClusterId) (v : LocalVertex) (child : ClusterId) :
    Except Error (Tree × LocalVertex) := do
  let cv ← t.vertexOfChild c child
  let b ← t.requireVertex c v
  if v = cv then throw (.invalidLocalVertex v)
  let inner ← t.require child
  let routes ← inner.routes (b.travelling v) ((b.inward v cv).flatMap EdgeRecord.globals)
  return (t.lower v cv routes b inner, inner.nextVertex)

/-- Moves a vertex of a cluster into the child that another vertex stands
    for. -/
def moveInOn (t : Tree) (c : ClusterId) (v place : LocalVertex) :
    Except Error (Tree × LocalVertex) := do
  let child ← t.requireChildAt c place
  t.moveIn c v child

/-- Moves a vertex of a cluster into the cluster around it.  All checks
    come before the first change. -/
def moveOut (t : Tree) (c : ClusterId) (v : LocalVertex) :
    Except Error (Tree × LocalVertex) := do
  let inner ← t.requireVertex c v
  match t.place? c with
  | none => throw .rootHasNoParent
  | some (parent, cv) =>
      match t.find? parent with
      | none => throw (.cluster (.danglingParent c))
      | some b => return (t.raise cv v inner b, b.nextVertex)

end Tree

end NestedGraph
