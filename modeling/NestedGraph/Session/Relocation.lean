import NestedGraph.Session

/-! # Relocation step by step

    The moves of `Tree.moveIn` and `Tree.moveOut` as they are carried out.
    A vertex is out of one cluster before it is in the other, and its
    edges follow one by one, so a step that failed half way would leave a
    torn tree behind. -/

namespace NestedGraph.Act

/-- Takes a vertex off a cluster, with its edges there and the branch that
    it stands for. -/
def takeOut (c : ClusterId) (v : LocalVertex) : Act (VertexRecord × Option Branch) := do
  let b ← look (fun g => g.tree.require c)
  edit (fun t => t.cutAt c v)
  match b.cluster.storage.vertex? v with
  | some record => return (record, b.inside.branchAt? v)
  | none => throw (.invalidLocalVertex v)

/-- Puts the edges that came in with vertex `v` where they end now, one
    global edge after the other. -/
def carryIn (child : ClusterId) (routes : Routes) (v : LocalVertex) :
    List (List Value × CarriedEdge) → Act Unit
  | [] => return
  | (properties, edge) :: rest => do
      match routes.target? edge.global with
      | some w => do
          let _ ← attach child v w properties [edge]
          carryIn child routes v rest
      | none => throw (.cluster (.unresolvedEdge edge.global))

/-- Moves a vertex of a cluster into one of its children. -/
def moveIn (c : ClusterId) (v : LocalVertex) (child : ClusterId) : Act LocalVertex := do
  let cv ← look (fun g => g.tree.vertexOfChild c child)
  let b ← look (fun g => g.tree.requireVertex c v)
  if v = cv then throw (.invalidLocalVertex v)
  let inner ← look (fun g => g.tree.require child)
  let inward := b.inward v cv
  let routes ← look (fun _ => inner.routes (b.travelling v) (inward.flatMap EdgeRecord.globals))
  let (record, nested) ← takeOut c v
  attachLinks c (b.outward v cv)
  let nv ← bringIn child record nested
  carryIn child routes nv
    (inward.flatMap (fun r => r.carried.map (fun edge => (r.properties, edge))))
  edit (fun t => t.mark c)
  edit (fun t => t.mark child)
  return nv

/-- Moves a vertex of a cluster into the child that another vertex stands
    for. -/
def moveInOn (c : ClusterId) (v place : LocalVertex) : Act LocalVertex := do
  let child ← look (fun g => g.tree.requireChildAt c place)
  moveIn c v child

/-- Moves a vertex of a cluster into the cluster around it. -/
def moveOut (c : ClusterId) (v : LocalVertex) : Act LocalVertex := do
  let inner ← look (fun g => g.tree.requireVertex c v)
  let (parent, cv) ← look (fun g =>
    match g.tree.place? c with
    | some place => .ok place
    | none => .error .rootHasNoParent)
  let b ← look (fun g =>
    match g.tree.find? parent with
    | some b => .ok b
    | none => .error (.cluster (.danglingParent c)))
  let moving := inner.travelling v
  edit (fun t => t.mapStorage parent (fun s => s.withdrawAt (GlobalEdge.touches moving) cv))
  let (record, nested) ← takeOut c v
  let nv ← bringIn parent record nested
  attachLinks parent (inner.left v nv cv)
  attachLinks parent (b.lifted moving nv cv)
  edit (fun t => t.mark c)
  edit (fun t => t.mark parent)
  return nv

end NestedGraph.Act
