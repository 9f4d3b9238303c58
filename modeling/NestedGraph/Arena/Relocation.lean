import NestedGraph.Arena.Growth

/-! # Relocation, write by write

    A vertex is out of one cluster before it is in the other.  The cluster
    that it stands for stays where it is in the arena: nobody lists it in
    between, and it is told its new place only after its new parent lists
    it. -/

namespace NestedGraph.Job

/-- What is taken off a cluster with a vertex: the records of its edges there,
    each with the far end, its own record, and the child that was listed on
    it. -/
structure Taken where
  near : List (LocalVertex × EdgeRecord)
  record : VertexRecord
  nested : Option ClusterId

/-- Takes a vertex off a cluster, with its edges there. -/
def takeOut (c : ClusterId) (v : LocalVertex) : Job Taken := do
  let k ← cell c
  edit (fun a => a.mapStorage c (fun s => s.removeVertex v))
  match k.storage.vertex? v with
  | none => throw (.invalidLocalVertex v)
  | some record => do
      edit (fun a => a.modify c (fun k => { k with children := k.children.erase v }))
      return ⟨k.storage.recordsAt v, record, k.children.get? v⟩

/-- Lists a cluster on a vertex of another, and tells it so. -/
def reparent (nested parent : ClusterId) (v : LocalVertex) : Job Unit := do
  rewrite parent (Cell.hang v nested)
  rewrite nested (Cell.settle parent v)

/-- Adds a vertex to a cluster with the child that it stands for, and tells its
    handle. -/
def bringIn (c : ClusterId) (record : VertexRecord) (nested : Option ClusterId) :
    Job LocalVertex := do
  let v ← putVertex c record
  match nested with
  | some child => reparent child c v
  | none => pure ()
  return v

/-- Where the end of each edge that stays behind is found in a child, when the
    vertices in `moving` come in. -/
def inwardTargets (child : ClusterId) (moving : List GlobalVertex) :
    List GlobalEdge → Job Routes
  | [] => return []
  | e :: rest => do
      match e.farEnd? moving with
      | none => throw (.cluster (.unresolvedEdge e))
      | some global =>
          match ← localVertex child global true with
          | none => throw (.cluster (.unresolvedEdge e))
          | some w => return (e, w) :: (← inwardTargets child moving rest)

/-- Puts the edges that came in with vertex `v` where they end now, one global
    edge after the other. -/
def carryIn (child : ClusterId) (routes : Routes) (v : LocalVertex) :
    List (List Value × CarriedEdge) → Job Unit
  | [] => return
  | (properties, edge) :: rest => do
      match routes.target? edge.global with
      | some w => do
          let _ ← attach child v w properties [edge]
          carryIn child routes v rest
      | none => throw (.cluster (.unresolvedEdge edge.global))

/-- The records with one vertex as far end. -/
def recordsTo (cv : LocalVertex) (near : List (LocalVertex × EdgeRecord)) : List EdgeRecord :=
  (near.filter (fun entry => decide (entry.1 = cv))).map Prod.snd

/-- The records with other far ends, made to end at the vertex `cv`. -/
def linksPast (cv : LocalVertex) (near : List (LocalVertex × EdgeRecord)) : List Link :=
  (near.filter (fun entry => decide (entry.1 ≠ cv))).map (fun entry => ⟨entry.1, cv, entry.2⟩)

/-- Moves a vertex of a cluster into one of its children. -/
def moveIn (c : ClusterId) (v : LocalVertex) (child : ClusterId) : Job LocalVertex := do
  let cv ← look (fun a => a.vertexOfChild c child)
  let k ← look (fun a => a.requireVertex c v)
  if v = cv then throw (.invalidLocalVertex v)
  let names ← moving c v
  let routes ← inwardTargets child names
    ((recordsTo cv (k.storage.recordsAt v)).flatMap EdgeRecord.globals)
  let taken ← takeOut c v
  attachLinks c (linksPast cv taken.near)
  let nv ← bringIn child taken.record taken.nested
  carryIn child routes nv
    ((recordsTo cv taken.near).flatMap (fun r => r.carried.map (fun edge => (r.properties, edge))))
  mark c
  mark child
  return nv

/-- Moves a vertex of a cluster into the child that another vertex stands
    for. -/
def moveInOn (c : ClusterId) (v place : LocalVertex) : Job LocalVertex := do
  let child ← look (fun a => a.requireChildAt c place)
  moveIn c v child

/-- The parent of a cluster that has to have one, and the vertex there. -/
def requirePlace (k : Cell) : Except Error (ClusterId × LocalVertex) :=
  match k.parent, k.vertex with
  | some parent, some cv => .ok (parent, cv)
  | _, _ => .error .rootHasNoParent

/-- Moves a vertex of a cluster into its parent. -/
def moveOut (c : ClusterId) (v : LocalVertex) : Job LocalVertex := do
  let k ← look (fun a => a.requireVertex c v)
  let (parent, cv) ← settle (requirePlace k)
  if !(← read (fun a => a.isLive parent)) then throw (.cluster (.danglingParent c))
  let names ← moving c v
  let p ← cell parent
  edit (fun a => a.mapStorage parent (fun s => s.withdrawAt (GlobalEdge.touches names) cv))
  let taken ← takeOut c v
  let nv ← bringIn parent taken.record taken.nested
  attachLinks parent (taken.near.map (fun entry => ⟨nv, cv, entry.2⟩))
  attachLinks parent ((p.storage.withdrawnAt (GlobalEdge.touches names) cv).map
    (fun entry => ⟨nv, entry.1, entry.2⟩))
  mark c
  mark parent
  return nv

end NestedGraph.Job
