import NestedGraph.Arena.Relocation
import NestedGraph.Proofs.Growing

/-! # Shifting — vertices moved between the clusters of an arena

    Between the two halves of a move the clusters that move are loose: the
    arena keeps them, and nobody lists them.  A job that moves a vertex
    follows the act that does, and takes the loose branch from one half to
    the other; where the act hangs it in, the job lists its cluster first and
    then tells it where. -/

namespace NestedGraph

theorem GlobalEdge.farEnd?_congr {moving moving' : List GlobalVertex}
    (h : ∀ g, g ∈ moving ↔ g ∈ moving') (e : GlobalEdge) : e.farEnd? moving = e.farEnd? moving' := by
  simp only [GlobalEdge.farEnd?, h]

namespace Job

variable {d : Desk} {s : Session} {c : ClusterId} {b inner : Branch} {v cv : LocalVertex}

/-! ## Checks -/

/-- The routes of the edges that come in are read off the child. -/
theorem inwardTargets_run {t : Tree} (hl : d.arena.Lays t) (hs : t.Sound)
    (hi : t.find? inner.cluster.id = some inner) {names moving : List GlobalVertex}
    (hnames : ∀ g, g ∈ names ↔ g ∈ moving) (edges : List GlobalEdge) :
    inwardTargets inner.cluster.id names edges d = .ok (inner.routes moving edges, d) := by
  induction edges with
  | nil => rfl
  | cons e rest ih =>
      rw [inwardTargets, Branch.routes, GlobalEdge.farEnd?_congr hnames]
      cases hfar : e.farEnd? moving with
      | none => rfl
      | some global =>
          have hlocal := localVertex_run hl hs inner.cluster.id global true
          have hrep : t.localVertex? inner.cluster.id global true = inner.representative? global := by
            rw [Tree.localVertex?, hi]
            rfl
          rw [hrep] at hlocal
          refine (bind_of_ok hlocal).trans ?_
          rw [Option.bind_some]
          cases inner.representative? global with
          | none => rfl
          | some w =>
              dsimp only
              cases hrest : inner.routes moving rest with
              | error e => rw [hrest] at ih; exact bind_of_error ih
              | ok routes => rw [hrest] at ih; exact bind_of_ok ih

/-! ## Out of one cluster, and into another -/

/-- What a job takes off a cluster is what the act takes off it. -/
def Carries (b : Branch) (v : LocalVertex) (taken : Taken) (out : VertexRecord × Option Branch)
    (d : Desk) (s : Session) : Prop :=
  taken = ⟨b.cluster.storage.recordsAt v, out.1, out.2.map (fun x => x.cluster.id)⟩
    ∧ d.Matches s (nestedNodes out.2)

theorem takeOut_follows (hm : d.Matches s) (hb : s.graph.tree.find? c = some b)
    (hkeys : (b.inside.entries.map Prod.fst).Nodup) (v : LocalVertex) :
    Follows (takeOut c v) (Act.takeOut c v) d s (Carries b v) := by
  intro out s' hrun
  cases hv : b.cluster.storage.vertex? v with
  | none =>
      rw [Act.takeOut, Act.bind_of_ok (Act.look_of_ok (Tree.require_of_find? hb)),
        Act.bind_of_ok (Act.edit_run _), hv] at hrun
      cases (Prod.mk.inj hrun).1
  | some record =>
      rw [Act.takeOut_run hb hv] at hrun
      obtain ⟨hout, rfl⟩ := Prod.mk.inj hrun
      obtain rfl := Except.ok.inj hout
      have hboth : (d.arena.mapStorage c (fun st => st.removeVertex v)).modify c
          (fun k => { k with children := k.children.erase v }) = d.arena.modify c (Cell.cut v) :=
        Arena.modify_modify (f := fun k => k.mapStorage (fun st => st.removeVertex v))
          (g := fun k => { k with children := k.children.erase v }) (fun _ => rfl) d.arena c
      have hlisted : ChildMap.get? b.inside.entries v
          = (b.inside.branchAt? v).map (fun x => x.cluster.id) := Forest.get?_entries ..
      refine ⟨⟨b.cluster.storage.recordsAt v, record, ChildMap.get? b.inside.entries v⟩,
        d.withArena (d.arena.modify c (Cell.cut v)), ?_, by rw [hlisted],
        hm.arena.cut hb hkeys v, hm.ids, hm.serial, hm.reported⟩
      refine (bind_of_ok (cell_of_find? hm.arena hb)).trans ?_
      rw [← hboth]
      dsimp only [Tree.cell, Cell.storage]
      rw [hv]
      rfl

/-- What is kept for a cluster is rewritten in place. -/
theorem rewrite_run (hc : c ∈ d.arena.cells.map Cell.id) (f : Cell → Cell) :
    rewrite c f d = .ok (.ok (), d.withArena (d.arena.modify c f)) := by
  obtain ⟨k, hget⟩ := Arena.exists_get?_of_mem hc
  have hcell : cell c d = .ok (.ok k, d) := by
    rw [cell, look_run, Arena.require, hget]
  exact bind_of_ok hcell

/-- A cluster that hangs nowhere is listed by its new parent, and then told so.
    Both are kept, so neither is looked for in vain. -/
theorem reparent_run {t : Tree} {x : Branch} (hl : d.arena.Lays t x.nodes) (hb : t.find? c = some b)
    {v : LocalVertex} (hv : v ∉ b.inside.entries.map Prod.fst) :
    ∃ a : Arena, reparent x.cluster.id c v d = .ok (.ok (), d.withArena a)
      ∧ a.Lays (t.graft c v x) := by
  have hparent : c ∈ d.arena.cells.map Cell.id := by
    obtain ⟨k, hget, -⟩ := hl.exists_get? hb
    obtain ⟨hk, hid⟩ := Arena.mem_of_get? hget
    exact List.mem_map.mpr ⟨k, hk, hid⟩
  have hnested : x.cluster.id ∈ d.arena.cells.map Cell.id := by
    have hnode : x.node ∈ d.arena.nodes :=
      hl.nodes ▸ Multiset.mem_add.mpr (Or.inr x.node_mem_nodes)
    obtain ⟨k, hk, hkx⟩ := Arena.mem_nodes.mp hnode
    exact List.mem_map.mpr ⟨k, hk, congrArg Node.id hkx⟩
  let hung := d.withArena (d.arena.modify c (Cell.hang v x.cluster.id))
  have hhang : rewrite c (Cell.hang v x.cluster.id) d = .ok (.ok (), hung) := rewrite_run hparent _
  have hstill : x.cluster.id ∈ hung.arena.cells.map Cell.id := by
    show x.cluster.id ∈ (d.arena.modify c _).cells.map Cell.id
    rw [Arena.ids_modify (f := Cell.hang v x.cluster.id) (fun _ => rfl)]
    exact hnested
  exact ⟨_, (bind_of_ok hhang).trans (rewrite_run hstill _), hl.graft hb hv⟩

/-- A vertex comes in with the child that came off with it. -/
theorem bringIn_follows {nested : Option Branch} (hm : d.Matches s (nestedNodes nested))
    (hd : s.graph.tree.Distinct)
    (hfresh : ∀ b, s.graph.tree.find? c = some b → b.nextVertex ∉ b.inside.entries.map Prod.fst)
    (record : VertexRecord) :
    Follows (bringIn c record (nested.map (fun x => x.cluster.id))) (Act.bringIn c record nested) d s
      (Agree 0) := by
  intro nv s' hrun
  obtain ⟨b, between, hlook, hedit⟩ := Act.exists_of_bind hrun
  obtain ⟨hb, rfl⟩ := Prod.mk.inj hlook
  have hb := Tree.of_require hb
  obtain ⟨hnv, rfl⟩ := Prod.mk.inj hedit
  obtain rfl := Except.ok.inj hnv
  obtain ⟨_, d1, hput, rfl, hm1⟩ := putVertex_follows hm record _ _ (Act.bringIn_run hb record none)
  cases nested with
  | none => exact ⟨b.nextVertex, d1, (bind_of_ok hput).trans rfl, rfl, hm1⟩
  | some x =>
      have hl : d1.arena.Lays (s.graph.tree.receive c record none) x.nodes := hm1.arena
      have hfind : (s.graph.tree.receive c record none).find? c = some (b.receive record none) :=
        Tree.find?_mapStorage_self hb (fun st => st.addVertex record)
      obtain ⟨a, hreparent, hgraft⟩ := reparent_run hl hfind (hfresh b hb)
      rw [Act.graft_receive hd hb record x] at hgraft
      exact ⟨b.nextVertex, _, (bind_of_ok hput).trans ((bind_of_ok hreparent).trans rfl), rfl,
        hgraft, hm1.ids, hm1.serial, hm1.reported⟩

/-! ## Moves -/

theorem carryIn_follows (routes : Routes) (entries : List (List Value × CarriedEdge))
    (hm : d.Matches s) (c : ClusterId) (v : LocalVertex) :
    Follows (carryIn c routes v entries) (Act.carryIn c routes v entries) d s (Agree 0) := by
  induction entries generalizing d s with
  | nil => exact pure_follows hm ()
  | cons entry rest ih =>
      obtain ⟨properties, edge⟩ := entry
      rw [carryIn, Act.carryIn]
      cases routes.target? edge.global with
      | none =>
          intro b s' hrun
          cases (Prod.mk.inj hrun).1
      | some w => exact (attach_follows hm properties [edge]).bind (fun _ _ d s h => ih h.2)

/-- A move inward follows the act, from where the vertex comes off its cluster. -/
theorem lower_follows (hm : d.Matches s) (hs : s.graph.tree.Sound) {record : VertexRecord}
    (h : s.graph.tree.Inward b inner v cv record) (routes : Routes) :
    Follows (do
        let taken ← takeOut b.cluster.id v
        attachLinks b.cluster.id (linksPast cv taken.near)
        let nv ← bringIn inner.cluster.id taken.record taken.nested
        carryIn inner.cluster.id routes nv ((recordsTo cv taken.near).flatMap (fun r =>
          r.carried.map (fun edge => (r.properties, edge))))
        mark b.cluster.id
        mark inner.cluster.id
        return nv)
      (do
        let (record, nested) ← Act.takeOut b.cluster.id v
        Act.attachLinks b.cluster.id (b.outward v cv)
        let nv ← Act.bringIn inner.cluster.id record nested
        Act.carryIn inner.cluster.id routes nv
          ((b.inward v cv).flatMap (fun r => r.carried.map (fun edge => (r.properties, edge))))
        Act.edit (fun t => t.mark b.cluster.id)
        Act.edit (fun t => t.mark inner.cluster.id)
        return nv) d s (Agree 0) := by
  have hb := hs.nodes _ (Tree.node_mem_of_find? h.around)
  have hi := hs.nodes _ (Tree.node_mem_of_find? h.within)
  obtain ⟨hattach, hd, x, hx, hnode⟩ := Act.half_lower hs h
  refine (takeOut_follows hm h.around hb.keys v).step (Act.takeOut_run h.around h.vertex)
    (fun taken d hcarries => ?_)
  obtain ⟨rfl, hm⟩ := hcarries
  refine (attachLinks_follows (b.outward v cv) hm).step hattach (fun _ d hm => ?_)
  have hfresh : x.nextVertex ∉ x.inside.entries.map Prod.fst := by
    have hfresh := hi.nextHandle_notMem
    rwa [← hnode] at hfresh
  refine (bringIn_follows hm.2 hd (fun y hy => ?_) record).bind (fun nv nv' d s h => ?_)
  · obtain rfl := Option.some.inj (hx.symm.trans hy)
    exact hfresh
  obtain ⟨rfl, hm⟩ := h
  refine (carryIn_follows routes _ hm inner.cluster.id nv).bind (fun _ _ d s h => ?_)
  refine (mark_follows h.2 (Multiset.notMem_zero _)).bind (fun _ _ d s h => ?_)
  exact (mark_follows h.2 (Multiset.notMem_zero _)).bind (fun _ _ d s h => pure_follows h.2 nv)

theorem moveIn_performs (hm : d.Matches s) (hs : s.graph.tree.Sound) (c : ClusterId)
    (v : LocalVertex) (child : ClusterId) :
    Performs (moveIn c v child) (Act.moveIn c v child) d s := by
  have hread : look (fun a => a.vertexOfChild c child) d
      = .ok (s.graph.tree.vertexOfChild c child, d) := by
    rw [look_run, hm.arena.vertexOfChild hs]
  rw [moveIn, Act.moveIn]
  refine .check hread (fun cv hcv => .check_map (requireVertex_run hm.arena c v) (fun b hb => ?_))
  dsimp only
  by_cases hne : v = cv
  · rw [if_pos hne, if_pos hne]
    exact .of_error rfl rfl
  · rw [if_neg hne, if_neg hne]
    obtain ⟨hfind, hlive⟩ := Tree.of_requireVertex hb
    obtain ⟨record, hrecord⟩ := Storage.hasVertex_iff.mp hlive
    have hchild := Tree.of_vertexOfChild hs.distinct hcv
    rw [Tree.children_of_find? hfind] at hchild
    obtain ⟨x, hx, rfl⟩ := Forest.branchAt?_of_mem_entries
      (hs.nodes _ (Tree.node_mem_of_find? hfind)).keys hchild
    have hi := hs.distinct.find?_of_branchAt? hfind hx
    obtain rfl := Tree.id_of_find? hfind
    obtain ⟨names, hmoving, hnames⟩ := moving_run hm.arena hs hfind v
    refine .after_look (Tree.require_of_find? hi) (.after_read hmoving ?_)
    refine .check (inwardTargets_run hm.arena hs hi hnames _) (fun routes hroutes => ?_)
    have h : s.graph.tree.Inward b x v cv record := ⟨hfind, hi, hchild, hrecord, hne⟩
    exact .of_follows (lower_follows hm hs h routes) (Act.lower_run hs h hroutes)

theorem moveInOn_performs (hm : d.Matches s) (hs : s.graph.tree.Sound) (c : ClusterId)
    (v place : LocalVertex) : Performs (moveInOn c v place) (Act.moveInOn c v place) d s := by
  rw [moveInOn, Act.moveInOn]
  exact .check (requireChildAt_run hm.arena c place)
    (fun child _ => moveIn_performs hm hs c v child)

/-- A move outward follows the act, from where the cluster around loses edges. -/
theorem raise_follows (hm : d.Matches s) (hs : s.graph.tree.Sound) {record : VertexRecord}
    (h : s.graph.tree.Outward inner b cv v record) {names : List GlobalVertex}
    (hnames : ∀ g, g ∈ names ↔ g ∈ inner.travelling v) :
    Follows (do
        edit (fun a => a.mapStorage b.cluster.id (fun st =>
          st.withdrawAt (GlobalEdge.touches names) cv))
        let taken ← takeOut inner.cluster.id v
        let nv ← bringIn b.cluster.id taken.record taken.nested
        attachLinks b.cluster.id (taken.near.map (fun entry => ⟨nv, cv, entry.2⟩))
        attachLinks b.cluster.id ((b.cluster.storage.withdrawnAt (GlobalEdge.touches names) cv).map
          (fun entry => ⟨nv, entry.1, entry.2⟩))
        mark inner.cluster.id
        mark b.cluster.id
        return nv)
      (do
        Act.edit (fun t => t.mapStorage b.cluster.id (fun st =>
          st.withdrawAt (GlobalEdge.touches (inner.travelling v)) cv))
        let (record, nested) ← Act.takeOut inner.cluster.id v
        let nv ← Act.bringIn b.cluster.id record nested
        Act.attachLinks b.cluster.id (inner.left v nv cv)
        Act.attachLinks b.cluster.id (b.lifted (inner.travelling v) nv cv)
        Act.edit (fun t => t.mark inner.cluster.id)
        Act.edit (fun t => t.mark b.cluster.id)
        return nv) d s (Agree 0) := by
  have hb := hs.nodes _ (Tree.node_mem_of_find? h.around)
  have hi := hs.nodes _ (Tree.node_mem_of_find? h.within)
  rw [GlobalEdge.touches_congr hnames]
  obtain ⟨hfind, hd, x, hx, hnode⟩ := Act.half_raise hs h (GlobalEdge.touches (inner.travelling v))
  refine (mapStorage_follows hm (Multiset.notMem_zero _) _).step (Act.edit_run _) (fun _ d hm => ?_)
  refine (takeOut_follows hm.2 hfind hi.keys v).step (Act.takeOut_run hfind h.vertex)
    (fun taken d hcarries => ?_)
  obtain ⟨rfl, hm⟩ := hcarries
  -- The cluster around has the vertices and the children that it had.
  have hfresh : x.nextVertex ∉ x.inside.entries.map Prod.fst := by
    have hnext : x.nextVertex = b.nextVertex := by
      have hstorage := congrArg Node.storage hnode
      rw [Branch.nextVertex, show x.cluster.storage = _ from hstorage, Node.storage_mapStorage,
        Storage.vertices_withdrawAt]
      rfl
    have hentries : x.inside.entries = b.inside.entries := congrArg Node.entries hnode
    rw [hnext, hentries]
    exact hb.nextHandle_notMem
  refine (bringIn_follows hm hd (fun y hy => ?_) record).bind (fun nv nv' d s h => ?_)
  · obtain rfl := Option.some.inj (hx.symm.trans hy)
    exact hfresh
  obtain ⟨rfl, hm⟩ := h
  refine (attachLinks_follows (inner.left v nv cv) hm).bind (fun _ _ d s h => ?_)
  refine (attachLinks_follows (b.lifted (inner.travelling v) nv cv) h.2).bind (fun _ _ d s h => ?_)
  refine (mark_follows h.2 (Multiset.notMem_zero _)).bind (fun _ _ d s h => ?_)
  exact (mark_follows h.2 (Multiset.notMem_zero _)).bind (fun _ _ d s h => pure_follows h.2 nv)

theorem moveOut_performs (hm : d.Matches s) (hs : s.graph.tree.Sound) (c : ClusterId)
    (v : LocalVertex) : Performs (moveOut c v) (Act.moveOut c v) d s := by
  rw [moveOut, Act.moveOut]
  refine .check_map (requireVertex_run hm.arena c v) (fun inner hi => ?_)
  obtain ⟨hfind, hlive⟩ := Tree.of_requireVertex hi
  obtain rfl := Tree.id_of_find? hfind
  refine .check (?reads) (fun place hplace => ?_)
  case reads =>
    rw [settle, requirePlace, Tree.cell, Tree.parent?, Tree.vertex?]
    cases s.graph.tree.place? inner.cluster.id <;> rfl
  obtain ⟨parent, cv⟩ := place
  have hchild : (cv, inner.cluster.id) ∈ s.graph.tree.children parent := by
    refine hs.distinct.place?_eq_some_iff.mp ?_
    cases hp : s.graph.tree.place? inner.cluster.id with
    | none => rw [hp] at hplace; cases hplace
    | some place => rw [hp] at hplace; exact congrArg some (Except.ok.inj hplace)
  obtain ⟨b, x, hb, hx, hid⟩ := hs.exists_branch_of_children hchild
  have hread : read (fun a => a.isLive parent) d = .ok (.ok true, d) := by
    rw [read, hm.arena.isLive, Tree.isLive, hb]
    rfl
  obtain ⟨names, hmoving, hnames⟩ := moving_run hm.arena hs hfind v
  obtain ⟨record, hrecord⟩ := Storage.hasVertex_iff.mp hlive
  rw [Tree.children_of_find? hb] at hchild
  obtain rfl := Tree.id_of_find? hb
  have h : s.graph.tree.Outward inner b cv v record := ⟨hfind, hb, hchild, hrecord⟩
  refine .after_read hread (.after_look (a := b) ?found (.after_read hmoving
    (.after_read (cell_of_find? hm.arena hb) ?_)))
  case found => rw [hb]
  exact .of_follows (raise_follows hm hs h hnames) (Act.raise_run hs h)

end Job

end NestedGraph
