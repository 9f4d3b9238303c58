import NestedGraph.Proofs.Transfers

/-! # Ascent — what a move out of a cluster does, exactly

    A vertex moves out of its cluster into the one around.  All its edges
    are merged into one edge between it and the vertex of the cluster left
    behind.  The edges of that vertex are split: what has an endpoint that
    moved now ends at the moved vertex, the rest stays.  All other edges
    are left alone. -/

namespace NestedGraph

open EdgeRecord

/-! ## Links -/

namespace Branch

variable {b inner : Branch} {v w x y cv nv : LocalVertex} {moving : List GlobalVertex}

theorem left_to : ((inner.left v nv cv).filter (fun l => l.joins nv cv)).map Link.record
    = (inner.cluster.storage.recordsAt v).map Prod.snd := by
  have hall : (inner.left v nv cv).filter (fun l => l.joins nv cv) = inner.left v nv cv := by
    refine List.filter_eq_self.mpr (fun l hl => ?_)
    obtain ⟨near, -, rfl⟩ := List.mem_map.mp hl
    exact Link.joins_iff.mpr rfl
  rw [hall, left, List.map_map]
  rfl

theorem left_beside (hw : w ≠ cv) :
    (inner.left v nv cv).filter (fun l => l.joins nv w) = [] := by
  refine List.filter_eq_nil_iff.mpr (fun l hl => ?_)
  obtain ⟨near, -, rfl⟩ := List.mem_map.mp hl
  rw [Link.joins_iff, Link.ends, Sym2.congr_right]
  exact hw.symm

theorem left_away (hx : x ≠ nv) (hy : y ≠ nv) :
    (inner.left v nv cv).filter (fun l => l.joins x y) = [] := by
  refine List.filter_eq_nil_iff.mpr (fun l hl => ?_)
  obtain ⟨near, -, rfl⟩ := List.mem_map.mp hl
  simp [Link.joins, hx.symm, hy.symm]

/-- What is put between the new vertex and another one is what is withdrawn
    from the edge to that one. -/
theorem lifted_to (hs : b.cluster.storage.Sound) (hw : w ≠ nv) :
    ((b.lifted moving nv cv).filter (fun l => l.joins nv w)).map Link.record
      = ((b.cluster.storage.recordBetween? cv w).bind (part? (GlobalEdge.touches moving))).toList := by
  rw [← hs.withdrawnAt_to, lifted, List.filter_map, List.map_map]
  refine congrArg _ (List.filter_congr (fun near _ => ?_))
  by_cases hnear : near.1 = w
  · simp [Link.joins, hnear]
  · simp [Link.joins, hnear, hw.symm]

theorem lifted_away (hx : x ≠ nv) (hy : y ≠ nv) :
    (b.lifted moving nv cv).filter (fun l => l.joins x y) = [] := by
  refine List.filter_eq_nil_iff.mpr (fun l hl => ?_)
  obtain ⟨near, -, rfl⟩ := List.mem_map.mp hl
  simp [Link.joins, hx.symm, hy.symm]

end Branch

/-! ## The two clusters -/

namespace Tree

variable {t t' : Tree} {count : UInt64} {c : ClusterId} {b inner : Branch}
  {v w x y cv nv : LocalVertex} {record : VertexRecord}

theorem Outward.recordBetween?_drained (hs : t.Sound) (h : t.Outward inner b cv v record)
    (hx : x ≠ v) (hy : y ≠ v) : (inner.drained t.config v).storage.recordBetween? x y
      = inner.cluster.storage.recordBetween? x y := by
  have hi : inner.cluster.storage.Sound := (hs.nodes _ (node_mem_of_find? h.within)).storage
  rw [Branch.drained, Node.storage_mark]
  exact hi.recordBetween?_removeVertex hx hy

theorem Outward.recordBetween?_raised (hs : t.Sound) (h : t.Outward inner b cv v record)
    (x y : LocalVertex) : (b.raised t.config inner cv v record).storage.recordBetween? x y
      = merged? (((b.cluster.storage.withdrawAt (GlobalEdge.touches (inner.travelling v))
            cv).recordBetween? x y).toList
          ++ (((inner.left v b.nextVertex cv).filter (fun l => l.joins x y)).map Link.record
            ++ ((b.lifted (inner.travelling v) b.nextVertex cv).filter
                (fun l => l.joins x y)).map Link.record)) := by
  have hb := hs.nodes _ (node_mem_of_find? h.around)
  have hi := hs.nodes _ (node_mem_of_find? h.within)
  have hstored : b.cluster.storage.Sound := hb.storage
  let withdrawn := b.cluster.storage.withdrawAt (GlobalEdge.touches (inner.travelling v)) cv
  let links := inner.left v b.nextVertex cv ++ b.lifted (inner.travelling v) b.nextVertex cv
  have hraised : (b.raised t.config inner cv v record).storage
      = (withdrawn.addVertex record).attachLinks links := Node.storage_mark ..
  have hfit : ∀ l ∈ links, (withdrawn.addVertex record).Fit l :=
    fun l hl => fit_raised hb hi record (hb.held _ h.child) (inner.travelling v) hl
  rw [hraised, ((hstored.withdrawAt _ cv).addVertex record).recordBetween?_attachLinks hfit,
    Storage.recordBetween?_addVertex, List.filter_append, List.map_append]

/-- Nothing ends at a vertex before it arrives. -/
theorem Outward.recordBetween?_fresh (hs : t.Sound) (h : t.Outward inner b cv v record)
    (p : GlobalEdge → Bool) (w : LocalVertex) :
    (b.cluster.storage.withdrawAt p cv).recordBetween? b.nextVertex w = none := by
  have hb : b.cluster.storage.Sound := (hs.nodes _ (node_mem_of_find? h.around)).storage
  refine (hb.withdrawAt p cv).recordBetween?_of_dead ?_
  rw [Storage.vertex?, Storage.vertices_withdrawAt]
  exact SlotStore.get?_nextHandle hb.vertices

/-! ## The move -/

/-- Vertex `v` of cluster `c`, which stands on vertex `cv` of cluster `p`, moved
    there, where it is `nv`. -/
structure MovesOut (t t' : Tree) (c : ClusterId) (v : LocalVertex) (p : ClusterId)
    (cv nv : LocalVertex) : Prop extends t.Transfers t' c p v nv where
  /-- The edges of the vertex are one edge now, with the properties of the first. -/
  left : t'.recordBetween? p nv cv
    = merged? ((t.incident c v).filterMap (fun e => (t.edgeRecord c e).toOption))
  /-- From an edge of the cluster's vertex, the new vertex takes the part with an
      endpoint that moved, with the properties. -/
  lifted : ∀ w, w ≠ nv → w ≠ cv → t'.recordBetween? p nv w = (t.recordBetween? p cv w).bind
    (part? (fun e => t.movesWith c v e.source || t.movesWith c v e.target))
  /-- The rest of the edge stays, unless there is none. -/
  rest : ∀ w, w ≠ nv → t'.recordBetween? p cv w = (t.recordBetween? p cv w).bind
    (part? (fun e => !(t.movesWith c v e.source || t.movesWith c v e.target)))
  /-- The other edges of the two clusters are as they were. -/
  around : ∀ x y, x ≠ nv → y ≠ nv → x ≠ cv → y ≠ cv →
    t'.recordBetween? p x y = t.recordBetween? p x y
  within : ∀ x y, x ≠ v → y ≠ v → t'.recordBetween? c x y = t.recordBetween? c x y

theorem Outward.movesOut (hs : t.Sound) (h : t.Outward inner b cv v record) :
    t.MovesOut (t.raise cv v inner b) inner.cluster.id v b.cluster.id cv b.nextVertex := by
  have hs' := hs.raise h
  have hover := h.handover hs
  have hb := hs.nodes _ hover.taker_mem.1
  have hstored : b.cluster.storage.Sound := hb.storage
  have hi : inner.cluster.storage.Sound := (hs.nodes _ hover.giver_mem.1).storage
  have hcv : cv ≠ b.nextVertex := by
    rintro rfl
    exact hover.notMem_taker _ h.child
  -- The records of the two clusters, before and after.
  have hrecord : ∀ x y, t.recordBetween? b.cluster.id x y = b.cluster.storage.recordBetween? x y :=
    hs.distinct.recordBetween?_of_mem hover.taker_mem.1
  have hchild : ∀ x y, t.recordBetween? inner.cluster.id x y
      = inner.cluster.storage.recordBetween? x y :=
    hs.distinct.recordBetween?_of_mem hover.giver_mem.1
  have hrecord' := hover.recordBetween?_taker hs'.distinct
  have hchild' := hover.recordBetween?_giver hs'.distinct
  have htouches : GlobalEdge.touches (inner.travelling v)
      = fun e => t.movesWith inner.cluster.id v e.source || t.movesWith inner.cluster.id v e.target :=
    funext (hs.distinct.touches_eq h.within)
  refine ⟨h.transfers hs hs', ?left, ?lifted, ?rest, ?around, ?within⟩
  case left =>
    have hself : b.cluster.storage.recordBetween? cv cv = none := hstored.recordBetween?_self cv
    have hincident : t.incident inner.cluster.id v = inner.cluster.storage.incident v := by
      rw [incident, storage?, h.within]
      rfl
    have hedge : (fun e => (t.edgeRecord inner.cluster.id e).toOption)
        = inner.cluster.storage.edgeRecord? :=
      funext (hs.distinct.edgeRecord_of_mem hover.giver_mem.1)
    rw [hrecord', h.recordBetween?_raised hs, h.recordBetween?_fresh hs, Branch.left_to,
      Branch.lifted_to hstored hcv, hself, hi.snd_recordsAt, hincident, hedge]
    simp
  case lifted =>
    intro w hw hwcv
    rw [hrecord', hrecord, h.recordBetween?_raised hs, h.recordBetween?_fresh hs,
      Branch.left_beside hwcv, Branch.lifted_to hstored hw, htouches]
    simp
  case rest =>
    intro w hw
    rw [hrecord', hrecord, h.recordBetween?_raised hs, hstored.recordBetween?_withdrawAt,
      Branch.left_away hcv hw, Branch.lifted_away hcv hw, htouches]
    simp
  case around =>
    intro x y hx hy hxcv hycv
    rw [hrecord', hrecord, h.recordBetween?_raised hs,
      hstored.recordBetween?_withdrawAt_of_ne _ hxcv hycv, Branch.left_away hx hy,
      Branch.lifted_away hx hy]
    simp
  case within =>
    intro x y hx hy
    rw [hchild', hchild, h.recordBetween?_drained hs hx hy]

/-- A vertex of any cluster but the root may move out. -/
theorem Sound.moveOut_iff (hs : t.Sound) :
    (∃ result, t.moveOut c v = .ok result)
      ↔ t.isLive c = true ∧ c ≠ t.root ∧ v ∈ t.vertices c := by
  have hd := hs.distinct
  constructor
  · rintro ⟨result, hmove⟩
    obtain ⟨b, inner, cv, record, h, rfl, -⟩ := of_moveOut hs hmove
    have hn := node_mem_of_find? h.within
    refine ⟨isLive_iff.mpr (Multiset.mem_map_of_mem Node.id hn),
      hd.child_ne_root (node_mem_of_find? h.around) h.child, ?_⟩
    exact (hd.mem_vertices hn).mpr (Storage.hasVertex_iff.mpr ⟨record, h.vertex⟩)
  · rintro ⟨hlive, hroot, hv⟩
    obtain ⟨n, hn, cv, he⟩ := exists_parent (isLive_iff.mp hlive) hroot
    obtain ⟨b, inner, record, h, -, rfl⟩ := hs.outward hv ((hd.children_of_mem hn).symm ▸ he)
    exact ⟨_, h.moveOut_eq hs⟩

theorem Sound.movesOut (hs : t.Sound) {result : Tree × LocalVertex}
    (hmove : t.moveOut c v = .ok result) :
    ∃ p cv, t.place? c = some (p, cv) ∧ t.MovesOut result.1 c v p cv result.2 := by
  obtain ⟨b, inner, cv, record, h, rfl, heq, hnv⟩ := of_moveOut hs hmove
  have hchild := (hs.distinct.children_of_mem (node_mem_of_find? h.around)).symm ▸ h.child
  rw [heq, hnv]
  exact ⟨b.cluster.id, cv, hs.distinct.place?_eq_some_iff.mpr hchild, h.movesOut hs⟩

end Tree

/-! ## Runs -/

namespace Workspace

variable {number : Nat} {m : Member}

/-- **MOVING OUT, EXACTLY**: whatever was done, a vertex moves out of a cluster
    exactly when the cluster is alive and not the root and the vertex is live.
    Then it is under a new handle in the cluster around, with its name, its
    properties, its objects and the cluster that hangs on it, and each global
    edge that was at it, or at the cluster's vertex because of it, is carried
    where it belongs. -/
theorem movesOut_run (operations : List Operation)
    (hm : (empty.run operations).members[number]? = some m) (c : ClusterId) (v : LocalVertex) :
    ((∃ w' reply, (empty.run operations).step (.change number (.moveOut c v)) = (w', .ok reply))
      ↔ m.tree.isLive c = true ∧ c ≠ m.tree.root ∧ v ∈ m.tree.vertices c)
    ∧ ∀ w' reply, (empty.run operations).step (.change number (.moveOut c v))
        = (w', .ok reply) →
      ∃ nv m' p cv, reply = .moved nv ∧ w'.members[number]? = some m'
        ∧ m.tree.parent? c = some p ∧ m.tree.vertex? c = some cv
        ∧ m.tree.MovesOut m'.tree c v p cv nv := by
  have hw := sound_run operations
  have hs := hw.trees m (List.mem_of_getElem? hm)
  constructor
  · rw [hw.step_moving_iff hm (x := m.tree.moveOut c v) (fun _ => rfl)]
    exact hs.moveOut_iff
  · intro w' reply hstep
    obtain ⟨r, m', hr, rfl, hm', heq⟩ := hw.of_step_moving hm
      (x := m.tree.moveOut c v) (fun _ => rfl) hstep
    obtain ⟨p, cv, hplace, hmoves⟩ := hs.movesOut hr
    exact ⟨r.2, m', p, cv, rfl, hm', congrArg (Option.map Prod.fst) hplace,
      congrArg (Option.map Prod.snd) hplace, heq ▸ hmoves⟩

/-- A vertex that stands for a cluster goes out.  Around, the edge to one
    neighbour is split, and the edge to another one goes over as a whole. -/
theorem movesOut_subcluster :
    let operations := [Operation.newGraph (.declared []) .fresh,
      .change 0 (.addCluster Tree.rootId), .change 0 (.addVertex Tree.rootId),
      .change 0 (.addVertex Tree.rootId), .change 0 (.addCluster ⟨1⟩), .change 0 (.addVertex ⟨1⟩),
      .change 0 (.addVertex ⟨1⟩), .change 0 (.addVertex ⟨2⟩), .change 0 (.connect ⟨1⟩ ⟨17⟩ ⟨15⟩),
      .change 0 (.connect ⟨1⟩ ⟨16⟩ ⟨17⟩), .change 0 (.connect Tree.rootId ⟨17⟩ ⟨12⟩),
      .change 0 (.connect Tree.rootId ⟨15⟩ ⟨12⟩), .change 0 (.connect Tree.rootId ⟨13⟩ ⟨17⟩)]
    let w := empty.run operations
    let command := Command.moveOut ⟨1⟩ ⟨0, 0⟩
    ∃ m m', w.members[0]? = some m ∧ (w.step (.change 0 command)).1.members[0]? = some m'
      ∧ m.tree.carried Tree.rootId ⟨0, 0⟩ = [⟨⟨17⟩, ⟨12⟩, 20⟩, ⟨⟨15⟩, ⟨12⟩, 21⟩]
      ∧ m'.tree.carried Tree.rootId ⟨0, 0⟩ = [⟨⟨15⟩, ⟨12⟩, 21⟩]
      ∧ m'.tree.carried Tree.rootId ⟨2, 0⟩ = [⟨⟨17⟩, ⟨12⟩, 20⟩]
      ∧ m'.tree.carried Tree.rootId ⟨3, 0⟩ = [⟨⟨13⟩, ⟨17⟩, 22⟩]
      ∧ m'.tree.carried Tree.rootId ⟨1, 1⟩ = [⟨⟨17⟩, ⟨15⟩, 18⟩, ⟨⟨16⟩, ⟨17⟩, 19⟩]
      ∧ m.tree.MovesOut m'.tree ⟨1⟩ ⟨0, 0⟩ Tree.rootId ⟨0, 0⟩ ⟨3, 0⟩ := by
  intro operations w command
  have hm : ∃ m ∈ w.members[0]?,
      m.tree.parent? ⟨1⟩ = some Tree.rootId ∧ m.tree.vertex? ⟨1⟩ = some ⟨0, 0⟩
        ∧ m.tree.carried Tree.rootId ⟨0, 0⟩ = [⟨⟨17⟩, ⟨12⟩, 20⟩, ⟨⟨15⟩, ⟨12⟩, 21⟩] := by
    decide +kernel
  have hm' : ∃ m' ∈ (w.step (.change 0 command)).1.members[0]?,
      m'.tree.carried Tree.rootId ⟨0, 0⟩ = [⟨⟨15⟩, ⟨12⟩, 21⟩]
        ∧ m'.tree.carried Tree.rootId ⟨2, 0⟩ = [⟨⟨17⟩, ⟨12⟩, 20⟩]
        ∧ m'.tree.carried Tree.rootId ⟨3, 0⟩ = [⟨⟨13⟩, ⟨17⟩, 22⟩]
        ∧ m'.tree.carried Tree.rootId ⟨1, 1⟩ = [⟨⟨17⟩, ⟨15⟩, 18⟩, ⟨⟨16⟩, ⟨17⟩, 19⟩] := by
    decide +kernel
  have hreply : (w.step (.change 0 command)).2 = .ok (.moved ⟨3, 0⟩) := by decide +kernel
  obtain ⟨m, hm, hparent, hplace, hbefore⟩ := hm
  obtain ⟨m', hm', hafter⟩ := hm'
  have hstep := eq_of_answer hreply
  obtain ⟨nv, k, p, cv, heq, hk, hp, hcv, hmoves⟩ :=
    (movesOut_run operations hm ⟨1⟩ ⟨0, 0⟩).2 _ _ hstep
  obtain rfl := Reply.moved.inj heq
  obtain rfl : m' = k := Option.mem_unique hm' hk
  obtain rfl := Option.some.inj (hparent.symm.trans hp)
  obtain rfl := Option.some.inj (hplace.symm.trans hcv)
  obtain ⟨hstayed, htaken, hwhole, hleft⟩ := hafter
  exact ⟨m, m', hm, hm', hbefore, hstayed, htaken, hwhole, hleft, hmoves⟩

end Workspace

end NestedGraph
