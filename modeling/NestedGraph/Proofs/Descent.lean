import NestedGraph.Proofs.Transfers

/-! # Descent — what a move into a child does, exactly

    A vertex moves into a child next to it.  Its edges to other neighbours
    are merged into the edges that these have to the child's vertex.  Its
    edge to the child's vertex is dealt out inside the child: each global
    edge goes between the new vertex and what represents the endpoint that
    stays.  All other edges are left alone. -/

namespace NestedGraph

open EdgeRecord

/-! ## Links -/

namespace Branch

variable {b : Branch} {v w x y cv nv u : LocalVertex} {routes : Routes}

/-- What goes in with a vertex is what its edge to the child's vertex keeps. -/
theorem inward_eq (hs : b.cluster.storage.Sound) :
    b.inward v cv = (b.cluster.storage.recordBetween? v cv).toList := hs.recordsAt_to v cv

/-- What is put between a neighbour and the child's vertex is what was between
    the neighbour and the vertex. -/
theorem outward_to (hs : b.cluster.storage.Sound) (hw : w ≠ cv) :
    ((b.outward v cv).filter (fun l => l.joins w cv)).map Link.record
      = (b.cluster.storage.recordBetween? v w).toList := by
  rw [← hs.recordsAt_to, outward, List.filter_map, List.filter_filter, List.map_map]
  refine congrArg _ (List.filter_congr (fun near _ => ?_))
  by_cases hnear : near.1 = w
  · simp [Link.joins, hnear, hw]
  · simp [Link.joins, hnear, hw.symm]

theorem outward_away (hx : x ≠ cv) (hy : y ≠ cv) :
    (b.outward v cv).filter (fun l => l.joins x y) = [] := by
  refine List.filter_eq_nil_iff.mpr (fun l hl => ?_)
  obtain ⟨near, -, rfl⟩ := List.mem_map.mp hl
  simp [Link.joins, hx.symm, hy.symm]

/-- What is put between the new vertex and another one is what is routed
    there. -/
theorem incoming_to (r : EdgeRecord) (hu : u ≠ nv) :
    ((incoming [r] routes nv).filter (fun l => l.joins nv u)).map Link.record
      = (r.matching (fun e => decide (routes.target? e = some u))).map
          (fun x => ⟨r.properties, [x]⟩) := by
  rw [incoming, List.flatMap_singleton, EdgeRecord.matching]
  induction r.carried with
  | nil => rfl
  | cons edge rest ih =>
      cases htarget : routes.target? edge.global with
      | none => simpa [htarget] using ih
      | some w =>
          by_cases hw : w = u
          · simpa [htarget, hw, Link.joins] using ih
          · simpa [htarget, hw, Link.joins, hu.symm] using ih

theorem incoming_away {records : List EdgeRecord} (hx : x ≠ nv) (hy : y ≠ nv) :
    (incoming records routes nv).filter (fun l => l.joins x y) = [] := by
  refine List.filter_eq_nil_iff.mpr (fun l hl => ?_)
  obtain ⟨-, -, -, -, w, -, rfl⟩ := mem_incoming hl
  simp [Link.joins, hx.symm, hy.symm]

end Branch

/-! ## The two clusters -/

namespace Tree

variable {t t' : Tree} {count : UInt64} {c child : ClusterId} {b inner : Branch}
  {v w x y cv nv u : LocalVertex} {record : VertexRecord} {routes : Routes}

theorem Inward.recordBetween?_lowered (hs : t.Sound) (h : t.Inward b inner v cv record)
    (hx : x ≠ v) (hy : y ≠ v) :
    (b.lowered t.config v cv).storage.recordBetween? x y
      = merged? ((b.cluster.storage.recordBetween? x y).toList
          ++ ((b.outward v cv).filter (fun l => l.joins x y)).map Link.record) := by
  have hb := hs.nodes _ (node_mem_of_find? h.around)
  have hstored : b.cluster.storage.Sound := hb.storage
  have hlowered : (b.lowered t.config v cv).storage
      = (b.cluster.storage.removeVertex v).attachLinks (b.outward v cv) := Node.storage_mark ..
  have hfit : ∀ l ∈ b.outward v cv, (b.cluster.storage.removeVertex v).Fit l :=
    fun l hl => Branch.fit_outward hstored (hb.held _ h.child) h.ne hl
  rw [hlowered, (hstored.removeVertex v).recordBetween?_attachLinks hfit,
    hstored.recordBetween?_removeVertex hx hy]

theorem Inward.recordBetween?_sunk (hs : t.Sound) (h : t.Inward b inner v cv record)
    (hroutes : inner.routes (b.travelling v) ((b.inward v cv).flatMap EdgeRecord.globals)
      = .ok routes) (x y : LocalVertex) :
    (b.sunk t.config inner v cv routes record).storage.recordBetween? x y
      = merged? ((inner.cluster.storage.recordBetween? x y).toList
          ++ ((Branch.incoming (b.inward v cv) routes inner.nextVertex).filter
              (fun l => l.joins x y)).map Link.record) := by
  have hi := hs.nodes _ (node_mem_of_find? h.within)
  have hstored : inner.cluster.storage.Sound := hi.storage
  have hsunk : (b.sunk t.config inner v cv routes record).storage
      = (inner.cluster.storage.addVertex record).attachLinks
          (Branch.incoming (b.inward v cv) routes inner.nextVertex) := Node.storage_mark ..
  have hfit : ∀ l ∈ Branch.incoming (b.inward v cv) routes inner.nextVertex,
      (inner.cluster.storage.addVertex record).Fit l :=
    fun l hl => fit_incoming hi record (Node.Sound.hasVertex_of_target? hi hroutes) hl
  rw [hsunk, (hstored.addVertex record).recordBetween?_attachLinks hfit,
    Storage.recordBetween?_addVertex]

/-- The new vertex has an edge to each vertex that something is routed to. -/
theorem Inward.recordBetween?_new (hs : t.Sound) (h : t.Inward b inner v cv record)
    (hroutes : inner.routes (b.travelling v) ((b.inward v cv).flatMap EdgeRecord.globals)
      = .ok routes) (hu : u ≠ inner.nextVertex) :
    (b.sunk t.config inner v cv routes record).storage.recordBetween? inner.nextVertex u
      = (b.cluster.storage.recordBetween? v cv).bind
          (part? (fun e => decide (routes.target? e = some u))) := by
  have hb := (hs.nodes _ (node_mem_of_find? h.around)).storage
  have hi := (hs.nodes _ (node_mem_of_find? h.within)).storage
  have hdead : inner.cluster.storage.recordBetween? inner.nextVertex u = none :=
    hi.recordBetween?_of_dead (SlotStore.get?_nextHandle hi.vertices)
  rw [h.recordBetween?_sunk hs hroutes, hdead, Branch.inward_eq hb]
  cases b.cluster.storage.recordBetween? v cv with
  | none => rfl
  | some r =>
      show merged? (((Branch.incoming [r] routes inner.nextVertex).filter _).map Link.record) = _
      rw [Branch.incoming_to r hu, merged?_singles]
      rfl

/-- An edge that comes in is routed to what represents the endpoint that stays,
    before the move and after it. -/
theorem Inward.routed (ho : t.Orderly count) (h : t.Inward b inner v cv record)
    (hroutes : inner.routes (b.travelling v) ((b.inward v cv).flatMap EdgeRecord.globals)
      = .ok routes) {edge : CarriedEdge} (hload : (s(v, cv), edge) ∈ b.cluster.storage.load) :
    t.movesWith b.cluster.id v (t.staying b.cluster.id v edge.global) = false
      ∧ ∃ y, t.localVertex? inner.cluster.id (t.staying b.cluster.id v edge.global) true = some y
        ∧ (t.lower v cv routes b inner).localVertex? inner.cluster.id
            (t.staying b.cluster.id v edge.global) true = some y
        ∧ routes.target? edge.global = some y := by
  have hs := ho.sound
  have hover := h.handover hs routes
  obtain ⟨near, far, y, hnear, hfar, hroute, hends⟩ := h.ends ho
    (ho.placed _ (node_mem_of_find? h.around) _ _ (Storage.mem_carries.mpr ⟨edge, hload, rfl⟩))
  have htarget := (h.target?_eq ho hroutes hload).trans hroute
  obtain ⟨g, hg, -⟩ := Option.bind_eq_some_iff.mp hroute
  obtain ⟨hstaying, hstays⟩ := hs.distinct.of_farEnd? h.around hg
  -- The one endpoint moves, so the other is the one that stays.
  have hgfar : g = far := by
    have hmoves : t.movesWith b.cluster.id v near = true :=
      (hs.distinct.movesWith_iff h.around).mpr (hnear.mem_travelling hs h.around)
    have hne : g ≠ near := by
      rintro rfl
      exact Bool.false_ne_true (hstays.symm.trans hmoves)
    have hend : g = edge.global.source ∨ g = edge.global.target := by
      rw [← hstaying, staying]
      split
      · exact Or.inr rfl
      · exact Or.inl rfl
    rcases hends with ⟨rfl, rfl⟩ | ⟨rfl, rfl⟩
    · exact hend.resolve_left hne
    · exact hend.resolve_right hne
  subst hgfar
  have hchild : inner.cluster.id ∈ t.ids := Multiset.mem_map_of_mem Node.id hover.taker_mem.1
  have hchild' : inner.cluster.id ∈ (t.lower v cv routes b inner).ids := hover.ids ▸ hchild
  rw [hstaying]
  exact ⟨hstays, y, ho.localVertex?_eq hchild hfar,
    (ho.lower h hroutes).localVertex?_eq hchild' (h.stands_within hs routes hfar), htarget⟩

/-! ## The move -/

/-- Vertex `v` of cluster `c` moved into the child on vertex `cv`, where it is
    `nv`. -/
structure MovesIn (t t' : Tree) (c : ClusterId) (v : LocalVertex) (child : ClusterId)
    (cv nv : LocalVertex) : Prop extends t.Transfers t' c child v nv where
  /-- An edge to another neighbour now ends at the child's vertex.  It is merged
      into the edge that is there, or keeps its properties. -/
  outward : ∀ w, w ≠ v → w ≠ cv → t'.recordBetween? c w cv
    = merged? ((t.recordBetween? c w cv).toList ++ (t.recordBetween? c v w).toList)
  /-- Of the edge to the child's vertex, the new vertex has with each vertex of
      the child the part whose endpoint that stays is represented there. -/
  inward : ∀ u, u ≠ nv → t'.recordBetween? child nv u = (t.recordBetween? c v cv).bind
    (part? (fun e => decide (t.localVertex? child (t.staying c v e) true = some u)))
  /-- That is everything: one endpoint stays, and is represented in the child. -/
  represented : ∀ r, t.recordBetween? c v cv = some r → ∀ e ∈ r.globals,
    t.movesWith c v (t.staying c v e) = false
      ∧ ∃ u ∈ t.vertices child, t.localVertex? child (t.staying c v e) true = some u
        ∧ t'.localVertex? child (t.staying c v e) true = some u
  /-- The other edges of the two clusters are as they were. -/
  around : ∀ x y, x ≠ v → y ≠ v → x ≠ cv → y ≠ cv →
    t'.recordBetween? c x y = t.recordBetween? c x y
  within : ∀ x y, x ≠ nv → y ≠ nv → t'.recordBetween? child x y = t.recordBetween? child x y

theorem Inward.movesIn (ho : t.Orderly count) (h : t.Inward b inner v cv record)
    (hroutes : inner.routes (b.travelling v) ((b.inward v cv).flatMap EdgeRecord.globals)
      = .ok routes) :
    t.MovesIn (t.lower v cv routes b inner) b.cluster.id v inner.cluster.id cv
      inner.nextVertex := by
  have hs := ho.sound
  have hs' := (ho.lower h hroutes).sound
  have hover := h.handover hs routes
  have hb := (hs.nodes _ hover.giver_mem.1).storage
  have hi := hs.nodes _ hover.taker_mem.1
  -- The records of the two clusters, before and after.
  have hrecord : ∀ x y, t.recordBetween? b.cluster.id x y = b.cluster.storage.recordBetween? x y :=
    hs.distinct.recordBetween?_of_mem hover.giver_mem.1
  have hchild : ∀ x y, t.recordBetween? inner.cluster.id x y
      = inner.cluster.storage.recordBetween? x y :=
    hs.distinct.recordBetween?_of_mem hover.taker_mem.1
  have hrecord' := hover.recordBetween?_giver hs'.distinct
  have hchild' := hover.recordBetween?_taker hs'.distinct
  refine ⟨h.transfers hs hs', ?outward, ?inward, ?represented, ?around, ?within⟩
  case outward =>
    intro w hwv hwcv
    rw [hrecord', hrecord, hrecord, h.recordBetween?_lowered hs hwv h.ne.symm,
      Branch.outward_to hb hwcv]
  case inward =>
    intro u hu
    rw [hchild', hrecord, h.recordBetween?_new hs hroutes hu]
    refine bind_part?_congr (fun r hr edge hedge => ?_)
    obtain ⟨-, y, hy, -, htarget⟩ :=
      h.routed ho hroutes (hb.mem_load_of_recordBetween? hr hedge)
    rw [hy, htarget]
  case represented =>
    intro r hr e he
    obtain ⟨edge, hedge, rfl⟩ := List.mem_map.mp he
    rw [hrecord] at hr
    obtain ⟨hstays, y, hy, hy', htarget⟩ :=
      h.routed ho hroutes (hb.mem_load_of_recordBetween? hr hedge)
    refine ⟨hstays, y, ?_, hy, hy'⟩
    exact (hs.distinct.mem_vertices hover.taker_mem.1).mpr
      (Node.Sound.hasVertex_of_target? hi hroutes edge.global y htarget)
  case around =>
    intro x y hxv hyv hxcv hycv
    rw [hrecord', hrecord, h.recordBetween?_lowered hs hxv hyv, Branch.outward_away hxcv hycv,
      List.map_nil, List.append_nil, merged?_toList]
  case within =>
    intro x y hx hy
    rw [hchild', hchild, h.recordBetween?_sunk hs hroutes, Branch.incoming_away hx hy,
      List.map_nil, List.append_nil, merged?_toList]

/-- A vertex may move into a child of its cluster, unless it is the child's. -/
theorem Orderly.moveIn_iff (ho : t.Orderly count) :
    (∃ result, t.moveIn c v child = .ok result)
      ↔ t.isLive c = true ∧ t.isLive child = true ∧ t.parent? child = some c
        ∧ v ∈ t.vertices c ∧ t.vertex? child ≠ some v := by
  have hd := ho.sound.distinct
  constructor
  · rintro ⟨result, hmove⟩
    obtain ⟨b, inner, cv, record, routes, h, rfl, rfl, -⟩ := of_moveIn ho.sound hmove
    have hn := node_mem_of_find? h.around
    have hplace := hd.place?_eq_some_iff.mpr ((hd.children_of_mem hn).symm ▸ h.child)
    refine ⟨isLive_iff.mpr (Multiset.mem_map_of_mem Node.id hn),
      isLive_iff.mpr (Distinct.child_live hn h.child), congrArg (Option.map Prod.fst) hplace,
      (hd.mem_vertices hn).mpr (Storage.hasVertex_iff.mpr ⟨record, h.vertex⟩), fun heq => ?_⟩
    exact h.ne (Option.some.inj (heq.symm.trans (congrArg (Option.map Prod.snd) hplace)))
  · rintro ⟨-, -, hparent, hv, hne⟩
    obtain ⟨⟨p, cv⟩, hplace, rfl⟩ := Option.map_eq_some_iff.mp hparent
    have hne : v ≠ cv := by
      rintro rfl
      exact hne (congrArg (Option.map Prod.snd) hplace)
    obtain ⟨b, inner, record, h, rfl, rfl⟩ :=
      ho.sound.inward hv (hd.place?_eq_some_iff.mp hplace) hne
    obtain ⟨routes, -, hmove⟩ := h.moveIn_eq ho
    exact ⟨_, hmove⟩

theorem Orderly.movesIn (ho : t.Orderly count) {result : Tree × LocalVertex}
    (hmove : t.moveIn c v child = .ok result) :
    ∃ cv, t.vertex? child = some cv ∧ t.MovesIn result.1 c v child cv result.2 := by
  obtain ⟨b, inner, cv, record, routes, h, rfl, rfl, hroutes, heq, hnv⟩ :=
    of_moveIn ho.sound hmove
  have hchild := (ho.sound.distinct.children_of_mem (node_mem_of_find? h.around)).symm ▸ h.child
  have hplace := ho.sound.distinct.place?_eq_some_iff.mpr hchild
  rw [heq, hnv]
  exact ⟨cv, congrArg (Option.map Prod.snd) hplace, h.movesIn ho hroutes⟩

end Tree

/-! ## Runs -/

namespace Workspace

variable {number : Nat} {m : Member}

/-- **MOVING IN, EXACTLY**: after a well-behaved run, a vertex moves into a
    cluster exactly when both clusters are alive, the one is the parent of the
    other, and the vertex is live and not the child's own.  Then it is under a
    new handle in the child, with its name, its properties, its objects and the
    cluster that hangs on it, and each global edge that was at it is carried
    where it belongs. -/
theorem movesIn_run {operations : List Operation} (h : empty.WellBehaved operations)
    (hm : (empty.run operations).members[number]? = some m) (c : ClusterId) (v : LocalVertex)
    (child : ClusterId) :
    ((∃ w' reply, (empty.run operations).step (.change number (.moveIn c v child))
        = (w', .ok reply))
      ↔ m.tree.isLive c = true ∧ m.tree.isLive child = true ∧ m.tree.parent? child = some c
        ∧ v ∈ m.tree.vertices c ∧ m.tree.vertex? child ≠ some v)
    ∧ ∀ w' reply, (empty.run operations).step (.change number (.moveIn c v child))
        = (w', .ok reply) →
      ∃ nv m' cv, reply = .moved nv ∧ w'.members[number]? = some m'
        ∧ m.tree.vertex? child = some cv ∧ m.tree.MovesIn m'.tree c v child cv nv := by
  have hordered := ordered_empty.run h
  have hmem := List.mem_of_getElem? hm
  have ho := hordered.trees m hmem _ (List.getElem?_eq_getElem (hordered.sound.sources m hmem))
  constructor
  · rw [hordered.sound.step_moving_iff hm (x := m.tree.moveIn c v child) (fun _ => rfl)]
    exact ho.moveIn_iff
  · intro w' reply hstep
    obtain ⟨r, m', hr, rfl, hm', heq⟩ := hordered.sound.of_step_moving hm
      (x := m.tree.moveIn c v child) (fun _ => rfl) hstep
    obtain ⟨cv, hcv, hmoves⟩ := ho.movesIn hr
    exact ⟨r.2, m', cv, rfl, hm', hcv, heq ▸ hmoves⟩

/-- A vertex that stands for a cluster goes in.  From inside that cluster an edge
    runs to a neighbour, which has one to the child already, and two run to two
    vertices of the child. -/
theorem movesIn_subcluster :
    let operations := [Operation.newGraph (.declared []) .fresh,
      .change 0 (.addCluster Tree.rootId), .change 0 (.addCluster Tree.rootId),
      .change 0 (.addVertex Tree.rootId), .change 0 (.addVertex ⟨1⟩), .change 0 (.addVertex ⟨1⟩),
      .change 0 (.addVertex ⟨2⟩), .change 0 (.connect Tree.rootId ⟨16⟩ ⟨13⟩),
      .change 0 (.connect Tree.rootId ⟨14⟩ ⟨13⟩), .change 0 (.connect Tree.rootId ⟨16⟩ ⟨14⟩),
      .change 0 (.connect Tree.rootId ⟨15⟩ ⟨16⟩)]
    let w := empty.run operations
    let command := Command.moveIn Tree.rootId ⟨1, 0⟩ ⟨1⟩
    empty.WellBehaved operations
      ∧ ∃ m m', w.members[0]? = some m ∧ (w.step (.change 0 command)).1.members[0]? = some m'
        ∧ m.tree.carried Tree.rootId ⟨2, 0⟩ = [⟨⟨16⟩, ⟨14⟩, 19⟩, ⟨⟨15⟩, ⟨16⟩, 20⟩]
        ∧ m'.tree.carried Tree.rootId ⟨1, 0⟩ = [⟨⟨14⟩, ⟨13⟩, 18⟩, ⟨⟨16⟩, ⟨13⟩, 17⟩]
        ∧ m'.tree.carried ⟨1⟩ ⟨0, 0⟩ = [⟨⟨16⟩, ⟨14⟩, 19⟩]
        ∧ m'.tree.carried ⟨1⟩ ⟨1, 0⟩ = [⟨⟨15⟩, ⟨16⟩, 20⟩]
        ∧ m.tree.MovesIn m'.tree Tree.rootId ⟨1, 0⟩ ⟨1⟩ ⟨0, 0⟩ ⟨2, 0⟩ := by
  intro operations w command
  have hwell : empty.WellBehaved operations := by decide +kernel
  have hm : ∃ m ∈ w.members[0]?, m.tree.vertex? ⟨1⟩ = some ⟨0, 0⟩
      ∧ m.tree.carried Tree.rootId ⟨2, 0⟩ = [⟨⟨16⟩, ⟨14⟩, 19⟩, ⟨⟨15⟩, ⟨16⟩, 20⟩] := by
    decide +kernel
  have hm' : ∃ m' ∈ (w.step (.change 0 command)).1.members[0]?,
      m'.tree.carried Tree.rootId ⟨1, 0⟩ = [⟨⟨14⟩, ⟨13⟩, 18⟩, ⟨⟨16⟩, ⟨13⟩, 17⟩]
        ∧ m'.tree.carried ⟨1⟩ ⟨0, 0⟩ = [⟨⟨16⟩, ⟨14⟩, 19⟩]
        ∧ m'.tree.carried ⟨1⟩ ⟨1, 0⟩ = [⟨⟨15⟩, ⟨16⟩, 20⟩] := by
    decide +kernel
  have hreply : (w.step (.change 0 command)).2 = .ok (.moved ⟨2, 0⟩) := by decide +kernel
  obtain ⟨m, hm, hplace, hbefore⟩ := hm
  obtain ⟨m', hm', hneighbour, hfirst, hsecond⟩ := hm'
  have hstep := eq_of_answer hreply
  obtain ⟨nv, k, cv, heq, hk, hcv, hmoves⟩ :=
    (movesIn_run hwell hm Tree.rootId ⟨1, 0⟩ ⟨1⟩).2 _ _ hstep
  obtain rfl := Reply.moved.inj heq
  obtain rfl : m' = k := Option.mem_unique hm' hk
  obtain rfl := Option.some.inj (hplace.symm.trans hcv)
  exact ⟨hwell, m, m', hm, hm', hbefore, hneighbour, hfirst, hsecond, hmoves⟩

end Workspace

end NestedGraph
