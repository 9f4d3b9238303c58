import NestedGraph.Proofs.RoundTrip
import NestedGraph.Proofs.Whereabouts

/-! # Edge values — properties of edges on the way in and out

    Properties belong to the edges of a cluster, not to the global edges
    that these carry.  So where a move puts a global edge onto an edge that
    is there already, it reads the values of that edge from then on, and it
    keeps them when a later move gives it an edge of its own. -/

namespace NestedGraph

/-! ## Values between two vertices -/

namespace Storage

variable {s : Storage} {z : Sym2 LocalVertex} {values : List Value} {v : LocalVertex}

/-- There is an edge with these ends, and its properties have these values. -/
def Valued (s : Storage) (z : Sym2 LocalVertex) (values : List Value) : Prop :=
  ∃ e l, s.link? e = some l ∧ l.ends = z ∧ l.record.properties = values

/-- Between two vertices there is one edge. -/
theorem Sound.valued_unique (hs : s.Sound) {other : List Value} (h : s.Valued z values)
    (h' : s.Valued z other) : values = other := by
  obtain ⟨e, l, hl, hz, rfl⟩ := h
  obtain ⟨k, m, hm, hz', rfl⟩ := h'
  obtain rfl := hs.single e l k m hl hm (hz.trans hz'.symm)
  obtain rfl : l = m := Option.some.inj (hl.symm.trans hm)
  rfl

/-- What is carried is carried by an edge that has values. -/
theorem exists_valued {x : CarriedEdge} (h : (z, x) ∈ s.load) : ∃ values, s.Valued z values := by
  obtain ⟨e, l, hl, hz, -⟩ := mem_load.mp h
  exact ⟨_, e, l, hl, hz.symm, rfl⟩

/-- No edge ends at a vertex that is not there. -/
theorem Sound.notMem_of_valued (hs : s.Sound) (hv : s.vertex? v = none) (h : s.Valued z values) :
    v ∉ z := by
  obtain ⟨e, l, hl, rfl, -⟩ := h
  intro hmem
  obtain ⟨r, hr⟩ := hasVertex_iff.mp (hs.hasVertex_of_ends hl hmem)
  rw [hv] at hr
  exact nomatch hr

/-! ### After a change -/

/-- The edges that stay after a vertex went have the values that they had. -/
theorem valued_removeVertex (hs : s.Listed) :
    (s.removeVertex v).Valued z values ↔ s.Valued z values ∧ v ∉ z := by
  constructor
  · rintro ⟨e, l, hl, rfl, rfl⟩
    rw [link?_removeVertex] at hl
    split at hl
    · exact nomatch hl
    · rename_i hout
      exact ⟨⟨e, l, hl, rfl, rfl⟩, fun hv => hout ((mem_incident hs).mpr ⟨l, hl, hv⟩)⟩
  · rintro ⟨⟨e, l, hl, rfl, rfl⟩, hv⟩
    refine ⟨e, l, ?_, rfl, rfl⟩
    rw [link?_removeVertex, if_neg]
    · exact hl
    · intro hin
      obtain ⟨m, hm, hmem⟩ := (mem_incident hs).mp hin
      obtain rfl : l = m := Option.some.inj (hl.symm.trans hm)
      exact hv hmem

/-- What is left of an edge has the values of the edge. -/
theorem of_valued_withdrawAt (hs : s.Sound) {p : GlobalEdge → Bool}
    (h : (s.withdrawAt p v).Valued z values) : s.Valued z values := by
  obtain ⟨e, l', hl', rfl, rfl⟩ := h
  rw [link?_withdrawAt hs] at hl'
  split at hl'
  · obtain ⟨l, hl, hrest⟩ := Option.bind_eq_some_iff.mp hl'
    rw [Link.rest?] at hrest
    split at hrest
    · obtain rfl := Option.some.inj hrest
      exact ⟨e, l, hl, rfl, rfl⟩
    · split at hrest
      · cases hrest
      · obtain rfl := Option.some.inj hrest
        exact ⟨e, l, hl, rfl, rfl⟩
  · exact ⟨e, l', hl', rfl, rfl⟩

/-- An edge keeps its values when more is put onto it, and only a new edge
    has those that came along. -/
theorem valued_attach (hs : s.Listed) (l : Link) :
    (s.attach l.first l.second l.record.properties l.record.carried).Valued z values
      ↔ s.Valued z values
        ∨ (∀ old, ¬ s.Valued z old) ∧ l.ends = z ∧ l.record.properties = values := by
  rw [attach]
  split
  · rename_i e he
    obtain ⟨m, hm, hends⟩ := edgeBetween?_of_some hs he
    have hnew : ¬ ((∀ old, ¬ s.Valued z old) ∧ l.ends = z ∧ l.record.properties = values) := by
      rintro ⟨hnone, rfl, -⟩
      exact hnone _ ⟨e, m, hm, hends, rfl⟩
    rw [or_iff_left hnew]
    -- Only the list of what the edge carries is another.
    have hlink : ∀ k, (s.modifyEdge e (fun record =>
        { record with carried := record.carried ++ l.record.carried })).link? k
        = (s.link? k).map (fun m => if k = e then { m with record :=
            { m.record with carried := m.record.carried ++ l.record.carried } } else m) := by
      intro k
      rw [link?_modifyEdge]
      by_cases hk : k = e
      · rw [if_pos hk, hk]
        simp
      · simp [hk]
    constructor
    · rintro ⟨k, m', hm', rfl, rfl⟩
      rw [hlink] at hm'
      obtain ⟨m, hm, rfl⟩ := Option.map_eq_some_iff.mp hm'
      refine ⟨k, m, hm, ?_, ?_⟩ <;> split <;> rfl
    · rintro ⟨k, m, hm, rfl, rfl⟩
      refine ⟨k, _, (hlink k).trans (congrArg _ hm), ?_, ?_⟩ <;> dsimp only <;> split <;> rfl
  · rename_i hnone
    have hno : ∀ old, ¬ s.Valued l.ends old := by
      rintro old ⟨e, m, hm, hends, -⟩
      exact edgeBetween?_of_none hs hnone hm hends
    have hfresh : s.link? s.edges.nextHandle = none := SlotStore.get?_nextHandle hs.tidy
    constructor
    · rintro ⟨e, m, hm, rfl, rfl⟩
      rw [link?_addEdge hs] at hm
      split at hm
      · obtain rfl := Option.some.inj hm
        exact Or.inr ⟨hno, rfl, rfl⟩
      · exact Or.inl ⟨e, m, hm, rfl, rfl⟩
    · rintro (⟨e, m, hm, rfl, rfl⟩ | ⟨-, rfl, rfl⟩)
      · refine ⟨e, m, ?_, rfl, rfl⟩
        rw [link?_addEdge hs, if_neg]
        · exact hm
        · rintro rfl
          rw [hfresh] at hm
          exact nomatch hm
      · exact ⟨_, _, (link?_addEdge hs ..).trans (if_pos rfl), rfl, rfl⟩

/-- Of several records put onto one pair of vertices, the first decides, and
    none does where there is an edge. -/
theorem of_valued_attachLinks {links : List Link} (hs : s.Listed)
    (h : (s.attachLinks links).Valued z values) :
    s.Valued z values
      ∨ (∀ old, ¬ s.Valued z old) ∧ ∃ l ∈ links, l.ends = z ∧ l.record.properties = values := by
  induction links generalizing s with
  | nil => exact Or.inl h
  | cons l rest ih =>
      rcases ih (hs.attach ..) h with h | ⟨hnone, m, hm, hends⟩
      · rcases (valued_attach hs l).mp h with h | ⟨hno, hends⟩
        · exact Or.inl h
        · exact Or.inr ⟨hno, l, List.mem_cons_self .., hends⟩
      · refine Or.inr ⟨fun old hold => ?_, m, List.mem_cons_of_mem _ hm, hends⟩
        exact hnone old ((valued_attach hs l).mpr (Or.inl hold))

/-- A record at a vertex has the values of its edge. -/
theorem valued_of_mem_recordsAt (hs : s.Sound) {w : LocalVertex} {r : EdgeRecord}
    (h : (w, r) ∈ s.recordsAt v) : s.Valued s(v, w) r.properties := by
  obtain ⟨e, l, hl, hends, rfl⟩ := mem_recordsAt hs h
  exact ⟨e, l, hl, hends, rfl⟩

end Storage

namespace Tree

variable {t : Tree} {count : UInt64} {b inner b1 inner1 : Branch} {v cv : LocalVertex}
  {record : VertexRecord} {routes : Routes} {z : Sym2 LocalVertex} {values : List Value}

/-! ## One move -/

/-- Where a vertex left inward, its edge to a neighbour gives its values to
    the edge between the child and the neighbour, if there was none. -/
theorem Inward.of_valued_lowered (hs : t.Sound) (h : t.Inward b inner v cv record)
    (hz : (b.lowered t.config v cv).storage.Valued z values) :
    b.cluster.storage.Valued z values ∧ v ∉ z
      ∨ (∀ old, ¬ b.cluster.storage.Valued z old)
        ∧ ∃ w, w ≠ cv ∧ z = s(cv, w) ∧ b.cluster.storage.Valued s(v, w) values := by
  have hb : b.cluster.storage.Sound := (hs.nodes _ (node_mem_of_find? h.around)).storage
  rw [Branch.lowered, Node.storage_mark] at hz
  rcases Storage.of_valued_attachLinks (hb.listed.removeVertex v) hz with hz | ⟨hnone, l, hl, rfl, rfl⟩
  · exact Or.inl ((Storage.valued_removeVertex hb.listed).mp hz)
  · obtain ⟨⟨w, r⟩, hmem, rfl⟩ := List.mem_map.mp hl
    obtain ⟨hmem, hw⟩ := List.mem_filter.mp hmem
    have hends : (⟨w, cv, r⟩ : Link).ends = s(cv, w) := Sym2.eq_swap
    refine Or.inr ⟨fun old hold => ?_, w, of_decide_eq_true hw, hends,
      Storage.valued_of_mem_recordsAt hb hmem⟩
    refine hnone old ((Storage.valued_removeVertex hb.listed).mpr ⟨hold, ?_⟩)
    rw [hends, Sym2.mem_iff, not_or]
    exact ⟨h.ne, (Storage.recordsAt_spec hb hmem).1⟩

/-- What came in with a vertex has the values of its edge to the child. -/
theorem Inward.of_valued_sunk (hs : t.Sound) (h : t.Inward b inner v cv record)
    (hz : (b.sunk t.config inner v cv routes record).storage.Valued z values) :
    inner.cluster.storage.Valued z values
      ∨ inner.nextVertex ∈ z ∧ b.cluster.storage.Valued s(v, cv) values := by
  have hb : b.cluster.storage.Sound := (hs.nodes _ (node_mem_of_find? h.around)).storage
  have hi : inner.cluster.storage.Sound := (hs.nodes _ (node_mem_of_find? h.within)).storage
  rw [Branch.sunk, Node.storage_mark] at hz
  rcases Storage.of_valued_attachLinks (hi.addVertex record).listed hz with hz | ⟨-, l, hl, rfl, rfl⟩
  · exact Or.inl hz
  · obtain ⟨r, hr, x, -, w, -, rfl⟩ := Branch.mem_incoming hl
    obtain ⟨⟨u, r⟩, hnear, rfl⟩ := List.mem_map.mp hr
    obtain ⟨hmem, hu⟩ := List.mem_filter.mp hnear
    have hedge : b.cluster.storage.Valued s(v, u) r.properties :=
      Storage.valued_of_mem_recordsAt hb hmem
    rw [show u = cv from of_decide_eq_true hu] at hedge
    exact Or.inr ⟨Sym2.mem_mk_left .., hedge⟩

/-- Where a vertex left outward, the other edges keep their values. -/
theorem Outward.of_valued_drained (hs : t.Sound) (h : t.Outward inner b cv v record)
    (hz : (inner.drained t.config v).storage.Valued z values) :
    inner.cluster.storage.Valued z values := by
  have hi : inner.cluster.storage.Sound := (hs.nodes _ (node_mem_of_find? h.within)).storage
  rw [Branch.drained, Node.storage_mark] at hz
  exact ((Storage.valued_removeVertex hi.listed).mp hz).1

/-- Where a vertex arrived from inside, an edge of it has the values of one
    that it had inside, or of one that ended at the child. -/
theorem Outward.of_valued_raised (hs : t.Sound) (h : t.Outward inner b cv v record)
    (hz : (b.raised t.config inner cv v record).storage.Valued z values) :
    b.cluster.storage.Valued z values
      ∨ z = s(b.nextVertex, cv) ∧ (∃ u, inner.cluster.storage.Valued s(v, u) values)
      ∨ ∃ w, z = s(b.nextVertex, w) ∧ b.cluster.storage.Valued s(cv, w) values := by
  have hb : b.cluster.storage.Sound := (hs.nodes _ (node_mem_of_find? h.around)).storage
  have hi : inner.cluster.storage.Sound := (hs.nodes _ (node_mem_of_find? h.within)).storage
  rw [Branch.raised, Node.storage_mark] at hz
  rcases Storage.of_valued_attachLinks ((hb.withdrawAt _ cv).addVertex record).listed hz with
    hz | ⟨-, l, hl, rfl, rfl⟩
  · exact Or.inl (Storage.of_valued_withdrawAt hb hz)
  rcases List.mem_append.mp hl with hl | hl
  · obtain ⟨⟨u, r⟩, hmem, rfl⟩ := List.mem_map.mp hl
    exact Or.inr (Or.inl ⟨rfl, u, Storage.valued_of_mem_recordsAt hi hmem⟩)
  · obtain ⟨r, hmem, hfirst, hr, -⟩ := Branch.mem_lifted hl
    have hedge : b.cluster.storage.Valued s(cv, l.second) r.properties :=
      Storage.valued_of_mem_recordsAt hb hmem
    refine Or.inr (Or.inr ⟨l.second, congrArg (s(·, l.second)) hfirst, ?_⟩)
    rw [hr]
    exact hedge

/-! ## In and out again -/

/-- The edges of the child that stayed have the values that they had. -/
theorem Inward.of_valued_drained_back (hs : t.Sound) (h : t.Inward b inner v cv record)
    (hs1 : (t.lower v cv routes b inner).Sound)
    (h' : (t.lower v cv routes b inner).Outward inner1 b1 cv inner.nextVertex record)
    (hi1 : inner1.node = b.sunk t.config inner v cv routes record) {new : List Value}
    (hz : inner.cluster.storage.Valued z values)
    (hnew : (inner1.drained (t.lower v cv routes b inner).config inner.nextVertex).storage.Valued z
      new) : new = values := by
  have hi : inner.cluster.storage.Sound := (hs.nodes _ (node_mem_of_find? h.within)).storage
  have hsunk : (b.sunk t.config inner v cv routes record).storage.Valued z new := by
    rw [← hi1]
    exact h'.of_valued_drained hs1 hnew
  rcases h.of_valued_sunk hs hsunk with hold | ⟨hmem, -⟩
  · exact hi.valued_unique hold hz
  · exact absurd hmem (hi.notMem_of_valued (h.handover hs routes).fresh hz)

section Around

variable (hs : t.Sound) (h : t.Inward b inner v cv record)
  (hs1 : (t.lower v cv routes b inner).Sound)
  (h' : (t.lower v cv routes b inner).Outward inner1 b1 cv inner.nextVertex record)
  (hb1 : b1.node = b.lowered t.config v cv)
  (hi1 : inner1.node = b.sunk t.config inner v cv routes record)
include hs h hs1 h' hb1 hi1

/-- In the cluster around, an edge of the vertex that is back has the values
    of the edge between the child and the same neighbour, and its own only
    if there was none. -/
theorem Inward.of_valued_raised
    (hz : (b1.raised (t.lower v cv routes b inner).config inner1 cv inner.nextVertex
      record).storage.Valued z values) :
    b1.nextVertex ∉ z ∧ (b.cluster.storage.Valued z values ∨ ∀ old, ¬ b.cluster.storage.Valued z old)
      ∨ ∃ w, z = s(b1.nextVertex, w) ∧ (b.cluster.storage.Valued s(cv, w) values
        ∨ (∀ old, ¬ b.cluster.storage.Valued s(cv, w) old)
          ∧ b.cluster.storage.Valued s(v, w) values) := by
  have hb : b.cluster.storage.Sound := (hs.nodes _ (node_mem_of_find? h.around)).storage
  have hi : inner.cluster.storage.Sound := (hs.nodes _ (node_mem_of_find? h.within)).storage
  have hb1' : b1.cluster.storage.Sound := (hs1.nodes _ (node_mem_of_find? h'.around)).storage
  have hlowered : b1.cluster.storage = (b.lowered t.config v cv).storage := congrArg Node.storage hb1
  have hsunk : inner1.cluster.storage = (b.sunk t.config inner v cv routes record).storage :=
    congrArg Node.storage hi1
  rcases h'.of_valued_raised hs1 hz with hold | ⟨rfl, u, hu⟩ | ⟨w, rfl, hw⟩
  · -- It was there before the vertex came back.
    refine Or.inl ⟨hb1'.notMem_of_valued (h'.handover hs1).fresh hold, ?_⟩
    rcases h.of_valued_lowered hs (hlowered ▸ hold) with ⟨hold, -⟩ | ⟨hnone, -⟩
    · exact Or.inl hold
    · exact Or.inr hnone
  · -- It came out of the child, where all edges of the vertex had the same values.
    refine Or.inr ⟨cv, rfl, Or.inr ⟨?_, ?_⟩⟩
    · rintro old ⟨e, l, hl, hends, -⟩
      exact hb.ends_ne hl hends rfl
    · rcases h.of_valued_sunk hs (hsunk ▸ hu) with hold | ⟨-, hedge⟩
      · exact absurd (Sym2.mem_mk_left ..) (hi.notMem_of_valued (h.handover hs routes).fresh hold)
      · exact hedge
  · -- It came off the edge between the child and a neighbour.
    refine Or.inr ⟨w, rfl, ?_⟩
    rcases h.of_valued_lowered hs (hlowered ▸ hw) with ⟨hold, -⟩ | ⟨hnone, u, -, heq, hedge⟩
    · exact Or.inl hold
    · obtain rfl : w = u := Sym2.congr_right.mp heq
      exact Or.inr ⟨hnone, hedge⟩

/-- In the cluster around, an edge has the values that it had, unless it was
    one of the vertex to a neighbour to which the child had one too. -/
theorem Inward.of_valued_raised_back {new : List Value} (hz : b.cluster.storage.Valued z values)
    (hnew : (b1.raised (t.lower v cv routes b inner).config inner1 cv inner.nextVertex
      record).storage.Valued (z.map (redirect v b1.nextVertex)) new) :
    (new = values ∧ ∀ w old, z = s(v, w) → ¬ b.cluster.storage.Valued s(cv, w) old)
      ∨ ∃ w, z = s(v, w) ∧ b.cluster.storage.Valued s(cv, w) new := by
  have hb : b.cluster.storage.Sound := (hs.nodes _ (node_mem_of_find? h.around)).storage
  have hraised := h.of_valued_raised hs hs1 h' hb1 hi1 hnew
  obtain ⟨e, l, hl, hends, -⟩ := id hz
  by_cases hv : v ∈ z
  · obtain ⟨u, rfl⟩ := Sym2.mem_iff_exists.mp hv
    rw [Sym2.map_mk, redirect_self, redirect_of_ne b1.nextVertex (hb.ends_ne hl hends).symm] at hraised
    rcases hraised with ⟨hout, -⟩ | ⟨w, heq, hw⟩
    · exact absurd (Sym2.mem_mk_left ..) hout
    · obtain rfl : u = w := Sym2.congr_right.mp heq
      rcases hw with hw | ⟨hnone, hw⟩
      · exact Or.inr ⟨u, rfl, hw⟩
      · refine Or.inl ⟨hb.valued_unique hw hz, fun w old heq => ?_⟩
        obtain rfl : u = w := Sym2.congr_right.mp heq
        exact hnone old
  · rw [map_redirect_of_notMem b1.nextVertex hv] at hraised
    refine Or.inl ⟨?_, fun w old heq => absurd (heq ▸ Sym2.mem_mk_left ..) hv⟩
    rcases hraised with ⟨-, hold | hnone⟩ | ⟨w, heq, -⟩
    · exact hb.valued_unique hold hz
    · exact absurd hz (hnone values)
    · -- The vertex is back under a handle that was nobody's.
      have hmem : b1.nextVertex ∈ z := heq ▸ Sym2.mem_mk_left ..
      have hover' := h'.handover hs1
      rw [hb1, hi1] at hover'
      exact absurd rfl ((h.handover hs routes).ne_of_hasVertex hover'
        (hb.hasVertex_of_ends hl (hends ▸ hmem)) (ne_of_mem_of_not_mem hmem hv))

end Around

/-- After both moves every edge has the values that it had, apart from those
    of the moving vertex to a neighbour to which the child had one too: they
    have the values of the edge of the child. -/
theorem Orderly.of_valued_back (ho : t.Orderly count) (h : t.Inward b inner v cv record)
    {t1 t2 : Tree} {nv v' : LocalVertex}
    (hin : t.moveIn b.cluster.id v inner.cluster.id = .ok (t1, nv))
    (hout : t1.moveOut inner.cluster.id nv = .ok (t2, v')) {n n' : Node} (hn : n ∈ t.nodes)
    (hn' : n' ∈ t2.nodes) (hid : n'.id = n.id) {new : List Value}
    (hz : n.storage.Valued z values)
    (hnew : n'.storage.Valued (z.map (renamed b.cluster.id v v' n.id)) new) :
    (new = values ∧ ∀ w old, n.id = b.cluster.id → z = s(v, w) → ¬ n.storage.Valued s(cv, w) old)
      ∨ ∃ w, n.id = b.cluster.id ∧ z = s(v, w) ∧ n.storage.Valued s(cv, w) new := by
  obtain ⟨routes, hroutes, heq⟩ := h.moveIn_eq ho
  obtain ⟨rfl, rfl⟩ := Prod.mk.inj (Except.ok.inj (hin.symm.trans heq))
  have ho1 := ho.lower h hroutes
  obtain ⟨b1, inner1, h', hb1, hi1⟩ := h.outward ho.sound ho1.sound
  have hover := h.handover ho.sound routes
  have hover' := h'.handover ho1.sound
  have heq' := h'.moveOut_eq ho1.sound
  rw [show inner1.cluster.id = inner.cluster.id from (congrArg Node.id hi1).trans hover.takerId] at heq'
  obtain ⟨rfl, rfl⟩ := Prod.mk.inj (Except.ok.inj (hout.symm.trans heq'))
  have hd := ho.sound.distinct
  have hd2 := (ho1.raise h').sound.distinct
  have hid1 : b1.node.id = b.node.id := (congrArg Node.id hb1).trans hover.giverId
  have hid2 : inner1.node.id = inner.node.id := (congrArg Node.id hi1).trans hover.takerId
  -- The two moves touch the storages of the cluster and of its child only, and
  -- only in the first of them has the vertex a new handle at the end.
  by_cases hb : n.id = b.node.id
  · obtain rfl := hd.eq_of_id hn hover.giver_mem.1 hb
    obtain rfl := hd2.eq_of_id hn' hover'.taker_mem.2 (hid.trans (hid1.symm.trans hover'.takerId.symm))
    rw [show renamed b.cluster.id v b1.nextVertex b.node.id = redirect v b1.nextVertex from
      renamed_self ..] at hnew
    rcases h.of_valued_raised_back ho.sound ho1.sound h' hb1 hi1 hz hnew with ⟨heq, hnone⟩ | ⟨w, hw⟩
    · exact Or.inl ⟨heq, fun w old _ hzw => hnone w old hzw⟩
    · exact Or.inr ⟨w, rfl, hw⟩
  · refine Or.inl ⟨?_, fun w old heq => absurd heq hb⟩
    rw [show renamed b.cluster.id v b1.nextVertex n.id = (fun u => u) from
      renamed_of_ne v b1.nextVertex hb, Sym2.map_id'] at hnew
    by_cases hi : n.id = inner.node.id
    · obtain rfl := hd.eq_of_id hn hover.taker_mem.1 hi
      obtain rfl := hd2.eq_of_id hn' hover'.giver_mem.2
        (hid.trans (hid2.symm.trans hover'.giverId.symm))
      exact h.of_valued_drained_back ho.sound ho1.sound h' hi1 hz hnew
    · rw [hb1, hi1] at hover'
      have hmem := hover.mem_back hover' hn hb hi
      obtain rfl := hd2.eq_of_id hn' hmem hid
      exact (ho.sound.nodes n' hn).storage.valued_unique hnew hz

/-! ## Reading -/

/-- A global edge reads the values of the edge that carries it. -/
theorem Orderly.property_globalEdge (ho : t.Orderly count) {n : Node} (hn : n ∈ t.nodes)
    {x : CarriedEdge} (hx : (z, x) ∈ n.storage.load) (hz : n.storage.Valued z values)
    (type : AttributeType) :
    t.property type t.root (.globalEdge x.global) = t.config.edge.read type values := by
  obtain ⟨e, l, hl, rfl, hcarried⟩ := Storage.mem_load.mp hx
  obtain rfl := (ho.sound.nodes n hn).storage.valued_unique ⟨e, l, hl, rfl, rfl⟩ hz
  have hd := ho.sound.distinct
  have hlive : n.id ∈ t.ids := Multiset.mem_map_of_mem Node.id hn
  have howner : t.edgeOwner? t.root x.global = some (n.id, e) := by
    refine ho.edgeOwner?_eq_some.mpr ⟨t.root_mem_ids, ?_, x.global, ?_, rfl⟩
    · exact (hd.isAncestor_iff hlive).mpr (hd.reachable hlive)
    · rw [hd.carried_of_mem hn]
      exact Storage.mem_carried.mpr ⟨l, hl, List.mem_map_of_mem hcarried⟩
  obtain ⟨b, hb, howner⟩ := Option.bind_eq_some_iff.mp howner
  have hresolve : t.resolve t.root (.globalEdge x.global) = .ok (.edge n.id e (some x.global)) := by
    rw [resolve, require_of_find? hb, ok_bind, howner]
    rfl
  obtain ⟨d, hfind, rfl⟩ := hd.find?_of_mem hn
  have hrecord : t.edgeRecord d.node.id e = .ok l.record := edgeRecord_of_find? hfind hl
  rw [property, hresolve, ok_bind]
  dsimp only
  rw [hrecord, ok_bind]

/-- An edge of a cluster reads its values. -/
theorem Sound.property_localEdge (hs : t.Sound) {n : Node} (hn : n ∈ t.nodes) {e : LocalEdge}
    {l : Link} (hl : n.storage.link? e = some l) (type : AttributeType) :
    t.property type n.id (.localEdge e) = t.config.edge.read type l.record.properties := by
  obtain ⟨d, hfind, rfl⟩ := hs.distinct.find?_of_mem hn
  have hlive : d.cluster.storage.hasEdge e = true := SlotStore.contains_iff.mpr ⟨l, hl⟩
  have hresolve : t.resolve d.node.id (.localEdge e) = .ok (.edge d.node.id e none) := by
    rw [resolve, requireEdge, require_of_find? hfind, ok_bind, if_pos hlive]
    rfl
  have hrecord : t.edgeRecord d.node.id e = .ok l.record := edgeRecord_of_find? hfind hl
  rw [property, hresolve, ok_bind]
  dsimp only
  rw [hrecord, ok_bind]

/-! ## Reading after a round trip -/

/-- The vertex and the child have an edge each to one neighbour.  So when the
    vertex moves into the child, what its edge `e` carries comes onto edge
    `e'` of the child. -/
def Merges (t : Tree) (c : ClusterId) (v place : LocalVertex) (e e' : LocalEdge) : Prop :=
  ∃ w, t.edgeBetween? c v w = some e ∧ t.edgeBetween? c place w = some e'

/-- A global edge on edge `e` of cluster `d` reads in the second tree what it
    read in the first; but if its edge merged with another one, it reads
    what that one read. -/
structure ReadsAlike (t t' : Tree) (c : ClusterId) (v place : LocalVertex) (d : ClusterId)
    (e : LocalEdge) (g : GlobalEdge) (type : AttributeType) : Prop where
  registered : type ∈ t.config.edge.types →
    ∃ value, t'.property type t'.root (.globalEdge g) = .ok value
  kept : (∀ e', d = c → ¬ t.Merges c v place e e') →
    t'.property type t'.root (.globalEdge g) = t.property type t.root (.globalEdge g)
  merged : ∀ e', d = c → t.Merges c v place e e' →
    t'.property type t'.root (.globalEdge g) = t.property type c (.localEdge e')

theorem Orderly.readsAlike (ho : t.Orderly count) (h : t.Inward b inner v cv record)
    {t1 t2 : Tree} {nv v' : LocalVertex}
    (hin : t.moveIn b.cluster.id v inner.cluster.id = .ok (t1, nv))
    (hout : t1.moveOut inner.cluster.id nv = .ok (t2, v')) (ho2 : t2.Orderly count)
    (halike : t.Alike t2 (renamed b.cluster.id v v')) {d : ClusterId} {e : LocalEdge}
    {g : GlobalEdge} (hg : g ∈ t.carried d e) (type : AttributeType) :
    t.ReadsAlike t2 b.cluster.id v cv d e g type := by
  obtain ⟨n, hn, rfl, hcarried⟩ := exists_node_of_carried hg
  obtain ⟨l, hl, hcarried⟩ := Storage.mem_carried.mp hcarried
  obtain ⟨x, hx, rfl⟩ := List.mem_map.mp hcarried
  have hs : n.storage.Sound := (ho.sound.nodes n hn).storage
  have hload : (l.ends, x) ∈ n.storage.load := Storage.mem_load.mpr ⟨e, l, hl, rfl, hx⟩
  have hz : n.storage.Valued l.ends l.record.properties := ⟨e, l, hl, rfl, rfl⟩
  -- Where the global edge is now, and what its edge has there.
  obtain ⟨n', hn', hsame⟩ := halike.nodes n hn
  have hload' : (l.ends.map (renamed b.cluster.id v v' n.id), x) ∈ n'.storage.load := by
    rw [hsame.load]
    exact Multiset.mem_map.mpr ⟨_, hload, rfl⟩
  obtain ⟨new, hnew⟩ := Storage.exists_valued hload'
  have hconfig : t2.config = t.config :=
    ((ho.sound.moveIn hin).becomes_moveOut hout).config.trans (ho.sound.becomes_moveIn hin).config
  have hread := ho2.property_globalEdge hn' hload' hnew type
  rw [hconfig] at hread
  have hback := ho.of_valued_back h hin hout hn hn' hsame.id hz hnew
  have hends : ∀ {a w k}, t.edgeBetween? n.id a w = some k →
      ∃ m, n.storage.link? k = some m ∧ m.ends = s(a, w) := by
    intro a w k hk
    rw [ho.sound.distinct.edgeBetween?_of_mem hn] at hk
    exact hs.edgeBetween?_eq_some.mp hk
  refine ⟨fun hmem => ?_, fun hnone => ?_, fun e' hc hmerges => ?_⟩
  · obtain ⟨k, m, hm, -, rfl⟩ := hnew
    rw [hread]
    have hfits := (ho2.sound.nodes n' hn').fits.edge k m hm
    exact (hconfig ▸ hfits.1).read_eq_ok hmem
  · rw [hread, ho.property_globalEdge hn hload hz]
    rcases hback with ⟨rfl, -⟩ | ⟨w, hc, hzw, k, m, hm, hmw, -⟩
    · rfl
    · refine absurd ⟨w, ?_, ?_⟩ (hnone k hc)
      · rw [← hc, ho.sound.distinct.edgeBetween?_of_mem hn]
        exact hs.edgeBetween?_eq_some.mpr ⟨l, hl, hzw⟩
      · rw [← hc, ho.sound.distinct.edgeBetween?_of_mem hn]
        exact hs.edgeBetween?_eq_some.mpr ⟨m, hm, hmw⟩
  · obtain ⟨w, hvw, hcvw⟩ := hmerges
    rw [← hc] at hvw hcvw ⊢
    obtain ⟨l', hl', hvw⟩ := hends hvw
    obtain rfl : l = l' := Option.some.inj (hl.symm.trans hl')
    obtain ⟨m, hm, hcvw⟩ := hends hcvw
    rw [hread, ho.sound.property_localEdge hn hm]
    rcases hback with ⟨-, hnone⟩ | ⟨u, -, hvu, hold⟩
    · exact absurd ⟨e', m, hm, hcvw, rfl⟩ (hnone w m.record.properties hc hvw)
    · obtain rfl : w = u := Sym2.congr_right.mp (hvw.symm.trans hvu)
      rw [hs.valued_unique hold ⟨e', m, hm, hcvw, rfl⟩]

end Tree

namespace Workspace

/-- **EDGES THAT MERGE**: whatever well-behaved callers did, after a vertex
    moved into a child and out again every global edge reads the values that
    it read before, with one exception.  Where the vertex and the child had
    an edge each to one neighbour, what the edge of the vertex carried reads
    the values of the edge of the child. -/
theorem edgeValues_run {operations : List Operation} (h : empty.WellBehaved operations)
    {number : Nat} {m : Member} (hm : (empty.run operations).members[number]? = some m)
    {c child : ClusterId} {v place : LocalVertex} (hv : v ∈ m.tree.vertices c)
    (hchild : (place, child) ∈ m.tree.children c) (hne : v ≠ place) :
    ∃ w1 nv w2 v' m',
      (empty.run operations).step (.change number (.moveIn c v child)) = (w1, .ok (.moved nv))
      ∧ w1.step (.change number (.moveOut child nv)) = (w2, .ok (.moved v'))
      ∧ w2.members[number]? = some m'
      ∧ ∀ d e g, g ∈ m.tree.carried d e → ∀ type,
        m.tree.ReadsAlike m'.tree c v place d e g type := by
  have hordered := ordered_empty.run h
  have hmem := List.mem_of_getElem? hm
  have ho := hordered.trees m hmem _ (List.getElem?_eq_getElem (hordered.sound.sources m hmem))
  obtain ⟨b, inner, record, hin, rfl, rfl⟩ := ho.sound.inward hv hchild hne
  obtain ⟨t1, nv, t2, v', hfirst, hsecond, ho2, halike⟩ := ho.moveIn_moveOut hin
  obtain ⟨w1, w2, m', hstep, hstep', hm', rfl⟩ := step_moves hordered.sound hm
    (.moveIn b.cluster.id v inner.cluster.id) (.moveOut inner.cluster.id nv)
    (fun ids => congrArg (Functor.map (Graph.moving ⟨m.tree, ids⟩)) hfirst)
    (fun ids => congrArg (Functor.map (Graph.moving ⟨t1, ids⟩)) hsecond)
  refine ⟨w1, nv, w2, v', m', hstep, hstep', hm', fun d e g hg type => ?_⟩
  exact ho.readsAlike hin hfirst hsecond ho2 halike hg type

/-- The weight of an edge. -/
def sharedWeight : AttributeType := ⟨"weight", .integer 0, 0⟩

/-- A vertex of the root, and one inside a child of the root, have an edge
    each to one neighbour.  The first edge weighs 1, the second 2. -/
def sharedNeighbour : List Operation :=
  [.newGraph (.declared [.edge sharedWeight]) .fresh, .change 0 (.addCluster Tree.rootId),
    .change 0 (.addVertex Tree.rootId), .change 0 (.addVertex Tree.rootId),
    .change 0 (.addVertex ⟨1⟩), .change 0 (.connect Tree.rootId ⟨12⟩ ⟨13⟩),
    .change 0 (.connect Tree.rootId ⟨13⟩ ⟨14⟩),
    .change 0 (.setProperty sharedWeight Tree.rootId (.globalEdge ⟨⟨12⟩, ⟨13⟩, 15⟩) (.integer 1)),
    .change 0 (.setProperty sharedWeight Tree.rootId (.globalEdge ⟨⟨13⟩, ⟨14⟩, 16⟩) (.integer 2))]

/-- The vertex goes in and comes out, and the first edge weighs 2. -/
theorem weight_sharedNeighbour :
    let moves := [Operation.change 0 (.moveIn Tree.rootId ⟨1, 0⟩ ⟨1⟩),
      .change 0 (.moveOut ⟨1⟩ ⟨1, 0⟩)]
    empty.WellBehaved sharedNeighbour
      ∧ (∃ m ∈ (empty.run sharedNeighbour).members[0]?, m.tree.property sharedWeight Tree.rootId
          (.globalEdge ⟨⟨12⟩, ⟨13⟩, 15⟩) = .ok (.integer 1))
      ∧ ∃ m ∈ (empty.run (sharedNeighbour ++ moves)).members[0]?,
        m.tree.property sharedWeight Tree.rootId (.globalEdge ⟨⟨12⟩, ⟨13⟩, 15⟩)
          = .ok (.integer 2) := by
  decide +kernel

/-- The first edge reads what the second reads. -/
theorem edgeValues_sharedNeighbour :
    empty.WellBehaved sharedNeighbour ∧ ∃ m, (empty.run sharedNeighbour).members[0]? = some m
      ∧ m.tree.Merges Tree.rootId ⟨1, 0⟩ ⟨0, 0⟩ ⟨0, 0⟩ ⟨1, 0⟩
      ∧ ∃ w1 nv w2 v' m',
        (empty.run sharedNeighbour).step (.change 0 (.moveIn Tree.rootId ⟨1, 0⟩ ⟨1⟩))
          = (w1, .ok (.moved nv))
        ∧ w1.step (.change 0 (.moveOut ⟨1⟩ nv)) = (w2, .ok (.moved v'))
        ∧ w2.members[0]? = some m'
        ∧ m'.tree.property sharedWeight m'.tree.root (.globalEdge ⟨⟨12⟩, ⟨13⟩, 15⟩)
          = m.tree.property sharedWeight Tree.rootId (.localEdge ⟨1, 0⟩) := by
  have h : empty.WellBehaved sharedNeighbour := by decide +kernel
  have hrun : ∃ m ∈ (empty.run sharedNeighbour).members[0]?,
      (⟨1, 0⟩ : LocalVertex) ∈ m.tree.vertices Tree.rootId
        ∧ (⟨0, 0⟩, ⟨1⟩) ∈ m.tree.children Tree.rootId
        ∧ ⟨⟨12⟩, ⟨13⟩, 15⟩ ∈ m.tree.carried Tree.rootId ⟨0, 0⟩
        ∧ m.tree.edgeBetween? Tree.rootId ⟨1, 0⟩ ⟨2, 0⟩ = some ⟨0, 0⟩
        ∧ m.tree.edgeBetween? Tree.rootId ⟨0, 0⟩ ⟨2, 0⟩ = some ⟨1, 0⟩ := by decide +kernel
  obtain ⟨m, hm, hv, hchild, hg, hfirst, hsecond⟩ := hrun
  have hmerges : m.tree.Merges Tree.rootId ⟨1, 0⟩ ⟨0, 0⟩ ⟨0, 0⟩ ⟨1, 0⟩ := ⟨_, hfirst, hsecond⟩
  obtain ⟨w1, nv, w2, v', m', hin, hout, hm', hreads⟩ := edgeValues_run h hm hv hchild (by decide)
  exact ⟨h, m, hm, hmerges, w1, nv, w2, v', m', hin, hout, hm',
    (hreads _ _ _ hg sharedWeight).merged _ rfl hmerges⟩

end Workspace

end NestedGraph
