import Mathlib.Tactic.Abel
import NestedGraph.Proofs.Upkeep
import NestedGraph.Proofs.Rehanging
import NestedGraph.Proofs.Relocation

/-! # Carriage — what becomes of edges in a move

    A move gives every edge of the vertex another end where it has to: an
    edge to a neighbour that stays behind ends at the vertex of the child,
    an edge that ended there because of the vertex ends at the vertex
    itself.  Each is carried once, and where its endpoints stand. -/

namespace NestedGraph

namespace Branch

theorem mem_entries_iff {b : Branch} (hkeys : (b.node.entries.map Prod.fst).Nodup) {v : LocalVertex}
    {c : ClusterId} :
    (v, c) ∈ b.node.entries ↔ ∃ d, b.inside.branchAt? v = some d ∧ c = d.cluster.id := by
  constructor
  · intro h
    obtain ⟨d, hd, rfl⟩ := Forest.branchAt?_of_mem_entries hkeys h
    exact ⟨d, hd, rfl⟩
  · rintro ⟨d, hd, rfl⟩
    exact Forest.mem_entries_of_branchAt? hd

/-- What hangs on the new vertex of a cluster is what hung on the old one. -/
theorem mem_entries_receive {b : Branch} (hkeys : (b.node.entries.map Prod.fst).Nodup)
    {v x : LocalVertex} {r : VertexRecord} {n : Node} {d : ClusterId} :
    (x, d) ∈ (n.receive r (b.inside.branchAt? v)).entries
      ↔ (x, d) ∈ n.entries ∨ (x = n.storage.vertices.nextHandle ∧ (v, d) ∈ b.node.entries) := by
  rw [Node.mem_entries_receive, mem_entries_iff hkeys]
  refine or_congr_right ?_
  constructor
  · rintro ⟨e, he, hx, hd⟩
    exact ⟨hx, e, he, hd⟩
  · rintro ⟨hx, e, he, hd⟩
    exact ⟨e, he, hx, hd⟩

end Branch

theorem Storage.Sound.ne_of_mem_load {s : Storage} (hs : s.Sound) {a a' : LocalVertex}
    {x : CarriedEdge} (h : (s(a, a'), x) ∈ s.load) : a ≠ a' := by
  obtain ⟨e, l, hl, hz, -⟩ := mem_load.mp h
  exact hs.ends_ne hl hz.symm

namespace Tree

variable {t : Tree} {count : UInt64} {b inner : Branch} {v cv : LocalVertex} {record : VertexRecord}
  {routes : Routes}

/-! ## Handovers -/

theorem Inward.handover (hs : t.Sound) (h : t.Inward b inner v cv record) (routes : Routes) :
    t.Handover (t.lower v cv routes b inner) b.node inner.node (b.lowered t.config v cv)
      (b.sunk t.config inner v cv routes record) v inner.nextVertex := by
  have hb := hs.nodes _ (node_mem_of_find? h.around)
  have hi := hs.nodes _ (node_mem_of_find? h.within)
  refine ⟨nodes_lower hs h routes, by simp [Branch.lowered], by simp [Branch.sunk],
    fun x d => Node.mem_entries_cut, fun x d => ?_, fun u => ?_, fun u => ?_, ⟨record, h.vertex⟩,
    SlotStore.get?_nextHandle hi.storage.vertices, hi.held⟩
  · exact Branch.mem_entries_receive (r := record) hb.keys
  · rw [Branch.lowered, Node.storage_mark, Node.storage_mapStorage, Storage.vertex?,
      Storage.vertices_attachLinks]
    exact Storage.vertex?_removeVertex ..
  · rw [Branch.sunk, Node.storage_mark, Node.storage_mapStorage, Storage.vertex?,
      Storage.vertices_attachLinks, show b.node.storage.vertex? v = some record from h.vertex]
    exact Storage.vertex?_addVertex hi.storage.vertices record u

theorem Outward.handover (hs : t.Sound) (h : t.Outward inner b cv v record) :
    t.Handover (t.raise cv v inner b) inner.node b.node (inner.drained t.config v)
      (b.raised t.config inner cv v record) v b.nextVertex := by
  have hb := hs.nodes _ (node_mem_of_find? h.around)
  have hi := hs.nodes _ (node_mem_of_find? h.within)
  obtain ⟨rest, hnodes, hnodes'⟩ := nodes_raise hs h
  refine ⟨⟨rest, hnodes.trans (Multiset.cons_swap ..), hnodes'.trans (Multiset.cons_swap ..)⟩,
    by simp [Branch.drained], by simp [Branch.raised],
    fun x d => Node.mem_entries_cut, fun x d => ?_, fun u => ?_, fun u => ?_, ⟨record, h.vertex⟩,
    SlotStore.get?_nextHandle hb.storage.vertices, hb.held⟩
  · show (x, d) ∈ ((b.node.mapStorage _).receive record _).entries ↔ _
    rw [Branch.mem_entries_receive hi.keys, Node.storage_mapStorage, Storage.vertices_withdrawAt]
    rfl
  · rw [Branch.drained, Node.storage_mark, Node.storage_cut]
    exact Storage.vertex?_removeVertex ..
  · rw [Branch.raised, Node.storage_mark, Node.storage_mapStorage, Storage.vertex?,
      Storage.vertices_attachLinks, show inner.node.storage.vertex? v = some record from h.vertex]
    have htidy : (b.cluster.storage.withdrawAt (GlobalEdge.touches (inner.travelling v)) cv).vertices
        = b.cluster.storage.vertices := Storage.vertices_withdrawAt ..
    have hadd := Storage.vertex?_addVertex (htidy ▸ hb.storage.vertices) record u
    rw [htidy, Storage.vertex?, Storage.vertex?, htidy] at hadd
    exact hadd

/-! ## Loads -/

theorem map_redirect_of_notMem {z : Sym2 LocalVertex} {x : LocalVertex} (y : LocalVertex)
    (h : x ∉ z) : z.map (redirect x y) = z := by
  refine (Sym2.map_congr (fun u hu => redirect_of_ne y ?_)).trans (congrFun Sym2.map_id' z)
  rintro rfl
  exact h hu

/-- Where a vertex left inward, its edges end at the vertex of the child. -/
theorem Inward.load_lowered (hs : t.Sound) (h : t.Inward b inner v cv record) :
    (b.lowered t.config v cv).storage.load
      = (b.cluster.storage.load.filter (fun entry => entry.1 ≠ s(v, cv))).map
          (fun entry => (entry.1.map (redirect v cv), entry.2)) := by
  have hb : b.cluster.storage.Sound := (hs.nodes _ (node_mem_of_find? h.around)).storage
  have hboth : ∀ z : Sym2 LocalVertex, v ∈ z ∧ cv ∈ z ↔ z = s(v, cv) :=
    fun z => Sym2.mem_and_mem_iff h.ne
  generalize hL : b.cluster.storage.load = L
  have hkept : (L.filter (fun entry => v ∉ entry.1)).map
      (fun entry => (entry.1.map (redirect v cv), entry.2)) = L.filter (fun entry => v ∉ entry.1) := by
    refine (Multiset.map_congr rfl (fun entry he => ?_)).trans (Multiset.map_id' _)
    rw [map_redirect_of_notMem cv (Multiset.mem_filter.mp he).2]
  have hsplit : L.filter (fun entry => entry.1 ≠ s(v, cv))
      = L.filter (fun entry => v ∈ entry.1 ∧ cv ∉ entry.1) + L.filter (fun entry => v ∉ entry.1) := by
    rw [← Multiset.filter_add_not (fun entry => v ∈ entry.1) (L.filter _), Multiset.filter_filter,
      Multiset.filter_filter]
    congr 1
    · refine Multiset.filter_congr (fun entry _ => ?_)
      rw [ne_eq, ← hboth]
      tauto
    · refine Multiset.filter_congr (fun entry _ => ?_)
      rw [ne_eq, ← hboth]
      tauto
  rw [hsplit, Multiset.map_add, hkept, ← hL, ← Branch.load_outward hb h.ne,
    ← Storage.load_removeVertex hb.listed, add_comm]
  rw [Branch.lowered, Node.storage_mark]
  exact Storage.load_attachLinks (hb.listed.removeVertex v) _

/-- Where a vertex arrived from outside, its edges to the child come in. -/
theorem Inward.load_sunk (hs : t.Sound) (h : t.Inward b inner v cv record)
    (hroutes : ∀ r ∈ b.inward v cv, ∀ x ∈ r.carried, ∃ w, routes.target? x.global = some w) :
    (b.sunk t.config inner v cv routes record).storage.load
      = inner.cluster.storage.load
        + ((b.cluster.storage.load.filter (fun entry => entry.1 = s(v, cv))).map Prod.snd).map
            (Branch.routed routes inner.nextVertex) := by
  have hb : b.cluster.storage.Sound := (hs.nodes _ (node_mem_of_find? h.around)).storage
  have hi : inner.cluster.storage.Sound := (hs.nodes _ (node_mem_of_find? h.within)).storage
  rw [← Branch.load_incoming hb h.ne hroutes, Branch.sunk, Node.storage_mark]
  exact Storage.load_attachLinks (hi.addVertex record).listed _

/-- Where a vertex left outward, its edges are gone. -/
theorem Outward.load_drained (hs : t.Sound) (h : t.Outward inner b cv v record) :
    (inner.drained t.config v).storage.load
      = inner.cluster.storage.load.filter (fun entry => v ∉ entry.1) := by
  have hi : inner.cluster.storage.Sound := (hs.nodes _ (node_mem_of_find? h.within)).storage
  rw [Branch.drained, Node.storage_mark]
  exact Storage.load_removeVertex hi.listed v

/-- Where a vertex arrived from inside, its edges come out to the vertex of
    the child, and those that were there because of it end at it. -/
theorem Outward.load_raised (hs : t.Sound) (h : t.Outward inner b cv v record) :
    (b.raised t.config inner cv v record).storage.load
      = b.cluster.storage.load.filter (fun entry =>
            ¬ (cv ∈ entry.1 ∧ entry.2.global.touches (inner.travelling v) = true))
        + ((inner.cluster.storage.load.filter (fun entry => v ∈ entry.1)).map
            (fun entry => (s(b.nextVertex, cv), entry.2))
          + (b.cluster.storage.load.filter (fun entry =>
              cv ∈ entry.1 ∧ entry.2.global.touches (inner.travelling v) = true)).map
            (fun entry => (entry.1.map (redirect cv b.nextVertex), entry.2))) := by
  have hb : b.cluster.storage.Sound := (hs.nodes _ (node_mem_of_find? h.around)).storage
  have hi : inner.cluster.storage.Sound := (hs.nodes _ (node_mem_of_find? h.within)).storage
  have hlisted : ((b.cluster.storage.withdrawAt (GlobalEdge.touches (inner.travelling v)) cv).addVertex
      record).Listed := ((hb.withdrawAt _ cv).addVertex record).listed
  have hattach := Storage.load_attachLinks hlisted
    (inner.left v b.nextVertex cv ++ b.lifted (inner.travelling v) b.nextVertex cv)
  rw [← Multiset.coe_add, Multiset.add_bind, Branch.load_left hi,
    Branch.load_lifted hb] at hattach
  rw [← Storage.load_withdrawAt hb, Branch.raised, Node.storage_mark]
  exact hattach

/-- A move inward keeps all edges. -/
theorem Inward.carries (hs : t.Sound) (h : t.Inward b inner v cv record)
    (hroutes : ∀ r ∈ b.inward v cv, ∀ x ∈ r.carried, ∃ w, routes.target? x.global = some w) :
    (b.lowered t.config v cv).storage.carries.map Prod.snd
        + (b.sunk t.config inner v cv routes record).storage.carries.map Prod.snd
      = b.node.storage.carries.map Prod.snd + inner.node.storage.carries.map Prod.snd := by
  simp only [Storage.carries, h.load_lowered hs, h.load_sunk hs hroutes, Multiset.map_map,
    Multiset.map_add, Function.comp_def, Branch.routed]
  rw [add_comm (Multiset.map _ inner.cluster.storage.load), ← add_assoc, ← Multiset.map_add, add_comm
    (Multiset.filter _ _), Multiset.filter_add_not]
  rfl

/-- A move outward keeps all edges. -/
theorem Outward.carries (hs : t.Sound) (h : t.Outward inner b cv v record) :
    (inner.drained t.config v).storage.carries.map Prod.snd
        + (b.raised t.config inner cv v record).storage.carries.map Prod.snd
      = inner.node.storage.carries.map Prod.snd + b.node.storage.carries.map Prod.snd := by
  have hparts : ∀ (L : Multiset (Sym2 LocalVertex × CarriedEdge))
      (q : Sym2 LocalVertex × CarriedEdge → Prop) [DecidablePred q],
      (L.filter q).map (fun entry => entry.2.global)
        + (L.filter (fun entry => ¬ q entry)).map (fun entry => entry.2.global)
      = L.map (fun entry => entry.2.global) := by
    intro L q _
    rw [← Multiset.map_add, Multiset.filter_add_not]
  simp only [Storage.carries, h.load_drained hs, h.load_raised hs, Multiset.map_map,
    Multiset.map_add, Function.comp_def]
  rw [show inner.node.storage = inner.cluster.storage from rfl,
    show b.node.storage = b.cluster.storage from rfl,
    ← hparts inner.cluster.storage.load (fun entry => v ∈ entry.1), ← hparts b.cluster.storage.load (fun entry =>
      cv ∈ entry.1 ∧ entry.2.global.touches (inner.travelling v) = true)]
  abel

/-! ## Ends -/

/-- A name that stands somewhere and travels with a vertex stands on it. -/
theorem Orderly.stands_of_mem_travelling (h : t.Orderly count) {c : ClusterId} {x : LocalVertex}
    {g : GlobalVertex} (hst : t.Stands c x g) {d : Branch} (hd : t.find? d.cluster.id = some d)
    (hg : g ∈ d.travelling v) : t.Stands d.cluster.id v g := by
  obtain ⟨n, hn, u, -, ho⟩ := hst
  obtain ⟨o, w, hl, hw⟩ := (h.sound.mem_travelling hd).mp hg
  obtain ⟨m, hm, rfl, hname⟩ := exists_node_of_global? hw
  obtain ⟨rfl, rfl⟩ := h.named.eq_of_global? hn hm ho.1 hname
  exact ⟨n, hn, u, hl, ho⟩

/-- What stands on the vertex of a child stands in the child. -/
theorem Sound.stands_inside (hs : t.Sound) {n : Node} (hn : n ∈ t.nodes) {d : ClusterId}
    (he : (cv, d) ∈ n.entries) {g : GlobalVertex} (h : t.Stands n.id cv g) :
    ∃ y, t.Stands d y g := by
  obtain ⟨m, hm, u, hl, ho⟩ := h
  generalize hid : n.id = c at hl
  cases hl with
  | here =>
      obtain rfl := hs.distinct.eq_of_id hn hm hid
      exact absurd (List.mem_map.mpr ⟨_, he, rfl⟩) ho.2
  | @inside k _ y _ d' _ hk he' hl =>
      obtain rfl := hs.distinct.eq_of_id hn hk hid
      have hdd : d = d' := by
        have heq := List.inj_on_of_nodup_map (hs.nodes n hn).keys he he' rfl
        exact congrArg Prod.snd heq
      exact ⟨y, m, hm, u, hdd ▸ hl, ho⟩

/-! ## Moves inward -/

/-- Of an edge between the vertex and the child, one endpoint moves, and the
    other is found in the child. -/
theorem Inward.ends (ho : t.Orderly count) (h : t.Inward b inner v cv record) {e : GlobalEdge}
    (hj : t.Joins b.cluster.id s(v, cv) e) :
    ∃ near far y, t.Stands b.cluster.id v near ∧ t.Stands inner.cluster.id y far
      ∧ (e.farEnd? (b.travelling v)).bind inner.representative? = some y
      ∧ (e.source = near ∧ e.target = far ∨ e.source = far ∧ e.target = near) := by
  obtain ⟨x, x', heq, hsource, htarget⟩ := hj
  have hnode := node_mem_of_find? h.around
  have hinside : ∀ {far : GlobalVertex}, t.Stands b.cluster.id cv far →
      far ∉ b.travelling v ∧ ∃ y, t.Stands inner.cluster.id y far
        ∧ inner.representative? far = some y := by
    intro far hfar
    obtain ⟨y, hy⟩ := ho.sound.stands_inside hnode h.child hfar
    refine ⟨fun hmem => h.ne ((ho.mem_travelling_iff h.around hfar).mp hmem), y, hy, ?_⟩
    exact ho.representative?_eq h.within hy
  rcases Sym2.eq_iff.mp heq with ⟨rfl, rfl⟩ | ⟨rfl, rfl⟩
  · obtain ⟨hout, y, hy, hrep⟩ := hinside htarget
    refine ⟨e.source, e.target, y, hsource, hy, ?_, Or.inl ⟨rfl, rfl⟩⟩
    rw [GlobalEdge.farEnd?, if_pos (hsource.mem_travelling ho.sound h.around), if_neg hout]
    exact hrep
  · obtain ⟨hout, y, hy, hrep⟩ := hinside hsource
    refine ⟨e.target, e.source, y, htarget, hy, ?_, Or.inr ⟨rfl, rfl⟩⟩
    rw [GlobalEdge.farEnd?, if_neg hout, if_pos (htarget.mem_travelling ho.sound h.around)]
    exact hrep

/-- Edges with one id that come in are routed to one vertex. -/
theorem Inward.target?_eq (ho : t.Orderly count) (h : t.Inward b inner v cv record)
    (hroutes : inner.routes (b.travelling v) ((b.inward v cv).flatMap EdgeRecord.globals)
      = .ok routes) {x : CarriedEdge} (hx : (s(v, cv), x) ∈ b.cluster.storage.load) :
    routes.target? x.global
      = (x.global.farEnd? (b.travelling v)).bind inner.representative? := by
  have hnode := node_mem_of_find? h.around
  have hb := ho.sound.nodes _ hnode
  have hmem : ∀ {e : GlobalEdge}, e ∈ (b.inward v cv).flatMap EdgeRecord.globals ↔
      (s(v, cv), e) ∈ b.node.storage.carries := by
    intro e
    rw [List.mem_flatMap, Storage.mem_carries]
    constructor
    · rintro ⟨r, hr, he⟩
      obtain ⟨y, hy, rfl⟩ := List.mem_map.mp he
      exact ⟨y, (Branch.mem_inward_iff hb.storage h.ne).mp ⟨r, hr, hy⟩, rfl⟩
    · rintro ⟨y, hy, rfl⟩
      obtain ⟨r, hr, hy⟩ := (Branch.mem_inward_iff hb.storage h.ne).mpr hy
      exact ⟨r, hr, List.mem_map_of_mem hy⟩
  obtain ⟨hfst, hsnd⟩ := Branch.of_routes_eq_ok hroutes
  have hcarried := Storage.mem_carries.mpr ⟨x, hx, rfl⟩
  obtain ⟨w, hw⟩ := Routes.exists_target? (hfst ▸ hmem.mpr hcarried)
  obtain ⟨route, hroute, hsame, rfl⟩ := Routes.mem_of_target? hw
  have hroute' : (s(v, cv), route.1) ∈ b.node.storage.carries :=
    hmem.mp (hfst ▸ List.mem_map_of_mem hroute)
  obtain ⟨-, -, heq⟩ := ho.named.eq_of_mem_carries hnode hnode hroute' hcarried (eq_of_beq hsame)
  rw [hw, ← heq, hsnd route hroute]

/-- The child's vertex leads to the vertex that came in. -/
theorem Inward.leads_lower (hs : t.Sound) (h : t.Inward b inner v cv record) (routes : Routes) :
    (t.lower v cv routes b inner).Leads b.cluster.id cv inner.cluster.id inner.nextVertex := by
  have hover := h.handover hs routes
  have hentry := (hover.giverEntries cv inner.cluster.id).mpr ⟨h.child, h.ne.symm⟩
  have hleads := Leads.inside hover.giver_mem.2 hentry (.here inner.cluster.id inner.nextVertex)
  rw [hover.giverId] at hleads
  exact hleads

theorem Inward.leads_above (hs : t.Sound) (h : t.Inward b inner v cv record) (routes : Routes)
    {c : ClusterId} {x : LocalVertex} (hmem : (c, x) ∈ t.path b.cluster.id) :
    (t.lower v cv routes b inner).Leads c x inner.cluster.id inner.nextVertex := by
  have hpath := hs.distinct.path_child (node_mem_of_find? h.around) h.child
  have hl : t.Leads c x inner.cluster.id inner.nextVertex :=
    leads_of_mem_path hs.distinct (hpath ▸ List.mem_cons_of_mem _ hmem) _
  refine (h.handover hs routes).leads hs.distinct hl (fun hin => ?_)
  rw [hpath, List.mem_cons] at hin
  rcases hin with heq | hin
  · exact absurd (Prod.mk.inj heq).2 h.ne
  · exact absurd (hs.distinct.length_path_lt hin) (Nat.lt_irrefl _)

/-- In the cluster around, the child's vertex takes the place of the vertex
    that went in. -/
theorem Inward.stands_around (hs : t.Sound) (h : t.Inward b inner v cv record) (routes : Routes)
    {a : LocalVertex} {g : GlobalVertex} (hst : t.Stands b.cluster.id a g) :
    (t.lower v cv routes b inner).Stands b.cluster.id (redirect v cv a) g := by
  have hover := h.handover hs routes
  by_cases ha : a = v
  · obtain ⟨n, hn, u, hl, ho⟩ := hover.stands_moved hs.distinct (ha ▸ hst)
    rw [ha, redirect_self]
    exact ⟨n, hn, u, (h.leads_lower hs routes).trans hl, ho⟩
  · rw [redirect_of_ne cv ha]
    refine hover.stands hs.distinct hst (fun heq => ha (Prod.mk.inj heq).2) (fun hmem _ => ?_)
    exact absurd (hs.distinct.length_path_lt hmem) (Nat.lt_irrefl _)

theorem Inward.stands_within (hs : t.Sound) (h : t.Inward b inner v cv record) (routes : Routes)
    {a : LocalVertex} {g : GlobalVertex} (hst : t.Stands inner.cluster.id a g) :
    (t.lower v cv routes b inner).Stands inner.cluster.id a g := by
  have hover := h.handover hs routes
  refine hover.stands hs.distinct hst
    (fun heq => hover.taker_ne hs.distinct (Prod.mk.inj heq).1) (fun hmem _ => ?_)
  have hlt := hs.distinct.length_path_lt hmem
  have hpath : t.path inner.cluster.id = (b.cluster.id, cv) :: t.path b.cluster.id :=
    hs.distinct.path_child (node_mem_of_find? h.around) h.child
  rw [hpath, List.length_cons] at hlt
  exact absurd hlt (Nat.lt_asymm (Nat.lt_succ_self _))

/-- Order is kept by a move inward. -/
theorem Orderly.lower (ho : t.Orderly count) (h : t.Inward b inner v cv record)
    (hroutes : inner.routes (b.travelling v) ((b.inward v cv).flatMap EdgeRecord.globals)
      = .ok routes) : (t.lower v cv routes b inner).Orderly count := by
  have hnode := node_mem_of_find? h.around
  have hinner := node_mem_of_find? h.within
  have hover := h.handover ho.sound routes
  have hall := Branch.exists_target? hroutes
  have hsound := ho.sound.lower h (Node.Sound.hasVertex_of_target? (ho.sound.nodes _ hinner) hroutes)
  refine hover.orderly ho hsound (h.carries ho.sound hall)
    (fun c x _ hmem => h.leads_above ho.sound routes hmem) ?_ ?_
  · -- What the cluster carries now.
    intro z g hz
    obtain ⟨x, hx, rfl⟩ := Storage.mem_carries.mp hz
    rw [h.load_lowered ho.sound] at hx
    obtain ⟨⟨z0, x⟩, hx0, heq⟩ := Multiset.mem_map.mp hx
    obtain ⟨rfl, rfl⟩ := Prod.mk.inj heq
    obtain ⟨a, a', rfl, hsource, htarget⟩ := ho.placed _ hnode z0 x.global
      (Storage.mem_carries.mpr ⟨x, (Multiset.mem_filter.mp hx0).1, rfl⟩)
    exact ⟨_, _, rfl, h.stands_around ho.sound routes hsource,
      h.stands_around ho.sound routes htarget⟩
  · -- What the child carries now.
    intro z g hz
    obtain ⟨x, hx, rfl⟩ := Storage.mem_carries.mp hz
    rw [h.load_sunk ho.sound hall, Multiset.mem_add] at hx
    rcases hx with hx | hx
    · obtain ⟨a, a', rfl, hsource, htarget⟩ := ho.placed _ hinner z x.global
        (Storage.mem_carries.mpr ⟨x, hx, rfl⟩)
      exact ⟨a, a', rfl, h.stands_within ho.sound routes hsource,
        h.stands_within ho.sound routes htarget⟩
    · obtain ⟨x0, hx0, heq⟩ := Multiset.mem_map.mp hx
      obtain ⟨⟨z0, x1⟩, hx1, rfl⟩ := Multiset.mem_map.mp hx0
      obtain ⟨hload, rfl⟩ := Multiset.mem_filter.mp hx1
      obtain ⟨rfl, rfl⟩ := Prod.mk.inj heq
      obtain ⟨near, far, y, hnear, hfar, hroute, hends⟩ := h.ends ho
        (ho.placed _ hnode _ _ (Storage.mem_carries.mpr ⟨_, hload, rfl⟩))
      rw [h.target?_eq ho hroutes hload, hroute, Option.getD_some]
      have hnear' := hover.stands_moved ho.sound.distinct hnear
      have hfar' := h.stands_within ho.sound routes hfar
      rcases hends with ⟨rfl, rfl⟩ | ⟨rfl, rfl⟩
      · exact ⟨_, _, rfl, hnear', hfar'⟩
      · exact ⟨_, _, Sym2.eq_swap, hfar', hnear'⟩

/-! ## Moves outward -/

/-- The vertex of the cluster that was left leads there still. -/
theorem Outward.leads_raise (hs : t.Sound) (h : t.Outward inner b cv v record) (x : LocalVertex) :
    (t.raise cv v inner b).Leads b.cluster.id cv inner.cluster.id x := by
  have hover := h.handover hs
  have hentry := (hover.takerEntries cv inner.cluster.id).mpr (Or.inl h.child)
  have hleads := Leads.inside hover.taker_mem.2 hentry (.here inner.cluster.id x)
  rw [hover.takerId] at hleads
  exact hleads

/-- In the cluster that was left, the other vertices stay. -/
theorem Outward.stands_within (hs : t.Sound) (h : t.Outward inner b cv v record) {a : LocalVertex}
    {g : GlobalVertex} (hst : t.Stands inner.cluster.id a g) (ha : a ≠ v) :
    (t.raise cv v inner b).Stands inner.cluster.id a g := by
  refine (h.handover hs).stands hs.distinct hst (fun heq => ha (Prod.mk.inj heq).2) (fun hmem _ => ?_)
  exact absurd (hs.distinct.length_path_lt hmem) (Nat.lt_irrefl _)

/-- Seen from the cluster around, what stays inside is on the cluster's vertex,
    and what went out is on the new vertex. -/
theorem Outward.stands_across (hs : t.Sound) (h : t.Outward inner b cv v record) {a : LocalVertex}
    {g : GlobalVertex} (hst : t.Stands inner.cluster.id a g) :
    (t.raise cv v inner b).Stands b.cluster.id (if a = v then b.nextVertex else cv) g := by
  split
  · rename_i ha
    exact (h.handover hs).stands_moved hs.distinct (ha ▸ hst)
  · rename_i ha
    obtain ⟨n, hn, u, hl, ho⟩ := h.stands_within hs hst ha
    exact ⟨n, hn, u, (h.leads_raise hs a).trans hl, ho⟩

/-- What did not move stands where it stood. -/
theorem Outward.stands_around (hs : t.Sound) (h : t.Outward inner b cv v record) {a : LocalVertex}
    {g : GlobalVertex} (hst : t.Stands b.cluster.id a g)
    (hstay : a = cv → ¬ t.Stands inner.cluster.id v g) :
    (t.raise cv v inner b).Stands b.cluster.id a g := by
  have hover := h.handover hs
  refine hover.stands hs.distinct hst
    (fun heq => hover.taker_ne hs.distinct (Prod.mk.inj heq).1) (fun hmem hmoved => ?_)
  have hpath := hs.distinct.path_child (node_mem_of_find? h.around) h.child
  have hcv : (b.cluster.id, cv) ∈ t.path inner.cluster.id := hpath ▸ List.mem_cons_self ..
  exact absurd hmoved (hstay (hs.distinct.eq_of_mem_path hmem hcv))

theorem Outward.leads_above (hs : t.Sound) (h : t.Outward inner b cv v record) {c : ClusterId}
    {x : LocalVertex} (hne : c ≠ b.cluster.id) (hmem : (c, x) ∈ t.path inner.cluster.id) :
    (t.raise cv v inner b).Leads c x b.cluster.id b.nextVertex := by
  have hpath : t.path inner.cluster.id = (b.cluster.id, cv) :: t.path b.cluster.id :=
    hs.distinct.path_child (node_mem_of_find? h.around) h.child
  rw [hpath, List.mem_cons] at hmem
  have hl := leads_of_mem_path hs.distinct
    (hmem.resolve_left (fun heq => hne (Prod.mk.inj heq).1)) b.nextVertex
  refine (h.handover hs).leads hs.distinct hl (fun hin => ?_)
  have hlt : (t.path inner.cluster.id).length < (t.path b.cluster.id).length :=
    hs.distinct.length_path_lt hin
  rw [hpath, List.length_cons] at hlt
  exact absurd hlt (Nat.lt_asymm (Nat.lt_succ_self _))

/-- What went out was represented by the cluster's vertex. -/
theorem Outward.eq_of_mem_travelling (ho : t.Orderly count) (h : t.Outward inner b cv v record)
    {a : LocalVertex} {g : GlobalVertex} (hst : t.Stands b.cluster.id a g)
    (hg : g ∈ inner.travelling v) : a = cv := by
  obtain ⟨n, hn, u, hl, hord⟩ := ho.stands_of_mem_travelling hst h.within hg
  exact ho.stands_unique hst
    ⟨n, hn, u, .inside (node_mem_of_find? h.around) h.child hl, hord⟩

/-- What an edge that is lifted ends at. -/
theorem Outward.stands_lifted (ho : t.Orderly count) (h : t.Outward inner b cv v record)
    {a : LocalVertex} {g : GlobalVertex} (hst : t.Stands b.cluster.id a g)
    (hmoves : a = cv → g ∈ inner.travelling v) :
    (t.raise cv v inner b).Stands b.cluster.id (redirect cv b.nextVertex a) g := by
  by_cases ha : a = cv
  · rw [ha, redirect_self]
    exact (h.handover ho.sound).stands_moved ho.sound.distinct
      (ho.stands_of_mem_travelling hst h.within (hmoves ha))
  · rw [redirect_of_ne _ ha]
    exact h.stands_around ho.sound hst (fun heq => absurd heq ha)

/-- Everything that the cluster around carries after a move outward is where
    it belongs. -/
theorem Outward.joins_raised (ho : t.Orderly count) (h : t.Outward inner b cv v record)
    {z : Sym2 LocalVertex} {x : CarriedEdge}
    (hx : (z, x) ∈ (b.raised t.config inner cv v record).storage.load) :
    (t.raise cv v inner b).Joins b.cluster.id z x.global := by
  have hs := ho.sound
  have hnode := node_mem_of_find? h.around
  have hinner := node_mem_of_find? h.within
  rw [h.load_raised hs, Multiset.mem_add, Multiset.mem_add] at hx
  rcases hx with hx | hx | hx
  · -- It was there, and not because of the vertex.
    obtain ⟨hx, hstay⟩ := Multiset.mem_filter.mp hx
    obtain ⟨a, a', rfl, hsource, htarget⟩ := ho.placed _ hnode z x.global
      (Storage.mem_carries.mpr ⟨x, hx, rfl⟩)
    refine ⟨a, a', rfl, h.stands_around hs hsource ?_, h.stands_around hs htarget ?_⟩
    · rintro rfl hmoved
      exact hstay ⟨Sym2.mem_mk_left .., GlobalEdge.touches_eq_true.mpr
        (Or.inl (hmoved.mem_travelling hs h.within))⟩
    · rintro rfl hmoved
      exact hstay ⟨Sym2.mem_mk_right .., GlobalEdge.touches_eq_true.mpr
        (Or.inr (hmoved.mem_travelling hs h.within))⟩
  · -- It came out with the vertex.
    obtain ⟨⟨z0, x0⟩, hx0, heq⟩ := Multiset.mem_map.mp hx
    obtain ⟨rfl, rfl⟩ := Prod.mk.inj heq
    obtain ⟨hx0, hv⟩ := Multiset.mem_filter.mp hx0
    obtain ⟨a, a', rfl, hsource, htarget⟩ := ho.placed _ hinner z0 x0.global
      (Storage.mem_carries.mpr ⟨x0, hx0, rfl⟩)
    have hne : a ≠ a' := (hs.nodes _ hinner).storage.ne_of_mem_load hx0
    have hsource' := h.stands_across hs hsource
    have htarget' := h.stands_across hs htarget
    rcases Sym2.mem_iff.mp hv with rfl | rfl
    · rw [if_pos rfl] at hsource'
      rw [if_neg hne.symm] at htarget'
      exact ⟨_, _, rfl, hsource', htarget'⟩
    · rw [if_neg hne] at hsource'
      rw [if_pos rfl] at htarget'
      exact ⟨_, _, Sym2.eq_swap, hsource', htarget'⟩
  · -- It was there because of the vertex.
    obtain ⟨⟨z0, x0⟩, hx0, heq⟩ := Multiset.mem_map.mp hx
    obtain ⟨rfl, rfl⟩ := Prod.mk.inj heq
    obtain ⟨hx0, -, htouch⟩ := Multiset.mem_filter.mp hx0
    obtain ⟨a, a', rfl, hsource, htarget⟩ := ho.placed _ hnode z0 x0.global
      (Storage.mem_carries.mpr ⟨x0, hx0, rfl⟩)
    have hne : a ≠ a' := (hs.nodes _ hnode).storage.ne_of_mem_load hx0
    refine ⟨_, _, rfl, h.stands_lifted ho hsource (fun ha => ?_),
      h.stands_lifted ho htarget (fun ha => ?_)⟩
    · refine (GlobalEdge.touches_eq_true.mp htouch).resolve_right (fun hmem => hne ?_)
      rw [ha, h.eq_of_mem_travelling ho htarget hmem]
    · refine (GlobalEdge.touches_eq_true.mp htouch).resolve_left (fun hmem => hne ?_)
      rw [ha, h.eq_of_mem_travelling ho hsource hmem]

/-- Order is kept by a move outward. -/
theorem Orderly.raise (ho : t.Orderly count) (h : t.Outward inner b cv v record) :
    (t.raise cv v inner b).Orderly count := by
  have hs := ho.sound
  have hover := h.handover hs
  refine hover.orderly ho (hs.raise h) (h.carries hs)
    (fun c x hne hmem => h.leads_above hs hne hmem) (fun z g hz => ?_) (fun z g hz => ?_)
  · obtain ⟨x, hx, rfl⟩ := Storage.mem_carries.mp hz
    rw [h.load_drained hs] at hx
    obtain ⟨hx, hv⟩ := Multiset.mem_filter.mp hx
    obtain ⟨a, a', rfl, hsource, htarget⟩ := ho.placed _ (node_mem_of_find? h.within) z x.global
      (Storage.mem_carries.mpr ⟨x, hx, rfl⟩)
    refine ⟨a, a', rfl, h.stands_within hs hsource ?_, h.stands_within hs htarget ?_⟩
    · rintro rfl
      exact hv (Sym2.mem_mk_left ..)
    · rintro rfl
      exact hv (Sym2.mem_mk_right ..)
  · obtain ⟨x, hx, rfl⟩ := Storage.mem_carries.mp hz
    exact h.joins_raised ho hx

/-! ## Moves -/

section Moves

variable {c child : ClusterId} {result : Tree × LocalVertex}

theorem Orderly.moveIn (ho : t.Orderly count) (hrun : t.moveIn c v child = .ok result) :
    result.1.Orderly count := by
  obtain ⟨b, inner, cv, record, routes, hin, -, -, hroutes, heq, -⟩ := of_moveIn ho.sound hrun
  rw [heq]
  exact ho.lower hin hroutes

theorem Orderly.moveInOn (ho : t.Orderly count) {place : LocalVertex}
    (hrun : t.moveInOn c v place = .ok result) : result.1.Orderly count := by
  obtain ⟨child, -, hrun⟩ := of_bind_eq_ok hrun
  exact ho.moveIn hrun

theorem Orderly.moveOut (ho : t.Orderly count) (hrun : t.moveOut c v = .ok result) :
    result.1.Orderly count := by
  obtain ⟨b, inner, cv, record, hout, -, heq, -⟩ := of_moveOut ho.sound hrun
  rw [heq]
  exact ho.raise hout

end Moves

end Tree

end NestedGraph
