import NestedGraph.Proofs.Lookup
import NestedGraph.Tree.Relocation

/-! # Relocation — where a move takes the edges of a vertex

    A move changes two clusters, and hands the branch on the moved vertex
    from one to the other.  What the edges of the vertex carried is
    REDIRECTED: moved inward, it ends at the vertex of the child or goes
    into the child with its vertex; moved outward, it ends at the vertex
    of the cluster left behind or comes off that vertex. -/

namespace NestedGraph

/-! ## Edges that change ends -/

/-- The vertex that stands where `v` stood: `w` in place of `v`. -/
def redirect (v w u : LocalVertex) : LocalVertex := if u = v then w else u

@[simp] theorem redirect_self (v w : LocalVertex) : redirect v w v = w := if_pos rfl

theorem redirect_of_ne {v u : LocalVertex} (w : LocalVertex) (h : u ≠ v) : redirect v w u = u :=
  if_neg h

namespace Storage

theorem mem_recordsAt {s : Storage} (hs : s.Sound) {v w : LocalVertex} {r : EdgeRecord}
    (h : (w, r) ∈ s.recordsAt v) :
    ∃ e l, s.link? e = some l ∧ l.ends = s(v, w) ∧ l.record = r := by
  have h : (w, r) ∈ (s.recordsAt v : Multiset (LocalVertex × EdgeRecord)) := h
  rw [coe_recordsAt hs, Multiset.mem_filterMap] at h
  obtain ⟨⟨e, l⟩, hmem, heq⟩ := h
  obtain ⟨u, hu, heq⟩ := Option.map_eq_some_iff.mp heq
  obtain ⟨rfl, rfl⟩ := Prod.mk.inj heq
  exact ⟨e, l, SlotStore.mem_table.mp hmem, opposite?_eq_some hu, rfl⟩

theorem Sound.ends_ne {s : Storage} (hs : s.Sound) {e : LocalEdge} {l : Link} {v w : LocalVertex}
    (hl : s.link? e = some l) (hends : l.ends = s(v, w)) : v ≠ w := by
  rintro rfl
  have hdiag : (s(l.first, l.second)).IsDiag := by
    rw [show s(l.first, l.second) = s(v, v) from hends]
    rfl
  exact hs.apart e l hl hdiag

theorem Sound.hasVertex_of_ends {s : Storage} (hs : s.Sound) {e : LocalEdge} {l : Link}
    {v : LocalVertex} (hl : s.link? e = some l) (hv : v ∈ l.ends) : s.hasVertex v = true := by
  obtain ⟨h1, h2⟩ := hs.live e l hl
  rcases Sym2.mem_iff.mp hv with rfl | rfl
  · exact h1
  · exact h2

/-- The far end of a record is another live vertex, and the record carries
    something. -/
theorem recordsAt_spec {s : Storage} (hs : s.Sound) {v w : LocalVertex} {r : EdgeRecord}
    (h : (w, r) ∈ s.recordsAt v) :
    v ≠ w ∧ s.hasVertex w = true ∧ r.carried ≠ [] := by
  obtain ⟨e, l, hl, hends, rfl⟩ := mem_recordsAt hs h
  refine ⟨hs.ends_ne hl hends, hs.hasVertex_of_ends hl ?_, hs.filled e l hl⟩
  rw [hends]
  exact Sym2.mem_mk_right v w

theorem fits_of_recordsAt {config : Config} {s : Storage} (hs : s.Sound) (hf : s.Fits config)
    {v w : LocalVertex} {r : EdgeRecord} (h : (w, r) ∈ s.recordsAt v) : r.Fits config := by
  obtain ⟨e, l, hl, -, rfl⟩ := mem_recordsAt hs h
  exact hf.edge e l hl

/-- What is kept of the records at a vertex, with new ends, is kept of the
    load there. -/
theorem bind_recordsAt_ite {s : Storage} (hs : s.Sound) (v : LocalVertex)
    (K : Sym2 LocalVertex × CarriedEdge → Prop) [DecidablePred K]
    (T : Sym2 LocalVertex → Sym2 LocalVertex) :
    (s.recordsAt v : Multiset (LocalVertex × EdgeRecord)).bind (fun near =>
        (near.2.carried : Multiset CarriedEdge).bind (fun x =>
          if K (s(v, near.1), x) then {(T s(v, near.1), x)} else 0))
      = (s.load.filter (fun entry => v ∈ entry.1 ∧ K entry)).map
          (fun entry => (T entry.1, entry.2)) := by
  rw [bind_recordsAt hs v (fun w x => if K (s(v, w), x) then {(T s(v, w), x)} else 0)
    (fun entry => if v ∈ entry.1 ∧ K entry then {(T entry.1, entry.2)} else 0)]
  · rw [← Multiset.bind_filter, Multiset.bind_singleton]
  · intro w x _
    simp
  · intro z x hz
    exact if_neg (fun h => hz h.1)

end Storage

namespace Branch

variable {config : Config} {b inner : Branch} {v cv nv : LocalVertex}

/-- What went to other vertices than the child's goes to the child's. -/
theorem load_outward (hs : b.cluster.storage.Sound) (hne : v ≠ cv) :
    (b.outward v cv : Multiset Link).bind Link.load
      = (b.cluster.storage.load.filter (fun entry => v ∈ entry.1 ∧ cv ∉ entry.1)).map
          (fun entry => (entry.1.map (redirect v cv), entry.2)) := by
  rw [← Storage.bind_recordsAt_ite hs v (fun entry => cv ∉ entry.1) (Sym2.map (redirect v cv)),
    outward, ← Multiset.map_coe, ← Multiset.filter_coe, Multiset.bind_map, Multiset.bind_filter]
  refine Multiset.bind_congr ?_
  rintro ⟨w, r⟩ hmem
  obtain ⟨hvw, -, -⟩ := Storage.recordsAt_spec hs hmem
  have hcv : cv ∉ s(v, w) ↔ w ≠ cv := by
    simp [hne.symm, eq_comm]
  have hmap : Sym2.map (redirect v cv) s(v, w) = s(w, cv) := by
    rw [Sym2.map_mk, redirect_self, redirect_of_ne cv hvw.symm]
    exact Sym2.eq_swap
  by_cases hw : w = cv
  · simp [hw]
  · simp only [ne_eq, hw, not_false_eq_true, if_true, hcv, hmap]
    rw [Multiset.bind_singleton]
    rfl

/-- What went to the child's vertex. -/
theorem coe_inward (hs : b.cluster.storage.Sound) (hne : v ≠ cv) :
    (b.inward v cv : Multiset EdgeRecord).bind (fun r => (r.carried : Multiset CarriedEdge))
      = (b.cluster.storage.load.filter (fun entry => entry.1 = s(v, cv))).map Prod.snd := by
  have hrec := Storage.bind_recordsAt hs v (fun w x => if w = cv then {x} else 0)
    (fun entry => if entry.1 = s(v, cv) then {entry.2} else 0)
    (fun w x _ => by simp [hne]) (fun z x hz => if_neg (fun h => hz (by
      rw [show z = s(v, cv) from h]
      exact Sym2.mem_mk_left v cv)))
  rw [← Multiset.bind_filter, Multiset.bind_singleton] at hrec
  rw [← hrec, inward, ← Multiset.map_coe, ← Multiset.filter_coe, Multiset.bind_map,
    Multiset.bind_filter]
  refine Multiset.bind_congr ?_
  rintro ⟨w, r⟩ -
  by_cases hw : w = cv
  · simp only [hw, if_true]
    rw [Multiset.bind_singleton, Multiset.map_id']
  · simp [hw]

/-- What is in the list of inward edges comes off the edge to the child's
    vertex. -/
theorem mem_inward_iff (hs : b.cluster.storage.Sound) (hne : v ≠ cv) {x : CarriedEdge} :
    (∃ r ∈ b.inward v cv, x ∈ r.carried) ↔ (s(v, cv), x) ∈ b.cluster.storage.load := by
  have h := congrArg (x ∈ ·) (coe_inward hs hne)
  simp only [Multiset.mem_bind, Multiset.mem_coe, Multiset.mem_map, Multiset.mem_filter,
    Prod.exists, exists_eq_right, eq_iff_iff] at h
  rw [h]

/-- Where an edge is routed to. -/
def routed (routes : Routes) (nv : LocalVertex) (x : CarriedEdge) :
    Sym2 LocalVertex × CarriedEdge :=
  (s(nv, (routes.target? x.global).getD nv), x)

/-- When there is a route for each, all inward edges come in. -/
theorem load_incoming (hs : b.cluster.storage.Sound) (hne : v ≠ cv) {routes : Routes}
    (hroutes : ∀ r ∈ b.inward v cv, ∀ x ∈ r.carried, ∃ w, routes.target? x.global = some w) :
    (incoming (b.inward v cv) routes nv : Multiset Link).bind Link.load
      = ((b.cluster.storage.load.filter (fun entry => entry.1 = s(v, cv))).map Prod.snd).map
          (routed routes nv) := by
  rw [← coe_inward hs hne, Multiset.map_bind, incoming, ← Multiset.coe_bind, Multiset.bind_assoc]
  refine Multiset.bind_congr (fun r hr => ?_)
  rw [← Multiset.filterMap_coe, Multiset.bind_filterMap, ← Multiset.bind_singleton]
  refine Multiset.bind_congr (fun x hx => ?_)
  obtain ⟨w, hw⟩ := hroutes r hr x hx
  rw [hw, Option.map_some, Option.map_some, Option.getD_some, routed, hw]
  rfl

/-- What a vertex that leaves carried ends at the vertex of the cluster left
    behind. -/
theorem load_left (hs : inner.cluster.storage.Sound) :
    (inner.left v nv cv : Multiset Link).bind Link.load
      = (inner.cluster.storage.load.filter (fun entry => v ∈ entry.1)).map
          (fun entry => (s(nv, cv), entry.2)) := by
  have hrec := Storage.bind_recordsAt_ite hs v (fun _ => True) (fun _ => s(nv, cv))
  simp only [and_true, if_true] at hrec
  rw [← hrec, left, ← Multiset.map_coe, Multiset.bind_map]
  refine Multiset.bind_congr (fun near _ => ?_)
  rw [Multiset.bind_singleton]
  rfl

/-- What ended at the cluster's vertex because of those that leave ends at
    the vertex that leaves. -/
theorem load_lifted (hs : b.cluster.storage.Sound) (moving : List GlobalVertex) :
    (b.lifted moving nv cv : Multiset Link).bind Link.load
      = (b.cluster.storage.load.filter (fun entry =>
            cv ∈ entry.1 ∧ entry.2.global.touches moving = true)).map
          (fun entry => (entry.1.map (redirect cv nv), entry.2)) := by
  have hfilter : b.cluster.storage.withdrawnAt (GlobalEdge.touches moving) cv
      = ((b.cluster.storage.recordsAt cv).map (fun near =>
          (near.1, near.2.part (GlobalEdge.touches moving)))).filter
        (fun near => decide (near.2.carried ≠ [])) :=
    List.filter_congr (fun near _ => by cases near.2.carried <;> rfl)
  rw [← Storage.bind_recordsAt_ite hs cv (fun entry => entry.2.global.touches moving = true)
    (Sym2.map (redirect cv nv)), lifted, hfilter, ← Multiset.map_coe, ← Multiset.filter_coe,
    ← Multiset.map_coe, Multiset.bind_map, Multiset.bind_filter, Multiset.bind_map]
  refine Multiset.bind_congr ?_
  rintro ⟨w, r⟩ hmem
  obtain ⟨hvw, -, -⟩ := Storage.recordsAt_spec hs hmem
  have hmap : Sym2.map (redirect cv nv) s(cv, w) = s(nv, w) := by
    rw [Sym2.map_mk, redirect_self, redirect_of_ne nv hvw.symm]
  have hload : (⟨nv, w, r.part (GlobalEdge.touches moving)⟩ : Link).load
      = (r.carried : Multiset CarriedEdge).bind (fun x =>
          if x.global.touches moving = true then {(s(nv, w), x)} else 0) := by
    rw [← Multiset.bind_filter, Multiset.bind_singleton]
    simp [Link.load, Link.ends, EdgeRecord.part, EdgeRecord.matching]
  simp only [hmap]
  rw [← hload]
  by_cases hempty : (r.part (GlobalEdge.touches moving)).carried = []
  · simp [hempty, Link.load]
  · simp [hempty]

/-! ### Edges that may be attached -/

theorem fit_outward (hs : b.cluster.storage.Sound) (hcv : b.cluster.storage.hasVertex cv = true)
    (hne : v ≠ cv) {l : Link} (hl : l ∈ b.outward v cv) :
    (b.cluster.storage.removeVertex v).Fit l := by
  obtain ⟨⟨w, r⟩, hmem, rfl⟩ := List.mem_map.mp hl
  obtain ⟨hmem, hw⟩ := List.mem_filter.mp hmem
  obtain ⟨hvw, hlive, hfill⟩ := Storage.recordsAt_spec hs hmem
  have hkeep : ∀ u, v ≠ u → b.cluster.storage.hasVertex u = true →
      (b.cluster.storage.removeVertex v).hasVertex u = true := by
    intro u hu h
    obtain ⟨r, hr⟩ := Storage.hasVertex_iff.mp h
    refine Storage.hasVertex_iff.mpr ⟨r, ?_⟩
    rw [Storage.vertex?_removeVertex, if_neg (Ne.symm hu), hr]
  exact ⟨of_decide_eq_true hw, hkeep w hvw hlive, hkeep cv hne hcv, hfill⟩

theorem fits_outward (hs : b.cluster.storage.Sound) (hf : b.cluster.storage.Fits config)
    {l : Link} (hl : l ∈ b.outward v cv) : l.record.Fits config := by
  obtain ⟨⟨w, r⟩, hmem, rfl⟩ := List.mem_map.mp hl
  exact Storage.fits_of_recordsAt hs hf (List.mem_filter.mp hmem).1

theorem fits_inward (hs : b.cluster.storage.Sound) (hf : b.cluster.storage.Fits config)
    {r : EdgeRecord} (hr : r ∈ b.inward v cv) : r.Fits config := by
  obtain ⟨⟨w, r⟩, hmem, rfl⟩ := List.mem_map.mp hr
  exact Storage.fits_of_recordsAt hs hf (List.mem_filter.mp hmem).1

theorem mem_incoming {records : List EdgeRecord} {routes : Routes} {l : Link}
    (hl : l ∈ incoming records routes nv) :
    ∃ r ∈ records, ∃ x ∈ r.carried, ∃ w, routes.target? x.global = some w
      ∧ l = ⟨nv, w, ⟨r.properties, [x]⟩⟩ := by
  obtain ⟨r, hr, hl⟩ := List.mem_flatMap.mp hl
  obtain ⟨x, hx, heq⟩ := List.mem_filterMap.mp hl
  obtain ⟨w, hw, rfl⟩ := Option.map_eq_some_iff.mp heq
  exact ⟨r, hr, x, hx, w, hw, rfl⟩

theorem fits_incoming {records : List EdgeRecord} {routes : Routes}
    (hf : ∀ r ∈ records, r.Fits config) {l : Link} (hl : l ∈ incoming records routes nv) :
    l.record.Fits config := by
  obtain ⟨r, hr, x, hx, w, -, rfl⟩ := mem_incoming hl
  obtain ⟨h1, h2⟩ := hf r hr
  exact ⟨h1, fun y hy => (List.mem_singleton.mp hy) ▸ h2 x hx⟩

theorem mem_lifted {moving : List GlobalVertex} {l : Link}
    (hl : l ∈ b.lifted moving nv cv) :
    ∃ r, (l.second, r) ∈ b.cluster.storage.recordsAt cv ∧ l.first = nv
      ∧ l.record = r.part (GlobalEdge.touches moving) ∧ l.record.carried ≠ [] := by
  obtain ⟨near, hmem, rfl⟩ := List.mem_map.mp hl
  obtain ⟨hmem, hne⟩ := List.mem_filter.mp hmem
  obtain ⟨⟨w, r⟩, hrec, rfl⟩ := List.mem_map.mp hmem
  refine ⟨r, hrec, rfl, rfl, fun hnil => ?_⟩
  rw [show (r.part (GlobalEdge.touches moving)).carried = [] from hnil] at hne
  exact Bool.false_ne_true hne

theorem fits_lifted (hs : b.cluster.storage.Sound) (hf : b.cluster.storage.Fits config)
    {moving : List GlobalVertex} {l : Link} (hl : l ∈ b.lifted moving nv cv) :
    l.record.Fits config := by
  obtain ⟨r, hmem, -, hr, -⟩ := mem_lifted hl
  obtain ⟨h1, h2⟩ := Storage.fits_of_recordsAt hs hf hmem
  rw [hr]
  exact ⟨h1, fun x hx => h2 x (List.mem_filter.mp hx).1⟩

theorem fits_left (hs : inner.cluster.storage.Sound) (hf : inner.cluster.storage.Fits config)
    {l : Link} (hl : l ∈ inner.left v nv cv) : l.record.Fits config := by
  obtain ⟨⟨w, r⟩, hmem, rfl⟩ := List.mem_map.mp hl
  exact Storage.fits_of_recordsAt hs hf hmem

end Branch

/-! ## The clusters of a move -/

namespace Tree

/-- Vertex `v` of one cluster may move into the child on `cv`. -/
structure Inward (t : Tree) (b inner : Branch) (v cv : LocalVertex) (record : VertexRecord) :
    Prop where
  around : t.find? b.cluster.id = some b
  within : t.find? inner.cluster.id = some inner
  child : (cv, inner.cluster.id) ∈ b.node.entries
  vertex : b.cluster.storage.vertex? v = some record
  ne : v ≠ cv

/-- Vertex `v` of a cluster may move into the one around it, where `cv`
    stands for the cluster. -/
structure Outward (t : Tree) (inner b : Branch) (cv v : LocalVertex) (record : VertexRecord) :
    Prop where
  within : t.find? inner.cluster.id = some inner
  around : t.find? b.cluster.id = some b
  child : (cv, inner.cluster.id) ∈ b.node.entries
  vertex : inner.cluster.storage.vertex? v = some record

end Tree

namespace Branch

/-- The cluster that a vertex leaves inward. -/
def lowered (config : Config) (b : Branch) (v cv : LocalVertex) : Node :=
  ((b.node.cut v).mapStorage (fun s => s.attachLinks (b.outward v cv))).mark config

/-- The child that a vertex arrives in. -/
def sunk (config : Config) (b inner : Branch) (v cv : LocalVertex) (routes : Routes)
    (record : VertexRecord) : Node :=
  ((inner.node.receive record (b.inside.branchAt? v)).mapStorage (fun s =>
    s.attachLinks (incoming (b.inward v cv) routes inner.nextVertex))).mark config

/-- The child that a vertex leaves outward. -/
def drained (config : Config) (inner : Branch) (v : LocalVertex) : Node :=
  (inner.node.cut v).mark config

/-- The cluster that a vertex arrives in from a child. -/
def raised (config : Config) (b inner : Branch) (cv v : LocalVertex) (record : VertexRecord) :
    Node :=
  (((b.node.mapStorage (fun s => s.withdrawAt (GlobalEdge.touches (inner.travelling v)) cv)).receive
    record (inner.inside.branchAt? v)).mapStorage (fun s => s.attachLinks
      (inner.left v b.nextVertex cv ++ b.lifted (inner.travelling v) b.nextVertex cv))).mark config

end Branch

namespace Tree

theorem mem_nodes_of_find? {t : Tree} {b inner : Branch} {cv : LocalVertex} (hd : t.Distinct)
    (hb : t.find? b.cluster.id = some b) (hi : t.find? inner.cluster.id = some inner)
    (hchild : (cv, inner.cluster.id) ∈ b.node.entries) :
    ∃ rest, t.nodes = b.node ::ₘ inner.node ::ₘ rest := by
  obtain ⟨rest, hrest⟩ := nodes_cons_of_mem (node_mem_of_find? hb)
  have hinner := node_mem_of_find? hi
  rw [hrest, Multiset.mem_cons] at hinner
  rcases hinner with heq | hinner
  · -- A cluster is not its own child.
    have hpath := hd.path_child (node_mem_of_find? hb) hchild
    have hid : inner.cluster.id = b.node.id := congrArg Node.id heq
    rw [hid] at hpath
    exact absurd (congrArg List.length hpath) (by simp)
  · obtain ⟨rest', rfl⟩ := Multiset.exists_cons_of_mem hinner
    exact ⟨rest', hrest⟩

/-- How a move ends: the vertex arrives, its edges are attached, and the two
    clusters are marked. -/
theorem nodes_arrive {t : Tree} {giver taker : Node} {rest : Multiset Node}
    (hn : t.nodes = giver ::ₘ taker ::ₘ rest) (record : VertexRecord) (nested : Option Branch)
    (hids : (giver.id ::ₘ taker.id ::ₘ (nestedNodes nested + rest).map Node.id).Nodup)
    (f : Storage → Storage) :
    ((((t.receive taker.id record nested).mapStorage taker.id f).mark giver.id).mark
        taker.id).nodes
      = giver.mark t.config ::ₘ ((taker.receive record nested).mapStorage f).mark t.config
          ::ₘ (nestedNodes nested + rest) := by
  have hd0 : t.Distinct := by
    rw [Distinct, ids, hn, Multiset.map_cons, Multiset.map_cons]
    refine Multiset.nodup_of_le (Multiset.cons_le_cons _ (Multiset.cons_le_cons _ ?_)) hids
    exact Multiset.map_le_map (Multiset.le_add_left ..)
  rw [Multiset.cons_swap] at hn
  have hreceive := hd0.nodes_receive hn record nested
  rw [Multiset.add_cons, Multiset.cons_swap] at hreceive
  have hd1 : (t.receive taker.id record nested).Distinct := by
    rw [Distinct, ids, hreceive, Multiset.map_cons, Multiset.map_cons, Node.id_receive]
    exact hids
  rw [Multiset.cons_swap] at hreceive
  have hattach := hd1.nodes_mapStorage hreceive f
  have hd2 := hd1.mapStorage taker.id f
  rw [Multiset.cons_swap] at hattach
  have hmark := hd2.nodes_mark hattach
  rw [Multiset.cons_swap] at hmark
  have hboth := (hd2.mark giver.id).nodes_mark hmark
  exact hboth.trans (Multiset.cons_swap ..)

/-- What moves along with a vertex is not in the child that it moves into. -/
theorem Inward.nodes_cutAt {t : Tree} (hs : t.Sound) {b inner : Branch} {v cv : LocalVertex}
    {record : VertexRecord} (h : t.Inward b inner v cv record) :
    ∃ rest, t.nodes = b.node ::ₘ inner.node ::ₘ (nestedNodes (b.inside.branchAt? v) + rest)
      ∧ (t.cutAt b.cluster.id v).nodes = b.node.cut v ::ₘ inner.node ::ₘ rest := by
  obtain ⟨rest0, hnodes⟩ := mem_nodes_of_find? hs.distinct h.around h.within h.child
  obtain ⟨rest1, hrest1, hcut⟩ := hs.distinct.nodes_cutAt hnodes
    (hs.nodes _ (node_mem_of_find? h.around)).keys v h.around
  have hinner : inner.node ∈ rest1 := by
    have hmem : inner.node ∈ nestedNodes (b.inside.branchAt? v) + rest1 :=
      hrest1 ▸ Multiset.mem_cons_self ..
    rcases Multiset.mem_add.mp hmem with hmem | hmem
    · cases hv : b.inside.branchAt? v with
      | none => rw [hv] at hmem; exact absurd hmem (Multiset.notMem_zero _)
      | some d =>
          rw [hv] at hmem
          exact absurd (Multiset.mem_map_of_mem Node.id hmem)
            (hs.distinct.child_notMem_sibling h.around h.child h.ne hv)
    · exact hmem
  obtain ⟨rest2, rfl⟩ := Multiset.exists_cons_of_mem hinner
  exact ⟨rest2, by rw [hnodes, hrest1, Multiset.add_cons], hcut⟩

/-- A move inward changes the two clusters, and no other. -/
theorem nodes_lower {t : Tree} (hs : t.Sound) {b inner : Branch} {v cv : LocalVertex}
    {record : VertexRecord} (h : t.Inward b inner v cv record) (routes : Routes) :
    ∃ rest, t.nodes = b.node ::ₘ inner.node ::ₘ rest
      ∧ (t.lower v cv routes b inner).nodes
        = b.lowered t.config v cv ::ₘ b.sunk t.config inner v cv routes record ::ₘ rest := by
  obtain ⟨rest, hnodes, hcut⟩ := h.nodes_cutAt hs
  have hd : (t.cutAt b.cluster.id v).Distinct := (hs.cutAt ..).distinct
  have hout := hd.nodes_mapStorage hcut (fun s => s.attachLinks (b.outward v cv))
  have hids : t.ids.Nodup := hs.distinct
  rw [ids, hnodes, Multiset.map_cons, Multiset.map_cons] at hids
  refine ⟨_, hnodes, ?_⟩
  rw [lower, h.vertex]
  exact nodes_arrive hout record _ hids _

/-- What moves along with a vertex is not the cluster that it moves into. -/
theorem Outward.nodes_cutAt {t : Tree} (hs : t.Sound) {b inner : Branch} {v cv : LocalVertex}
    {record : VertexRecord} (h : t.Outward inner b cv v record) (f : Storage → Storage) :
    ∃ rest, t.nodes = b.node ::ₘ inner.node ::ₘ (nestedNodes (inner.inside.branchAt? v) + rest)
      ∧ ((t.mapStorage b.cluster.id f).cutAt inner.cluster.id v).nodes
        = b.node.mapStorage f ::ₘ inner.node.cut v ::ₘ rest := by
  obtain ⟨rest0, hnodes⟩ := mem_nodes_of_find? hs.distinct h.around h.within h.child
  have hv := hs.distinct.branchAt?_of_child h.around (hs.nodes _ (node_mem_of_find? h.around)).keys
    h.within h.child
  have hnot := hs.distinct.notMem_child h.around hv
  have hfind := hs.distinct.find?_mapCluster (f := fun k => { k with storage := f k.storage })
    (fun _ => rfl) h.within hnot
  have hout := hs.distinct.nodes_mapStorage hnodes f
  rw [Multiset.cons_swap] at hout
  obtain ⟨rest1, hrest1, hcut⟩ := (hs.distinct.mapStorage b.cluster.id f).nodes_cutAt hout
    (hs.nodes _ (node_mem_of_find? h.within)).keys v hfind
  have houter : b.node.mapStorage f ∈ rest1 := by
    have hmem : b.node.mapStorage f ∈ nestedNodes (inner.inside.branchAt? v) + rest1 :=
      hrest1 ▸ Multiset.mem_cons_self ..
    rcases Multiset.mem_add.mp hmem with hmem | hmem
    · cases hw : inner.inside.branchAt? v with
      | none => rw [hw] at hmem; exact absurd hmem (Multiset.notMem_zero _)
      | some d =>
          rw [hw] at hmem
          have hid : b.cluster.id ∈ d.ids := Multiset.mem_map_of_mem Node.id hmem
          refine absurd ?_ hnot
          rw [Branch.ids_eq, Multiset.mem_cons, Forest.ids, Forest.nodes_eraseAt inner.inside v, hw,
            Multiset.map_add]
          exact Or.inr (Multiset.mem_add.mpr (Or.inl hid))
    · exact hmem
  obtain ⟨rest2, rfl⟩ := Multiset.exists_cons_of_mem houter
  refine ⟨rest2, ?_, hcut.trans (Multiset.cons_swap ..)⟩
  rw [Multiset.add_cons] at hrest1
  rw [hnodes, (Multiset.cons_inj_right _).mp hrest1]

/-- A move outward changes the two clusters, and no other. -/
theorem nodes_raise {t : Tree} (hs : t.Sound) {b inner : Branch} {v cv : LocalVertex}
    {record : VertexRecord} (h : t.Outward inner b cv v record) :
    ∃ rest, t.nodes = b.node ::ₘ inner.node ::ₘ rest
      ∧ (t.raise cv v inner b).nodes
        = b.raised t.config inner cv v record ::ₘ inner.drained t.config v ::ₘ rest := by
  obtain ⟨rest, hnodes, hcut⟩ := h.nodes_cutAt hs
    (fun s => s.withdrawAt (GlobalEdge.touches (inner.travelling v)) cv)
  have hids : t.ids.Nodup := hs.distinct
  rw [ids, hnodes, Multiset.map_cons, Multiset.map_cons, Multiset.cons_swap] at hids
  rw [Multiset.cons_swap] at hcut
  refine ⟨_, hnodes, ?_⟩
  rw [raise, h.vertex]
  exact (nodes_arrive hcut record _ hids _).trans (Multiset.cons_swap ..)

end Tree

end NestedGraph
