import NestedGraph.Proofs.Checks
import NestedGraph.Proofs.Relocation

/-! # Moves — what a move that succeeds leaves behind

    A move that passed its checks has a route for each edge that comes in,
    and what it attaches joins two different live vertices.  So it keeps
    the tree sound, and it changes neither the ids nor the configuration. -/

namespace NestedGraph

/-! ## Routes -/

namespace Branch

/-- Routes lead each edge asked for to the representative of its end. -/
theorem of_routes_eq_ok {b : Branch} {moving : List GlobalVertex} {es : List GlobalEdge}
    {routes : Routes} (h : b.routes moving es = .ok routes) :
    routes.map Prod.fst = es
      ∧ ∀ route ∈ routes, (route.1.farEnd? moving).bind b.representative? = some route.2 := by
  induction es generalizing routes with
  | nil =>
      obtain rfl := Except.ok.inj h
      exact ⟨rfl, fun _ hmem => nomatch hmem⟩
  | cons e rest ih =>
      rw [Branch.routes] at h
      split at h
      · rename_i w hw
        cases hr : b.routes moving rest with
        | error err => rw [hr] at h; exact nomatch h
        | ok tail =>
            rw [hr] at h
            obtain rfl := Except.ok.inj h
            obtain ⟨hmap, hall⟩ := ih hr
            refine ⟨congrArg (e :: ·) hmap, fun route hmem => ?_⟩
            rcases List.mem_cons.mp hmem with rfl | hmem
            · exact hw
            · exact hall route hmem
      · exact nomatch h

/-- There are routes when each end is found. -/
theorem exists_routes {b : Branch} {moving : List GlobalVertex} {es : List GlobalEdge}
    (h : ∀ e ∈ es, ∃ w, (e.farEnd? moving).bind b.representative? = some w) :
    ∃ routes, b.routes moving es = .ok routes := by
  induction es with
  | nil => exact ⟨[], rfl⟩
  | cons e rest ih =>
      obtain ⟨w, hw⟩ := h e (List.mem_cons_self ..)
      obtain ⟨routes, hroutes⟩ := ih (fun e' he' => h e' (List.mem_cons_of_mem _ he'))
      rw [Branch.routes, hw, hroutes]
      exact ⟨_, rfl⟩

end Branch

namespace Routes

theorem mem_of_target? {routes : Routes} {e : GlobalEdge} {w : LocalVertex}
    (h : routes.target? e = some w) : ∃ route ∈ routes, route.1.same e = true ∧ route.2 = w := by
  obtain ⟨route, hfind, rfl⟩ := Option.map_eq_some_iff.mp h
  exact ⟨route, List.mem_reverse.mp (List.mem_of_find?_eq_some hfind),
    List.find?_some (p := fun r : GlobalEdge × LocalVertex => r.1.same e) hfind, rfl⟩

theorem exists_target? {routes : Routes} {e : GlobalEdge} (h : e ∈ routes.map Prod.fst) :
    ∃ w, routes.target? e = some w := by
  obtain ⟨route, hmem, rfl⟩ := List.mem_map.mp h
  have hsome : (routes.reverse.find? (fun r => r.1.same route.1)).isSome = true := by
    rw [List.find?_isSome]
    exact ⟨route, List.mem_reverse.mpr hmem, by simp [GlobalEdge.same]⟩
  obtain ⟨r, hr⟩ := Option.isSome_iff_exists.mp hsome
  exact ⟨r.2, by rw [target?, hr]; rfl⟩

end Routes

/-- Every edge that is asked for in routes is led somewhere. -/
theorem Branch.exists_target? {b : Branch} {moving : List GlobalVertex} {records : List EdgeRecord}
    {routes : Routes} (h : b.routes moving (records.flatMap EdgeRecord.globals) = .ok routes) :
    ∀ r ∈ records, ∀ x ∈ r.carried, ∃ w, routes.target? x.global = some w := by
  intro r hr x hx
  refine Routes.exists_target? ?_
  rw [(of_routes_eq_ok h).1]
  exact List.mem_flatMap.mpr ⟨r, hr, List.mem_map_of_mem hx⟩

/-! ## Moves keep trees sound -/

namespace Tree

theorem config_lower (t : Tree) (v cv : LocalVertex) (routes : Routes) (b inner : Branch) :
    (t.lower v cv routes b inner).config = t.config := by
  rw [lower]
  split
  · rfl
  · simp only [config_mark, config_mapStorage, config_receive, config_cutAt]

theorem nextClusterId_lower (t : Tree) (v cv : LocalVertex) (routes : Routes)
    (b inner : Branch) : (t.lower v cv routes b inner).nextClusterId = t.nextClusterId := by
  rw [lower]
  split
  · rfl
  · simp only [nextClusterId_mark, nextClusterId_mapStorage, nextClusterId_receive,
      nextClusterId_cutAt]

theorem config_raise (t : Tree) (cv v : LocalVertex) (inner b : Branch) :
    (t.raise cv v inner b).config = t.config := by
  rw [raise]
  split
  · rfl
  · simp only [config_mark, config_mapStorage, config_receive, config_cutAt]

theorem nextClusterId_raise (t : Tree) (cv v : LocalVertex) (inner b : Branch) :
    (t.raise cv v inner b).nextClusterId = t.nextClusterId := by
  rw [raise]
  split
  · rfl
  · simp only [nextClusterId_mark, nextClusterId_mapStorage, nextClusterId_receive,
      nextClusterId_cutAt]

theorem root_mapStorage (t : Tree) (c : ClusterId) (f : Storage → Storage) :
    (t.mapStorage c f).root = t.root := root_update (fun _ hb => hb)

theorem root_mark (t : Tree) (c : ClusterId) : (t.mark c).root = t.root :=
  root_mapCluster t c (Cluster.id_mark t.config)

theorem root_lower (t : Tree) (v cv : LocalVertex) (routes : Routes) (b inner : Branch) :
    (t.lower v cv routes b inner).root = t.root := by
  rw [lower]
  split
  · rfl
  · dsimp only
    rw [root_mark, root_mark, root_mapStorage, root_receive, root_mapStorage, root_cutAt]

theorem root_raise (t : Tree) (cv v : LocalVertex) (inner b : Branch) :
    (t.raise cv v inner b).root = t.root := by
  rw [raise]
  split
  · rfl
  · dsimp only
    rw [root_mark, root_mark, root_mapStorage, root_receive, root_cutAt, root_mapStorage]

/-- What arrives in a child with a moved vertex may be attached there. -/
theorem fit_incoming {config : Config} {inner : Branch} (hi : inner.node.Sound config)
    {records : List EdgeRecord} {routes : Routes} (record : VertexRecord)
    (hroutes : ∀ e w, routes.target? e = some w → inner.cluster.storage.hasVertex w = true)
    {l : Link} (hl : l ∈ Branch.incoming records routes inner.nextVertex) :
    (inner.cluster.storage.addVertex record).Fit l := by
  obtain ⟨r, -, x, -, w, hw, rfl⟩ := Branch.mem_incoming hl
  have hlive := hroutes _ w hw
  have hne : inner.nextVertex ≠ w := by
    rintro rfl
    obtain ⟨r', hr'⟩ := Storage.hasVertex_iff.mp hlive
    rw [show inner.cluster.storage.vertex? inner.nextVertex = none from
      SlotStore.get?_nextHandle hi.storage.vertices] at hr'
    exact nomatch hr'
  exact ⟨hne, (Storage.hasVertex_addVertex hi.storage.vertices record _).mpr (Or.inl rfl),
    (Storage.hasVertex_addVertex hi.storage.vertices record _).mpr (Or.inr hlive),
    List.cons_ne_nil _ _⟩

/-- What arrives in a cluster with a vertex from a child may be attached
    there. -/
theorem fit_raised {config : Config} {b inner : Branch} (hb : b.node.Sound config)
    (hi : inner.node.Sound config) {cv v : LocalVertex} (record : VertexRecord)
    (hcv : b.cluster.storage.hasVertex cv = true) (moving : List GlobalVertex) {l : Link}
    (hl : l ∈ inner.left v b.nextVertex cv ++ b.lifted moving b.nextVertex cv) :
    ((b.cluster.storage.withdrawAt (GlobalEdge.touches moving) cv).addVertex record).Fit l := by
  have hhas : ∀ u, ((b.cluster.storage.withdrawAt (GlobalEdge.touches moving) cv).addVertex
      record).hasVertex u = true ↔ u = b.nextVertex ∨ b.cluster.storage.hasVertex u = true := by
    intro u
    have h := Storage.hasVertex_addVertex (hb.storage.withdrawAt (GlobalEdge.touches moving)
      cv).vertices record u
    rw [Storage.hasVertex_withdrawAt, Storage.vertices_withdrawAt] at h
    exact h
  have hne : ∀ u, b.cluster.storage.hasVertex u = true → b.nextVertex ≠ u := by
    rintro u hu rfl
    obtain ⟨r', hr'⟩ := Storage.hasVertex_iff.mp hu
    rw [show b.cluster.storage.vertex? b.nextVertex = none from
      SlotStore.get?_nextHandle hb.storage.vertices] at hr'
    exact nomatch hr'
  rcases List.mem_append.mp hl with hl | hl
  · obtain ⟨⟨w, r⟩, hmem, rfl⟩ := List.mem_map.mp hl
    obtain ⟨-, -, hfill⟩ := Storage.recordsAt_spec hi.storage hmem
    exact ⟨hne cv hcv, (hhas _).mpr (Or.inl rfl), (hhas _).mpr (Or.inr hcv), hfill⟩
  · obtain ⟨r, hmem, hfirst, -, hfill⟩ := Branch.mem_lifted hl
    obtain ⟨-, hw, -⟩ := Storage.recordsAt_spec hb.storage hmem
    refine ⟨?_, ?_, (hhas _).mpr (Or.inr hw), hfill⟩
    · rw [hfirst]
      exact hne _ hw
    · rw [hfirst]
      exact (hhas _).mpr (Or.inl rfl)

/-- The clusters of a move inward are sound afterwards. -/
theorem Inward.sound {t : Tree} (hs : t.Sound) {b inner : Branch} {v cv : LocalVertex}
    {record : VertexRecord} (h : t.Inward b inner v cv record) {routes : Routes}
    (hroutes : ∀ e w, routes.target? e = some w → inner.cluster.storage.hasVertex w = true) :
    (b.lowered t.config v cv).Sound t.config
      ∧ (b.sunk t.config inner v cv routes record).Sound t.config := by
  have hb := hs.nodes _ (node_mem_of_find? h.around)
  have hi := hs.nodes _ (node_mem_of_find? h.within)
  have hkeep : ∀ {s : Storage} {links : List Link} u, s.hasVertex u = true →
      (s.attachLinks links).hasVertex u = true := by
    intro s links u hu
    exact (Storage.hasVertex_attachLinks ..).trans hu
  constructor
  · -- The cluster that the vertex leaves.
    refine ((hb.cut v).mapStorage ?_ ?_ (fun u hu => hkeep u hu)).mark
    · exact (hb.storage.removeVertex v).attachLinks (fun l hl =>
        Branch.fit_outward hb.storage (hb.held _ h.child) h.ne hl)
    · exact (hb.fits.removeVertex v).attachLinks (hb.storage.listed.removeVertex v)
        (fun l hl => Branch.fits_outward hb.storage hb.fits hl)
  · -- The child that it arrives in.
    have hrec := hi.receive (hb.fits.vertex v record h.vertex) (b.inside.branchAt? v)
    refine (hrec.mapStorage ?_ ?_ (fun u hu => hkeep u hu)).mark
    · exact hrec.storage.attachLinks (fun l hl => fit_incoming hi record hroutes hl)
    · exact hrec.fits.attachLinks hrec.storage.listed (fun l hl =>
        Branch.fits_incoming (fun r hr => Branch.fits_inward hb.storage hb.fits hr) hl)

theorem cons_cons_eq_add (n m : Node) (rest : Multiset Node) :
    n ::ₘ m ::ₘ rest = {n, m} + rest := by
  rw [Multiset.insert_eq_cons, Multiset.cons_add, Multiset.singleton_add]

theorem Sound.lower {t : Tree} (hs : t.Sound) {b inner : Branch} {v cv : LocalVertex}
    {record : VertexRecord} (h : t.Inward b inner v cv record) {routes : Routes}
    (hroutes : ∀ e w, routes.target? e = some w → inner.cluster.storage.hasVertex w = true) :
    (t.lower v cv routes b inner).Sound := by
  obtain ⟨rest, hnodes, hlower⟩ := nodes_lower hs h routes
  obtain ⟨h1, h2⟩ := h.sound hs hroutes
  refine hs.replace {b.node, inner.node}
    {b.lowered t.config v cv, b.sunk t.config inner v cv routes record} 0
    (hnodes.trans (cons_cons_eq_add ..)) (hlower.trans (cons_cons_eq_add ..))
    (root_lower ..) (config_lower ..) (le_of_eq (nextClusterId_lower ..).symm) ?_
    Multiset.nodup_zero (fun c hc => absurd hc (Multiset.notMem_zero c)) ?_
  · simp [Branch.lowered, Branch.sunk]
  · intro n hn
    rcases Multiset.mem_cons.mp hn with rfl | hn
    · exact h1
    · rw [Multiset.mem_singleton.mp hn]
      exact h2

/-- The clusters of a move outward are sound afterwards. -/
theorem Outward.sound {t : Tree} (hs : t.Sound) {b inner : Branch} {v cv : LocalVertex}
    {record : VertexRecord} (h : t.Outward inner b cv v record) :
    (b.raised t.config inner cv v record).Sound t.config
      ∧ (inner.drained t.config v).Sound t.config := by
  have hb := hs.nodes _ (node_mem_of_find? h.around)
  have hi := hs.nodes _ (node_mem_of_find? h.within)
  let p := GlobalEdge.touches (inner.travelling v)
  have hw : (b.node.mapStorage (fun s => s.withdrawAt p cv)).Sound t.config := by
    refine hb.mapStorage (hb.storage.withdrawAt p cv) (hb.fits.withdrawAt p cv) (fun u hu => ?_)
    exact (Storage.hasVertex_withdrawAt ..).trans hu
  have hrec := hw.receive (hi.fits.vertex v record h.vertex) (inner.inside.branchAt? v)
  refine ⟨(hrec.mapStorage ?_ ?_ (fun u hu => ?_)).mark, (hi.cut v).mark⟩
  · exact hrec.storage.attachLinks (fun l hl =>
      fit_raised hb hi record (hb.held _ h.child) (inner.travelling v) hl)
  · refine hrec.fits.attachLinks hrec.storage.listed (fun l hl => ?_)
    rcases List.mem_append.mp hl with hl | hl
    · exact Branch.fits_left hi.storage hi.fits hl
    · exact Branch.fits_lifted hb.storage hb.fits hl
  · exact (Storage.hasVertex_attachLinks ..).trans hu

theorem Sound.raise {t : Tree} (hs : t.Sound) {b inner : Branch} {v cv : LocalVertex}
    {record : VertexRecord} (h : t.Outward inner b cv v record) : (t.raise cv v inner b).Sound := by
  obtain ⟨rest, hnodes, hraise⟩ := nodes_raise hs h
  obtain ⟨h1, h2⟩ := h.sound hs
  refine hs.replace {b.node, inner.node}
    {b.raised t.config inner cv v record, inner.drained t.config v} 0
    (hnodes.trans (cons_cons_eq_add ..)) (hraise.trans (cons_cons_eq_add ..))
    (root_raise ..) (config_raise ..) (le_of_eq (nextClusterId_raise ..).symm) ?_
    Multiset.nodup_zero (fun c hc => absurd hc (Multiset.notMem_zero c)) ?_
  · simp [Branch.raised, Branch.drained]
  · intro n hn
    rcases Multiset.mem_cons.mp hn with rfl | hn
    · exact h1
    · rw [Multiset.mem_singleton.mp hn]
      exact h2

/-! ## Moves that succeed -/

/-- A move inward that succeeds takes a vertex into the child that hangs on
    another one. -/
theorem of_moveIn {t : Tree} (hs : t.Sound) {c child : ClusterId} {v nv : LocalVertex} {t' : Tree}
    (h : t.moveIn c v child = .ok (t', nv)) :
    ∃ b inner cv record routes, t.Inward b inner v cv record ∧ b.cluster.id = c
      ∧ inner.cluster.id = child
      ∧ inner.routes (b.travelling v) ((b.inward v cv).flatMap EdgeRecord.globals) = .ok routes
      ∧ t' = t.lower v cv routes b inner ∧ nv = inner.nextVertex := by
  rw [moveIn] at h
  obtain ⟨cv, hcv, h⟩ := of_bind_eq_ok h
  obtain ⟨b, hb, h⟩ := of_bind_eq_ok h
  dsimp only at h
  split at h
  · exact nomatch h
  · rename_i hne
    obtain ⟨inner, hi, h⟩ := of_bind_eq_ok h
    obtain ⟨routes, hroutes, h⟩ := of_bind_eq_ok h
    obtain ⟨hfind, hlive⟩ := of_requireVertex hb
    obtain ⟨record, hrecord⟩ := Storage.hasVertex_iff.mp hlive
    obtain ⟨rfl, rfl⟩ := Prod.mk.inj (Except.ok.inj h)
    have hi := of_require hi
    obtain rfl := id_of_find? hfind
    obtain rfl := id_of_find? hi
    have hchild := of_vertexOfChild hs.distinct hcv
    rw [children_of_find? hfind] at hchild
    exact ⟨b, inner, cv, record, routes, ⟨hfind, hi, hchild, hrecord, hne⟩, rfl, rfl, hroutes,
      rfl, rfl⟩

/-- A move outward that succeeds takes a vertex into the cluster around. -/
theorem of_moveOut {t : Tree} (hs : t.Sound) {c : ClusterId} {v nv : LocalVertex} {t' : Tree}
    (h : t.moveOut c v = .ok (t', nv)) :
    ∃ b inner cv record, t.Outward inner b cv v record ∧ inner.cluster.id = c
      ∧ t' = t.raise cv v inner b ∧ nv = b.nextVertex := by
  rw [moveOut] at h
  obtain ⟨inner, hi, h⟩ := of_bind_eq_ok h
  obtain ⟨hfind, hlive⟩ := of_requireVertex hi
  split at h
  · exact nomatch h
  · rename_i parent cv hplace
    split at h
    · exact nomatch h
    · rename_i b hb
      obtain ⟨record, hrecord⟩ := Storage.hasVertex_iff.mp hlive
      obtain ⟨rfl, rfl⟩ := Prod.mk.inj (Except.ok.inj h)
      obtain rfl := id_of_find? hfind
      obtain rfl := id_of_find? hb
      have hchild := hs.distinct.place?_eq_some_iff.mp hplace
      rw [children_of_find? hb] at hchild
      exact ⟨b, inner, cv, record, ⟨hfind, hb, hchild, hrecord⟩, rfl, rfl, rfl⟩

/-- Where a route leads is a live vertex. -/
theorem Node.Sound.hasVertex_of_target? {config : Config} {b : Branch} (hb : b.node.Sound config)
    {moving : List GlobalVertex} {es : List GlobalEdge} {routes : Routes}
    (h : b.routes moving es = .ok routes) (e : GlobalEdge) (w : LocalVertex)
    (hw : routes.target? e = some w) : b.cluster.storage.hasVertex w = true := by
  obtain ⟨route, hmem, -, rfl⟩ := Routes.mem_of_target? hw
  obtain ⟨g, -, hg⟩ := Option.bind_eq_some_iff.mp ((Branch.of_routes_eq_ok h).2 route hmem)
  exact Node.Sound.hasVertex_of_representative? hb hg

theorem Sound.moveIn {t : Tree} (hs : t.Sound) {c child : ClusterId} {v : LocalVertex}
    {result : Tree × LocalVertex} (h : t.moveIn c v child = .ok result) : result.1.Sound := by
  obtain ⟨b, inner, cv, record, routes, hin, -, -, hroutes, heq, -⟩ := of_moveIn hs h
  rw [heq]
  exact hs.lower hin (Node.Sound.hasVertex_of_target? (hs.nodes _ (node_mem_of_find? hin.within))
    hroutes)

theorem Sound.moveOut {t : Tree} (hs : t.Sound) {c : ClusterId} {v : LocalVertex}
    {result : Tree × LocalVertex} (h : t.moveOut c v = .ok result) : result.1.Sound := by
  obtain ⟨b, inner, cv, record, hout, -, heq, -⟩ := of_moveOut hs h
  rw [heq]
  exact hs.raise hout

end Tree

end NestedGraph
