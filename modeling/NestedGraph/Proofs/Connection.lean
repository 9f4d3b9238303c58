import NestedGraph.Proofs.Meeting
import NestedGraph.Proofs.Transfers

/-! # Connection — one edge more

    An edge that is made between two vertices is carried by the one edge
    between what represents them where they meet, after whatever that
    carries already.  All else in the tree stays, but for the change flag of
    the cluster that the edge is in. -/

namespace NestedGraph

/-! ## One edge more -/

namespace Storage

variable {s s' : Storage} {e : LocalEdge}

theorem link?_attach_of_ne (hs : s.Listed) (a b : LocalVertex) (properties : List Value)
    (carried : List CarriedEdge) (hne : e ≠ s.attachHandle a b) :
    (s.attach a b properties carried).link? e = s.link? e := by
  rw [attachHandle] at hne
  rw [attach]
  cases hk : s.edgeBetween? a b with
  | some k =>
      rw [hk] at hne
      exact (link?_modifyEdge ..).trans (if_neg hne)
  | none =>
      rw [hk] at hne
      exact (link?_addEdge hs ..).trans (if_neg hne)

/-- What is put onto the edge that is there is carried last. -/
theorem link?_attach_of_some (hs : s.Listed) {a b : LocalVertex}
    (he : s.edgeBetween? a b = some e) (properties : List Value) (carried : List CarriedEdge) :
    ∃ l, s.link? e = some l ∧ (s.attach a b properties carried).link? e
      = some { l with record := { l.record with carried := l.record.carried ++ carried } } := by
  obtain ⟨l, hl, -⟩ := edgeBetween?_of_some hs he
  refine ⟨l, hl, ?_⟩
  rw [attach, he]
  show (s.modifyEdge e _).link? e = _
  rw [link?_modifyEdge, if_pos rfl, hl]
  rfl

theorem link?_attach_of_none (hs : s.Listed) {a b : LocalVertex} (he : s.edgeBetween? a b = none)
    (properties : List Value) (carried : List CarriedEdge) :
    s.link? s.edges.nextHandle = none
      ∧ (s.attach a b properties carried).link? s.edges.nextHandle
        = some ⟨a, b, properties, carried⟩ := by
  refine ⟨SlotStore.get?_nextHandle hs.tidy, ?_⟩
  rw [attach, he]
  exact (link?_addEdge hs ..).trans (if_pos rfl)

/-- Edges other than one are listed at a vertex in the order in which they were. -/
theorem filter_incident_of_recent
    (hrecent : s'.recent.filter (fun k => decide (k ≠ e)) = s.recent.filter (fun k => decide (k ≠ e)))
    (hlink : ∀ k, k ≠ e → s'.link? k = s.link? k) (v : LocalVertex) :
    (s'.incident v).filter (fun k => decide (k ≠ e))
      = (s.incident v).filter (fun k => decide (k ≠ e)) := by
  have hwhere : ∀ p : Link → Bool, (s'.recentWhere p).filter (fun k => decide (k ≠ e))
      = (s.recentWhere p).filter (fun k => decide (k ≠ e)) := by
    intro p
    rw [recentWhere, recentWhere, List.filter_comm, hrecent, List.filter_comm, List.filter_filter,
      List.filter_filter]
    refine List.filter_congr (fun k _ => ?_)
    by_cases hk : k = e
    · simp [hk]
    · simp [hk, hlink k hk]
  rw [incident, incident, List.filter_append, List.filter_append, hwhere, hwhere]

theorem filter_incident_attach (hs : s.Listed) (a b : LocalVertex) (properties : List Value)
    (carried : List CarriedEdge) (v : LocalVertex) :
    ((s.attach a b properties carried).incident v).filter
        (fun k => decide (k ≠ s.attachHandle a b))
      = (s.incident v).filter (fun k => decide (k ≠ s.attachHandle a b)) := by
  refine filter_incident_of_recent ?_ (fun k => link?_attach_of_ne hs a b properties carried) v
  rw [attach, attachHandle]
  cases s.edgeBetween? a b with
  | some k => rfl
  | none => exact List.filter_cons_of_neg (by simp)

end Storage

namespace Tree

variable {t : Tree} {count : UInt64} {c d l o o' : ClusterId} {a b v : LocalVertex}
  {x y z : GlobalVertex} {branch : Branch}

/-! ## What an edge changes -/

/-- No cluster comes, goes or moves. -/
structure SameShape (t t' : Tree) : Prop where
  live : ∀ d, t'.isLive d = t.isLive d
  children : ∀ d, t'.children d = t.children d
  path : ∀ d, t'.path d = t.path d

theorem Distinct.sameShape_mapCluster (hd : t.Distinct) (c : ClusterId) {f : Cluster → Cluster}
    (hf : ∀ k : Cluster, (f k).id = k.id) : t.SameShape (t.mapCluster c f) := by
  have hnodes := hd.nodes_mapCluster c hf
  have hids := hd.ids_mapCluster c hf
  have hd' := hd.mapCluster c hf
  constructor
  case live =>
    intro d
    rw [Bool.eq_iff_iff, isLive_iff, isLive_iff, hids]
  case children =>
    intro d
    by_cases hlive : d ∈ t.ids
    · obtain ⟨n, hn, rfl⟩ := Multiset.mem_map.mp hlive
      have hn' : n.changeAt c f ∈ (t.mapCluster c f).nodes :=
        hnodes ▸ Multiset.mem_map_of_mem _ hn
      have hchildren := hd'.children_of_mem hn'
      rwa [Node.id_changeAt c hf, Node.entries_changeAt, ← hd.children_of_mem hn] at hchildren
    · rw [children_of_dead hlive, children_of_dead (hids ▸ hlive)]
  case path =>
    intro d
    by_cases hlive : d ∈ (t.mapCluster c f).ids
    · refine hd.path_of_entries hd' (root_mapCluster t c hf) (fun n' hn' => ?_) hlive
      obtain ⟨n, hn, rfl⟩ := Multiset.mem_map.mp (hnodes ▸ hn')
      refine ⟨n, hn, (Node.id_changeAt c hf n).symm, fun entry hentry => ?_⟩
      rwa [Node.entries_changeAt] at hentry
    · rw [path_of_dead hlive, path_of_dead (hids ▸ hlive)]

theorem Distinct.cluster_mapCluster_of_ne (hd : t.Distinct) {f : Cluster → Cluster}
    (hf : ∀ k : Cluster, (f k).id = k.id) (hne : d ≠ c) :
    ((t.mapCluster c f).find? d).map Branch.cluster = (t.find? d).map Branch.cluster := by
  have hids := hd.ids_mapCluster c hf
  by_cases hlive : d ∈ t.ids
  · obtain ⟨n, hn, rfl⟩ := Multiset.mem_map.mp hlive
    have hn' : n ∈ (t.mapCluster c f).nodes := by
      rw [hd.nodes_mapCluster c hf, ← Node.changeAt_of_ne f hne]
      exact Multiset.mem_map_of_mem _ hn
    obtain ⟨b, hb, hnode⟩ := hd.find?_of_mem hn
    obtain ⟨b', hb', hnode'⟩ := (hd.mapCluster c hf).find?_of_mem hn'
    rw [hb, hb']
    exact congrArg some (congrArg Node.cluster (hnode'.trans hnode.symm))
  · have hdead : ∀ {t' : Tree}, d ∉ t'.ids → t'.find? d = none := by
      intro t' hd'
      by_contra hfind
      obtain ⟨b, hb⟩ := Option.ne_none_iff_exists'.mp hfind
      exact hd' (mem_ids_iff.mpr ⟨b, hb⟩)
    rw [hdead hlive, hdead (hids ▸ hlive)]

/-! What is read from a cluster depends on the links and vertices in its storage. -/

section Reads

variable {t' : Tree} {b' branch' : Branch} {e : LocalEdge}

theorem edgeBetween?_of_find? (hb : t.find? c = some branch) (a b : LocalVertex) :
    t.edgeBetween? c a b = branch.cluster.storage.edgeBetween? a b := by
  rw [edgeBetween?, storage?, hb]
  rfl

theorem incident_of_find? (hb : t.find? c = some branch) (v : LocalVertex) :
    t.incident c v = branch.cluster.storage.incident v := by
  rw [incident, storage?, hb]
  rfl

theorem edge_congr (hb : t.find? c = some branch) (hb' : t'.find? c = some branch')
    (hlink : branch'.cluster.storage.link? e = branch.cluster.storage.link? e) :
    t'.endpoints? c e = t.endpoints? c e ∧ t'.edgeRecord c e = t.edgeRecord c e := by
  refine ⟨?_, ?_⟩
  · rw [endpoints?, endpoints?, storage?, storage?, hb, hb']
    show (branch'.cluster.storage.link? e).map _ = (branch.cluster.storage.link? e).map _
    rw [hlink]
  · rw [edgeRecord, edgeRecord, require_of_find? hb', require_of_find? hb, ok_bind, ok_bind,
      Storage.edgeRecord?, Storage.edgeRecord?, hlink]

theorem vertex_congr (hb : t.find? c = some branch) (hb' : t'.find? c = some branch')
    (hvertices : branch'.cluster.storage.vertices = branch.cluster.storage.vertices) :
    t'.vertices c = t.vertices c ∧ ∀ v, t'.vertexRecord c v = t.vertexRecord c v := by
  refine ⟨?_, fun v => ?_⟩
  · rw [vertices_of_find? hb', vertices_of_find? hb, hvertices]
  · rw [vertexRecord, vertexRecord, require_of_find? hb', require_of_find? hb, ok_bind, ok_bind,
      Storage.vertex?, Storage.vertex?, hvertices]

section Attach

variable {properties : List Value} {carried : List CarriedEdge}
  (hb : t.find? c = some branch) (hb' : t'.find? c = some branch')
  (hstorage : branch'.cluster.storage = branch.cluster.storage.attach a b properties carried)
include hb hb' hstorage

/-- The edge that is there keeps its ends, and carries what is put onto it
    last. -/
theorem joined_of_attach (hlisted : branch.cluster.storage.Listed)
    (he : t.edgeBetween? c a b = some e) :
    branch.cluster.storage.attachHandle a b = e
      ∧ t'.endpoints? c (branch.cluster.storage.attachHandle a b)
        = t.endpoints? c (branch.cluster.storage.attachHandle a b)
      ∧ ∃ r, t.edgeRecord c (branch.cluster.storage.attachHandle a b) = .ok r
        ∧ t'.edgeRecord c (branch.cluster.storage.attachHandle a b)
          = .ok { r with carried := r.carried ++ carried } := by
  rw [edgeBetween?_of_find? hb] at he
  obtain ⟨l, hl, hl'⟩ := Storage.link?_attach_of_some hlisted he properties carried
  obtain rfl : branch.cluster.storage.attachHandle a b = e := by
    rw [Storage.attachHandle, he]
    rfl
  rw [← hstorage] at hl'
  refine ⟨rfl, ?_, l.record, edgeRecord_of_find? hb hl, edgeRecord_of_find? hb' hl'⟩
  rw [endpoints?_of_find? hb' hl', endpoints?_of_find? hb hl]

/-- Where there is no edge, the one that comes was not valid before. -/
theorem created_of_attach (hs : t.Sound) (he : t.edgeBetween? c a b = none) :
    branch.cluster.storage.attachHandle a b ∉ t.edges c
      ∧ t'.endpoints? c (branch.cluster.storage.attachHandle a b) = some (a, b)
      ∧ t'.edgeRecord c (branch.cluster.storage.attachHandle a b) = .ok ⟨properties, carried⟩ := by
  obtain rfl := id_of_find? hb
  have hn := node_mem_of_find? hb
  have hlisted : branch.cluster.storage.Listed := (hs.nodes _ hn).storage.listed
  rw [edgeBetween?_of_find? hb] at he
  obtain ⟨hdead, hl'⟩ := Storage.link?_attach_of_none hlisted he properties carried
  have hhandle : branch.cluster.storage.attachHandle a b
      = branch.cluster.storage.edges.nextHandle := by
    rw [Storage.attachHandle, he]
    rfl
  rw [hhandle]
  rw [← hstorage] at hl'
  refine ⟨fun hmem => ?_, endpoints?_of_find? hb' hl', edgeRecord_of_find? hb' hl'⟩
  obtain ⟨l, hl⟩ := (hs.distinct.mem_edges hn).mp hmem
  cases hdead.symm.trans hl

end Attach

end Reads

/-- A cluster gains a global edge between two of its vertices, on edge `e`. -/
structure GainsEdge (t t' : Tree) (l : ClusterId) (a b : LocalVertex) (e : LocalEdge)
    (global : GlobalEdge) : Prop extends t.SameShape t' where
  /-- The edge that is there carries it last. -/
  joined : ∀ k, t.edgeBetween? l a b = some k → e = k ∧ t'.endpoints? l e = t.endpoints? l e
    ∧ ∃ r, t.edgeRecord l e = .ok r ∧ t'.edgeRecord l e
      = .ok { r with carried := r.carried ++ [t.config.newCarried global] }
  /-- Where there is none, there is a new one, with initial properties. -/
  created : t.edgeBetween? l a b = none → e ∉ t.edges l ∧ t'.endpoints? l e = some (a, b)
    ∧ t'.edgeRecord l e = .ok ⟨t.config.edge.initialValues, [t.config.newCarried global]⟩
  others : ∀ k, k ≠ e → t'.endpoints? l k = t.endpoints? l k
    ∧ t'.edgeRecord l k = t.edgeRecord l k
  incident : ∀ v, (t'.incident l v).filter (fun k => decide (k ≠ e))
    = (t.incident l v).filter (fun k => decide (k ≠ e))
  vertices : t'.vertices l = t.vertices l ∧ ∀ v, t'.vertexRecord l v = t.vertexRecord l v
  changed : t'.isChanged l = (t.isChanged l || !t.isCopyMode l)
  mode : t'.isCopyMode l = t.isCopyMode l
  properties : ∀ type, type ≠ changedFlag → t'.clusterProperty type l = t.clusterProperty type l
  elsewhere : ∀ d, d ≠ l → (t'.find? d).map Branch.cluster = (t.find? d).map Branch.cluster
  config : t'.config = t.config
  next : t'.nextClusterId = t.nextClusterId

section Gains

variable {t' : Tree} {e k : LocalEdge} {global g : GlobalEdge}

theorem Distinct.mem_carried_iff (hd : t.Distinct) :
    g ∈ t.carried c e ↔ ∃ r, t.edgeRecord c e = .ok r ∧ g ∈ r.globals := by
  constructor
  · intro hg
    obtain ⟨n, hn, rfl, hcarried⟩ := exists_node_of_carried hg
    obtain ⟨l, hl, hmem⟩ := Storage.mem_carried.mp hcarried
    obtain ⟨b, hb, rfl⟩ := hd.find?_of_mem hn
    exact ⟨l.record, edgeRecord_of_find? hb hl, hmem⟩
  · rintro ⟨r, hr, hg⟩
    obtain ⟨n, hn, rfl, l, hl, rfl⟩ := exists_node_of_edgeRecord hr
    rw [hd.carried_of_mem hn]
    exact Storage.mem_carried.mpr ⟨l, hl, hg⟩

theorem Distinct.id_mem_names (hd : t.Distinct) (hg : g ∈ t.carried c e) : g.id ∈ t.names := by
  obtain ⟨i, hi⟩ := List.mem_iff_getElem?.mp hg
  refine hd.mem_names_iff_idAt?.mpr ⟨.edge c e i, ?_⟩
  rw [idAt?, hi]
  rfl

/-- What is carried elsewhere was carried there before. -/
theorem GainsEdge.of_mem_carried (h : t.GainsEdge t' l a b e global) (hd : t.Distinct)
    (hd' : t'.Distinct) (hg : g ∈ t'.carried d k) : (d = l ∧ k = e) ∨ g ∈ t.carried d k := by
  by_cases hl : d = l
  · subst hl
    by_cases hk : k = e
    · exact Or.inl ⟨rfl, hk⟩
    · rw [hd'.mem_carried_iff, (h.others k hk).2] at hg
      exact Or.inr (hd.mem_carried_iff.mpr hg)
  · have hstorage : t'.storage? d = t.storage? d := by
      have hcluster := congrArg (Option.map Cluster.storage) (h.elsewhere d hl)
      rwa [Option.map_map, Option.map_map] at hcluster
    rw [carried, hstorage] at hg
    exact Or.inr hg

/-- The new edge is found by its name, from every cluster around it. -/
theorem GainsEdge.edgeOwner? (h : t.GainsEdge t' l a b e global) (hd : t.Distinct) (hs' : t'.Sound)
    (hnew : global.id ∉ t.names) (hc : t.isLive c = true) (hin : t.isAncestor c l = true) :
    t'.edgeOwner? c global = some (l, e) := by
  have hd' := hs'.distinct
  have hmem : global ∈ t'.carried l e := by
    rw [hd'.mem_carried_iff]
    cases hk : t.edgeBetween? l a b with
    | some k =>
        obtain ⟨-, -, r, -, hr⟩ := h.joined k hk
        exact ⟨_, hr, by simp [EdgeRecord.globals, Config.newCarried]⟩
    | none =>
        obtain ⟨-, -, hr⟩ := h.created hk
        exact ⟨_, hr, by simp [EdgeRecord.globals, Config.newCarried]⟩
  obtain ⟨b, hb⟩ := exists_find?_of_isLive ((h.live c).trans hc)
  obtain ⟨n, hn, rfl, hcarried⟩ := exists_node_of_carried hmem
  have hin' : t'.isAncestor c n.id = true := by
    rw [isAncestor, h.path]
    exact hin
  obtain ⟨o, k, howner⟩ := Branch.exists_edgeOwner? (hs'.mem_nodes_of_isAncestor hb hn hin') hcarried
    rfl
  -- Whatever has the id is the new edge.
  obtain ⟨m, hm, rfl, g, hg, hid⟩ := Branch.of_edgeOwner? howner
  rw [← hd'.carried_of_mem (Multiset.mem_of_le (nodes_le_of_find? hb) hm)] at hg
  rw [edgeOwner?, hb]
  rcases h.of_mem_carried hd hd' hg with ⟨hl, rfl⟩ | hold
  · exact hl ▸ howner
  · exact absurd (hid ▸ hd.id_mem_names hold) hnew

end Gains

end Tree

namespace Graph

variable {g : Graph} {c : ClusterId} {a b : LocalVertex} {x y : GlobalVertex} {branch holder : Branch}

/-! ## The edge that is made -/

/-- Storage and flag of the cluster change in one step. -/
theorem tree_putEdge (g : Graph) (c : ClusterId) (a b : LocalVertex) (global : GlobalEdge) :
    (g.putEdge c a b global).tree = g.tree.mapCluster c (fun k =>
      ({ k with
        storage := k.storage.attach a b g.tree.config.edge.initialValues
          [g.tree.config.newCarried global] } : Cluster).mark g.tree.config) :=
  Tree.update_update (f := fun k => k.mapStorage (fun s =>
      s.attach a b g.tree.config.edge.initialValues [g.tree.config.newCarried global]))
    (g := fun k => { k with cluster := k.cluster.mark g.tree.config }) (fun _ hid => hid) g.tree

theorem gainsEdge_putEdge (hs : g.tree.Sound) (hb : g.tree.find? c = some branch)
    (a b : LocalVertex) (global : GlobalEdge) :
    g.tree.GainsEdge (g.putEdge c a b global).tree c a b
      (branch.cluster.storage.attachHandle a b) global := by
  obtain rfl := Tree.id_of_find? hb
  have hd := hs.distinct
  have hn := hs.nodes _ (Tree.node_mem_of_find? hb)
  have hlisted : branch.cluster.storage.Listed := hn.storage.listed
  let carried : List CarriedEdge := [g.tree.config.newCarried global]
  let after : Cluster → Cluster := fun k =>
    ({ k with storage := k.storage.attach a b g.tree.config.edge.initialValues carried } : Cluster).mark
      g.tree.config
  have hafter : ∀ k : Cluster, (after k).id = k.id := fun k => Cluster.id_mark ..
  have hb' : (g.tree.mapCluster branch.cluster.id after).find? branch.cluster.id
      = some { branch with cluster := after branch.cluster } :=
    Tree.find?_update_self hb (hafter branch.cluster)
  have hstorage : (after branch.cluster).storage
      = branch.cluster.storage.attach a b g.tree.config.edge.initialValues carried :=
    Cluster.storage_mark ..
  rw [tree_putEdge]
  refine ⟨hd.sameShape_mapCluster _ hafter, fun _ => Tree.joined_of_attach hb hb' hstorage hlisted,
    Tree.created_of_attach hb hb' hstorage hs, ?others, ?incident, ?vertices, ?changed, ?mode,
    ?properties, fun d => hd.cluster_mapCluster_of_ne hafter, rfl, rfl⟩
  case others =>
    intro k hne
    refine Tree.edge_congr hb hb' ?_
    rw [hstorage]
    exact Storage.link?_attach_of_ne hlisted a b _ carried hne
  case incident =>
    intro v
    rw [Tree.incident_of_find? hb', Tree.incident_of_find? hb, hstorage]
    exact Storage.filter_incident_attach hlisted a b _ carried v
  case vertices =>
    refine Tree.vertex_congr hb hb' ?_
    rw [hstorage]
    exact Storage.vertices_attach ..
  case changed =>
    rw [Tree.isChanged, Tree.isChanged, Tree.isCopyMode, hb, hb']
    exact Cluster.changed_mark hs.complete (k := { branch.cluster with
      storage := branch.cluster.storage.attach a b g.tree.config.edge.initialValues carried })
      hn.properties
  case mode =>
    rw [Tree.isCopyMode, Tree.isCopyMode, hb, hb']
    exact Cluster.copyMode_mark ..
  case properties =>
    intro type hne
    rw [Tree.clusterProperty_of_find? hb', Tree.clusterProperty_of_find? hb]
    exact (Cluster.sameStyle_mark g.tree.config _).properties type hne

theorem perform_connect_of_ok {a b : LocalVertex} (h : g.edgePlace c x y = .ok (holder, a, b)) :
    g.perform (.connect c x y) = .ok (g.putEdge holder.cluster.id a b ⟨x, y, g.ids.next⟩,
      .placedEdge (holder.cluster.storage.attachHandle a b) ⟨x, y, g.ids.next⟩
        (decide (holder.cluster.id = c))) := by
  rw [perform, connect, h]
  rfl

theorem perform_connect_of_error {e : Error} (h : g.edgePlace c x y = .error e) :
    g.perform (.connect c x y) = .error e := by
  rw [perform, connect, h]
  rfl

end Graph

namespace Tree

/-- An edge was made under the id between the two vertices, where they meet, and
    is found there. -/
structure Connected (t t' : Tree) (c : ClusterId) (x y : GlobalVertex) (id : UInt64)
    (reply : Reply) (l : ClusterId) (a b : LocalVertex) (e : LocalEdge) : Prop where
  may : t.MayConnect c x y l
  reply : reply = .placedEdge e ⟨x, y, id⟩ (decide (l = c))
  source : t.localVertex? l x true = some a
  target : t.localVertex? l y true = some b
  fresh : id ∉ t.names
  gains : t.GainsEdge t' l a b e ⟨x, y, id⟩
  found : t'.edgeOwner? c ⟨x, y, id⟩ = some (l, e)

end Tree

theorem Graph.connected {g : Graph} (ho : g.tree.Orderly g.ids.count) {c : ClusterId}
    {x y : GlobalVertex} {holder : Branch} {a b : LocalVertex}
    (hplace : g.edgePlace c x y = .ok (holder, a, b)) :
    g.tree.Connected (g.putEdge holder.cluster.id a b ⟨x, y, g.ids.next⟩).tree c x y g.ids.next
      (.placedEdge (holder.cluster.storage.attachHandle a b) ⟨x, y, g.ids.next⟩
        (decide (holder.cluster.id = c))) holder.cluster.id a b
      (holder.cluster.storage.attachHandle a b) := by
  have hd := ho.sound.distinct
  have hscreened := screened_edgePlace ho c x y
  rw [hplace] at hscreened
  obtain ⟨hmay, hsource, htarget⟩ : g.Places c x y (holder, a, b) := hscreened
  obtain ⟨-, hfind, -⟩ := of_edgePlace ho.sound hplace
  have hlive : holder.cluster.id ∈ g.tree.ids := Tree.mem_ids_iff.mpr ⟨holder, hfind⟩
  have hgains := gainsEdge_putEdge ho.sound hfind a b ⟨x, y, g.ids.next⟩
  have hsound := (becomes_putEdge ho.sound (between_of_edgePlace ho.sound hplace)
    ⟨x, y, g.ids.next⟩).sound
  have hfresh := ho.named.next_notMem_names
  have hin : g.tree.isAncestor c holder.cluster.id = true := by
    rcases hmay.meet.2 with heq | hparent
    · exact decide_eq_true (List.mem_cons.mpr (Or.inl heq.symm))
    · obtain ⟨⟨p, v⟩, hplace', rfl⟩ := Option.map_eq_some_iff.mp hparent
      obtain ⟨rest, hrest⟩ := List.head?_eq_some_iff.mp hplace'
      refine decide_eq_true (List.mem_cons_of_mem _ ?_)
      rw [hrest]
      exact List.mem_cons_self ..
  exact ⟨hmay, rfl, ho.localVertex?_eq hlive hsource, ho.localVertex?_eq hlive htarget, hfresh, hgains,
    hgains.edgeOwner? hd hsound hfresh hmay.live hin⟩

/-! ## Runs -/

namespace Workspace

variable {w : Workspace} {number : Nat} {g : Graph} {m : Member}

/-- A command that is refused leaves everything as it was. -/
theorem step_change_of_error (hw : w.Sound) (hg : w.graph? number = some g) {command : Command}
    {e : Error} (hp : g.perform command = .error e) :
    w.step (.change number command) = (w, .error e) := by
  have hact := Act.carryOut_eq (s := w.session g) (hw.tree hg) command
  rw [Act.atOnce_of_error (s := w.session g) hp] at hact
  rw [step, within_of_graph hg, hact]
  show (({ w.put number g with serial := w.serial, reported := w.reported } : Workspace),
    (.error e : Except Error Reply)) = _
  rw [put_self hg]

/-- **ONE LEVEL**: after a well-behaved run, a caller gets an edge between two
    vertices exactly when both are ordinary vertices inside the cluster that was
    named, different ones, and meet there or in one of its children.  Then the
    edge gets a new id and is carried last by the edge between what represents
    the two where they meet, and nothing else changes but the change flag of that
    cluster and the source of ids.  Otherwise nothing changes, and the answer is
    the first cause that applies. -/
theorem connects_run {operations : List Operation} (h : empty.WellBehaved operations)
    (hm : (empty.run operations).members[number]? = some m) {ids : IdSource}
    (hids : (empty.run operations).sources[m.source]? = some ids) (c : ClusterId)
    (x y : GlobalVertex) :
    ((∃ w' reply, (empty.run operations).step (.change number (.connect c x y)) = (w', .ok reply))
      ↔ ∃ l, m.tree.MayConnect c x y l)
    ∧ (∀ w' reply, (empty.run operations).step (.change number (.connect c x y))
        = (w', .ok reply) →
      ∃ t' l a b e, m.tree.Connected t' c x y ids.next reply l a b e
        ∧ w' = { empty.run operations with
          members := (empty.run operations).members.set number ⟨t', m.source⟩
          sources := (empty.run operations).sources.set m.source ids.advance })
    ∧ ∀ w' e, (empty.run operations).step (.change number (.connect c x y)) = (w', .error e)
      ↔ w' = empty.run operations ∧ FirstApplicable (m.tree.Bars c x y) (Tree.causes c x y) e := by
  generalize hw : empty.run operations = w at hm hids ⊢
  have hordered : w.Ordered := hw ▸ ordered_empty.run h
  have hg : w.graph? number = some ⟨m.tree, ids⟩ := graph?_eq_some.mpr ⟨m, ids, hm, hids, rfl⟩
  have ho := hordered.tree hg
  have hscreened := Graph.screened_edgePlace ho c x y
  cases hplace : (Graph.mk m.tree ids).edgePlace c x y with
  | error e =>
      rw [hplace] at hscreened
      have hfirst : FirstApplicable (m.tree.Bars c x y) (Tree.causes c x y) e := hscreened
      have hstep := step_change_of_error hordered.sound hg (Graph.perform_connect_of_error hplace)
      rw [hstep]
      refine ⟨?_, ?_, ?_⟩
      · constructor
        · rintro ⟨w', reply, heq⟩
          cases (Prod.mk.inj heq).2
        · rintro ⟨l, hmay⟩
          exact absurd hfirst.applies (hmay.not_bars ho e)
      · intro w' reply heq
        cases (Prod.mk.inj heq).2
      · intro w' e'
        constructor
        · intro heq
          obtain ⟨rfl, he⟩ := Prod.mk.inj heq
          exact ⟨rfl, Except.error.inj he ▸ hfirst⟩
        · rintro ⟨rfl, hfirst'⟩
          rw [hfirst.unique hfirst']
  | ok place =>
      obtain ⟨holder, a, b⟩ := place
      have hconnected := Graph.connected ho hplace
      have hstep := step_change hordered.sound hg (Graph.perform_connect_of_ok hplace)
      rw [hstep]
      refine ⟨?_, ?_, ?_⟩
      · exact ⟨fun _ => ⟨_, hconnected.may⟩, fun _ => ⟨_, _, rfl⟩⟩
      · intro w' reply heq
        obtain ⟨rfl, hreply⟩ := Prod.mk.inj heq
        obtain rfl := Except.ok.inj hreply
        refine ⟨_, _, a, b, _, hconnected, ?_⟩
        rw [put_of_member hm]
        simp [Reply.removals, Graph.putEdge]
      · intro w' e
        constructor
        · intro heq
          cases (Prod.mk.inj heq).2
        · rintro ⟨-, hfirst⟩
          exact absurd hfirst.applies (hconnected.may.not_bars ho e)

/-- From the root, an edge in the child between a vertex and what stands for the
    cluster of the other; a level deeper the root is too far up. -/
theorem connects_inChild :
    let operations := [Operation.newGraph (.declared []) .fresh,
      .change 0 (.addCluster Tree.rootId), .change 0 (.addCluster ⟨1⟩), .change 0 (.addVertex ⟨1⟩),
      .change 0 (.addVertex ⟨2⟩), .change 0 (.addVertex ⟨2⟩)]
    let w := empty.run operations
    empty.WellBehaved operations
      ∧ ∃ m, w.members[0]? = some m
        ∧ (∃ t' l a b e, m.tree.Connected t' Tree.rootId ⟨13⟩ ⟨14⟩ 16
          (.placedEdge ⟨0, 0⟩ ⟨⟨13⟩, ⟨14⟩, 16⟩ false) l a b e)
        ∧ FirstApplicable (m.tree.Bars Tree.rootId ⟨14⟩ ⟨15⟩) (Tree.causes Tree.rootId ⟨14⟩ ⟨15⟩)
          .selfLoop := by
  intro operations w
  have hwell : empty.WellBehaved operations := by decide +kernel
  have hm : ∃ m ∈ w.members[0]?, ∃ ids ∈ w.sources[m.source]?, ids.next = 16 := by decide +kernel
  obtain ⟨m, hm, ids, hids, hnext⟩ := hm
  have hmade : (w.step (.change 0 (.connect Tree.rootId ⟨13⟩ ⟨14⟩))).2
      = .ok (.placedEdge ⟨0, 0⟩ ⟨⟨13⟩, ⟨14⟩, 16⟩ false) := by decide +kernel
  have hloop : (w.step (.change 0 (.connect Tree.rootId ⟨14⟩ ⟨15⟩))).2 = .error .selfLoop := by
    decide +kernel
  obtain ⟨t', l, a, b, e, hconnected, -⟩ :=
    (connects_run hwell hm hids Tree.rootId ⟨13⟩ ⟨14⟩).2.1 _ _ (eq_of_answer hmade)
  obtain ⟨-, hfirst⟩ :=
    ((connects_run hwell hm hids Tree.rootId ⟨14⟩ ⟨15⟩).2.2 _ _).mp (eq_of_answer hloop)
  exact ⟨hwell, m, hm, ⟨t', l, a, b, e, hnext ▸ hconnected⟩, hfirst⟩

end Workspace

end NestedGraph
