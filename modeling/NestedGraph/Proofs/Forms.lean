import NestedGraph.Proofs.Connection

/-! # Forms — by handle and by name

    What can be asked for by the handles of one cluster can be asked for by
    global names too, from that cluster or from further up.  Both forms come to
    the same.  An edge is the same edge, with the same new name.  An edge that
    is removed leaves what is left when its global edges are removed one by one,
    in whatever order.  A vertex takes the same things along; only marks are
    set further up by the second form. -/

namespace NestedGraph

/-! ## Edges in one storage -/

namespace Storage

variable {s : Storage} {e : LocalEdge} {p : GlobalEdge → Bool}

/-- An edge does not have to be changed before it is removed. -/
theorem removeEdge_modifyEdge (s : Storage) (e : LocalEdge) (f : EdgeRecord → EdgeRecord) :
    (s.modifyEdge e f).removeEdge e = s.removeEdge e := by
  rw [removeEdge, modifyEdge]
  dsimp only
  rw [SlotStore.erase_modify]
  rfl

theorem removeEdge_removeEdge (s : Storage) (e : LocalEdge) :
    (s.removeEdge e).removeEdge e = s.removeEdge e := by
  have hnone : (s.edges.erase e).get? e = none := SlotStore.get?_erase_self ..
  have herase : (s.edges.erase e).erase e = s.edges.erase e := by
    rw [SlotStore.erase, hnone]
  simp only [removeEdge, herase, List.filter_filter, Bool.and_self]

/-- What is on an edge does not have to be taken off before it is removed. -/
theorem removeEdge_withdraw (s : Storage) (p : GlobalEdge → Bool) (e : LocalEdge) :
    (s.withdraw p e).removeEdge e = s.removeEdge e := by
  rw [withdraw]
  split
  · rfl
  · dsimp only
    split
    · rw [removeEdge_removeEdge, removeEdge_modifyEdge]
    · rw [removeEdge_modifyEdge]

theorem globals_without (r : EdgeRecord) (p : GlobalEdge → Bool) :
    (r.without p).globals = r.globals.filter (fun g => !p g) := by
  rw [EdgeRecord.globals, EdgeRecord.globals, List.filter_map]
  rfl

/-- An edge from which everything was taken is removed. -/
theorem withdraw_of_all (hne : s.carried e ≠ []) (hall : ∀ g ∈ s.carried e, p g = true) :
    s.withdraw p e = s.removeEdge e := by
  obtain ⟨g, hg⟩ := List.exists_mem_of_ne_nil _ hne
  obtain ⟨l, hl, -⟩ := mem_carried.mp hg
  rw [carried_of_link? hl] at hall hg
  obtain ⟨x, hx, rfl⟩ := List.mem_map.mp hg
  have hmatching : (s.matching p e).isEmpty = false := by
    have hmem : x ∈ s.matching p e := by
      rw [matching, edgeRecord?, hl]
      exact List.mem_filter.mpr ⟨hx, hall _ hg⟩
    exact Bool.eq_false_iff.mpr (fun h => List.ne_nil_of_mem hmem (List.isEmpty_iff.mp h))
  have hmodified : (s.modifyEdge e (fun record => record.without p)).link? e
      = some { l with record := l.record.without p } := by
    rw [link?_modifyEdge, if_pos rfl, hl]
    rfl
  have hrest : ((s.modifyEdge e (fun record => record.without p)).carried e).isEmpty = true := by
    rw [carried_of_link? hmodified, globals_without, List.isEmpty_iff, List.filter_eq_nil_iff]
    exact fun g hg => by simp [hall g hg]
  rw [withdraw, if_neg (by simp [hmatching])]
  dsimp only
  rw [if_pos hrest, removeEdge_modifyEdge]

/-- What does not match stays on an edge. -/
theorem carried_withdraw (s : Storage) (p : GlobalEdge → Bool) (e : LocalEdge) :
    (s.withdraw p e).carried e = (s.carried e).filter (fun g => !p g) := by
  have hlink := s.link?_withdraw p e e
  rw [if_pos rfl] at hlink
  cases hl : s.link? e with
  | none =>
      rw [hl] at hlink
      rw [carried, carried, edgeRecord?, edgeRecord?, hlink, hl]
      rfl
  | some l =>
      rw [hl, Option.bind_some, Link.rest?] at hlink
      rw [carried_of_link? hl, ← globals_without]
      split at hlink
      · rename_i hnone
        rw [carried_of_link? hlink, EdgeRecord.without_of_isEmpty hnone]
      · split at hlink
        · rename_i hempty
          rw [carried, edgeRecord?, hlink, EdgeRecord.globals, List.isEmpty_iff.mp hempty]
          rfl
        · exact carried_of_link? hlink

end Storage

/-! ## Marks -/

namespace Cluster

/-- The cluster without its change flag. -/
def unmark (config : Config) (k : Cluster) : Cluster :=
  { k with properties := config.cluster.put changedFlag (.flag false) k.properties }

theorem mark_mark (config : Config) (k : Cluster) :
    (k.mark config).mark config = k.mark config := by
  unfold mark
  split
  · rfl
  · dsimp only
    rw [Layout.put_put (u := .flag true) (v := .flag true) rfl]

theorem unmark_mark (config : Config) (k : Cluster) :
    (k.mark config).unmark config = k.unmark config := by
  unfold mark
  split
  · rfl
  · rw [unmark]
    dsimp only
    rw [Layout.put_put (u := .flag true) (v := .flag false) rfl]
    rfl

theorem mark_withStorage (config : Config) (k : Cluster) (s : Storage) :
    Cluster.mark config { k.mark config with storage := s }
      = Cluster.mark config { k with storage := s } := by
  have hstorage : ∀ k : Cluster, Cluster.mark config { k with storage := s }
      = { k.mark config with storage := s } := by
    intro k
    unfold mark
    split <;> rfl
  rw [hstorage, hstorage, mark_mark]

end Cluster

namespace Tree

variable {t t' : Tree} {count : UInt64} {c d o : ClusterId} {a b v : LocalVertex} {e : LocalEdge}
  {x y g : GlobalVertex}

/-- The tree with the change flag of a cluster cleared. -/
def unmark (t : Tree) (c : ClusterId) : Tree := t.mapCluster c (Cluster.unmark t.config)

theorem unmark_mark (t : Tree) (c : ClusterId) : (t.mark c).unmark c = t.unmark c := by
  rw [unmark, mark, config_mapCluster, mapCluster_mapCluster (Cluster.id_mark t.config)]
  simp only [Cluster.unmark_mark]
  rfl

theorem unmark_mark_of_ne (t : Tree) (hne : c ≠ d) : (t.mark c).unmark d = (t.unmark d).mark c :=
  t.mapCluster_comm hne (Cluster.id_mark t.config) (fun _ => rfl)

/-- A mark does not matter when the flag is cleared later. -/
theorem foldl_unmark_mark {ds : List ClusterId} (hd : d ∈ ds) (t : Tree) :
    ds.foldl unmark (t.mark d) = ds.foldl unmark t := by
  induction ds generalizing t with
  | nil => cases hd
  | cons c rest ih =>
      rw [List.foldl_cons, List.foldl_cons]
      -- Either the flag is cleared next, or the mark passes over to the rest.
      by_cases hc : d = c
      · rw [hc, unmark_mark]
      · rw [unmark_mark_of_ne t hc, ih ((List.mem_cons.mp hd).resolve_left hc)]

theorem foldl_unmark_foldl_mark {ds marks : List ClusterId} (h : ∀ d ∈ marks, d ∈ ds) (t : Tree) :
    ds.foldl unmark (marks.foldl mark t) = ds.foldl unmark t := by
  induction marks generalizing t with
  | nil => rfl
  | cons c rest ih =>
      rw [List.foldl_cons, ih (fun d hd => h d (List.mem_cons_of_mem _ hd)),
        foldl_unmark_mark (h c (List.mem_cons_self ..))]

theorem Distinct.ids_foldl_mark (hd : t.Distinct) (cs : List ClusterId) :
    (cs.foldl Tree.mark t).ids = t.ids := by
  induction cs generalizing t with
  | nil => rfl
  | cons c rest ih =>
      rw [List.foldl_cons, ih (hd.mark c), Tree.mark,
        hd.ids_mapCluster c (Cluster.id_mark t.config)]

/-- The flag of a live cluster can be cleared. -/
theorem Sound.clearChanged_eq (hs : t.Sound) (hlive : c ∈ t.ids) :
    t.clearChanged c = .ok (t.unmark c) := by
  obtain ⟨b, hb⟩ := mem_ids_iff.mp hlive
  have hfits := (hs.nodes _ (node_mem_of_find? hb)).properties
  obtain ⟨slots, hw⟩ : ∃ slots,
      t.config.cluster.write changedFlag (.flag false) b.cluster.properties = .ok slots :=
    hfits.write_eq_ok hs.complete.cluster rfl
  rw [clearChanged, setClusterProperty, require_of_find? hb, ok_bind, hw, ok_bind]
  refine congrArg Except.ok (hs.distinct.update_congr hb ?_)
  show ({ b with cluster := { b.cluster with properties := slots } } : Branch)
    = { b with cluster := b.cluster.unmark t.config }
  rw [Cluster.unmark, Layout.put_of_write hw]

theorem Sound.foldlM_clearChanged {ds : List ClusterId} (hs : t.Sound)
    (hlive : ∀ d ∈ ds, d ∈ t.ids) :
    ds.foldlM clearChanged t = .ok (ds.foldl unmark t) := by
  induction ds generalizing t with
  | nil => rfl
  | cons c rest ih =>
      have hclear := hs.clearChanged_eq (hlive c (List.mem_cons_self ..))
      have hids : (t.unmark c).ids = t.ids :=
        hs.distinct.ids_mapCluster c (f := Cluster.unmark t.config) (fun _ => rfl)
      rw [List.foldlM_cons, hclear, ok_bind, List.foldl_cons]
      exact ih (hs.becomes_setClusterProperty hclear).sound
        (fun d hd => hids ▸ hlive d (List.mem_cons_of_mem _ hd))

/-! ## An edge and its global edges -/

theorem mark_mapStorage (t : Tree) (c : ClusterId) (f : Storage → Storage) :
    (t.mapStorage c f).mark c
      = t.mapCluster c (fun k => Cluster.mark t.config { k with storage := f k.storage }) :=
  mapCluster_mapCluster (f := fun k => { k with storage := f k.storage }) (fun _ => rfl) t c

/-- Between two changes of one storage, a mark does not matter if there is one
    at the end. -/
theorem mark_mapStorage_mark (t : Tree) (c : ClusterId) (f h : Storage → Storage) :
    (((t.mapStorage c f).mark c).mapStorage c h).mark c
      = (t.mapStorage c (fun s => h (f s))).mark c := by
  have hid : ∀ k : Cluster, (Cluster.mark t.config { k with storage := f k.storage }).id = k.id :=
    fun k => Cluster.id_mark t.config { k with storage := f k.storage }
  have hsame : ∀ k : Cluster,
      Cluster.mark t.config { Cluster.mark t.config { k with storage := f k.storage } with
        storage := h (Cluster.mark t.config { k with storage := f k.storage }).storage }
      = Cluster.mark t.config { k with storage := h (f k.storage) } := by
    intro k
    rw [Cluster.storage_mark]
    exact Cluster.mark_withStorage t.config { k with storage := f k.storage } (h (f k.storage))
  rw [mark_mapStorage _ c h, mark_mapStorage t c f, mark_mapStorage, mapCluster_mapCluster hid]
  exact congrArg (t.mapCluster c) (funext hsame)

theorem Orderly.removeGlobalEdge_eq (ho : t.Orderly count) {k : GlobalEdge}
    (hk : k ∈ t.carried c e) :
    t.removeGlobalEdge c k
      = .ok ((t.mapStorage c (fun s => s.withdraw (fun other => other.same k) e)).mark c) := by
  obtain ⟨n, hn, rfl, -⟩ := exists_node_of_carried hk
  have howner : t.edgeOwner? n.id k = some (n.id, e) :=
    ho.edgeOwner?_eq_some.mpr ⟨Multiset.mem_map_of_mem Node.id hn,
      isAncestor_self t n.id, k, hk, rfl⟩
  rw [Tree.removeGlobalEdge, howner]
  dsimp only
  rw [Tree.markUpTo, wayUp_self]
  rfl

theorem carried_withdraw (t : Tree) (p : GlobalEdge → Bool) (c : ClusterId) (e : LocalEdge) :
    ((t.mapStorage c (fun s => s.withdraw p e)).mark c).carried c e
      = (t.carried c e).filter (fun k => !p k) := by
  by_cases hlive : c ∈ t.ids
  · obtain ⟨b, hb⟩ := mem_ids_iff.mp hlive
    have hb' := find?_mapStorage_self hb (fun s => s.withdraw p e)
    have hmarked := find?_update_self
      (g := fun b => { b with cluster := b.cluster.mark t.config }) hb'
      ((Cluster.id_mark ..).trans (id_of_find? hb'))
    rw [carried, carried, storage?_of_find? hb, Tree.mark, Tree.mapCluster, config_mapStorage,
      storage?_of_find? hmarked]
    dsimp only
    rw [Cluster.storage_mark]
    exact Storage.carried_withdraw ..
  · have hdead : t.carried c e = [] :=
      List.eq_nil_iff_forall_not_mem.mpr (fun _ hk => hlive (mem_ids_of_carried hk))
    rw [Tree.mapStorage, update_of_dead _ hlive, Tree.mark, Tree.mapCluster,
      update_of_dead _ hlive, hdead]
    rfl

/-- The global edges of an edge, removed one by one in any order, leave what is
    left when the edge is removed. -/
theorem Orderly.foldlM_removeGlobalEdge (ho : t.Orderly count) {l : List GlobalEdge} (hne : l ≠ [])
    (hperm : l.Perm (t.carried c e)) :
    l.foldlM (fun t k => t.removeGlobalEdge c k) t
      = .ok ((t.mapStorage c (fun s => s.removeEdge e)).mark c) := by
  induction l generalizing t with
  | nil => exact absurd rfl hne
  | cons k rest ih =>
      have hk : k ∈ t.carried c e := hperm.subset (List.mem_cons_self ..)
      have hstep := ho.removeGlobalEdge_eq hk
      rw [List.foldlM_cons, hstep, ok_bind]
      -- Only the last one takes the edge along, so the rest cannot be left to the
      -- induction when there is none.
      cases rest with
      | nil =>
          have hcarried : t.carried c e = [k] := List.perm_singleton.mp hperm.symm
          obtain ⟨n, hn, rfl, -⟩ := exists_node_of_carried hk
          obtain ⟨b, hb, -⟩ := ho.sound.distinct.find?_of_mem hn
          rw [carried, storage?_of_find? hb] at hcarried
          dsimp only at hcarried
          have hgone : b.mapStorage (fun s => s.withdraw (fun other => other.same k) e)
              = b.mapStorage (fun s => s.removeEdge e) := by
            rw [Branch.mapStorage, Storage.withdraw_of_all (by simp [hcarried])]
            · rfl
            · exact fun l hl => by
                rw [hcarried, List.mem_singleton] at hl
                simp [hl, GlobalEdge.same]
          have htree : t.mapStorage n.id (fun s => s.withdraw (fun other => other.same k) e)
              = t.mapStorage n.id (fun s => s.removeEdge e) :=
            ho.sound.distinct.update_congr hb hgone
          rw [htree]
          rfl
      | cons next rest =>
          have hids := (hperm.map GlobalEdge.id).nodup_iff.mpr (ho.nodup_ids_carried c e)
          rw [List.map_cons, List.nodup_cons] at hids
          have hother : ∀ l ∈ next :: rest, (!l.same k) = true := by
            intro l hl
            have hne : l.id ≠ k.id := fun hid => hids.1 (hid ▸ List.mem_map_of_mem hl)
            simpa [GlobalEdge.same] using hne
          have hrest : (next :: rest).Perm
              (((t.mapStorage c (fun s => s.withdraw (fun other => other.same k) e)).mark c).carried
                c e) := by
            rw [carried_withdraw]
            have hfilter := hperm.filter (fun l => !l.same k)
            rw [List.filter_cons_of_neg (by simp [GlobalEdge.same]),
              List.filter_eq_self.mpr hother] at hfilter
            exact hfilter
          rw [ih (ho.removeGlobalEdge hstep) (List.cons_ne_nil _ _) hrest, mark_mapStorage_mark]
          simp only [Storage.removeEdge_withdraw]

/-- An edge is removed by its handle. -/
theorem removeEdge_eq (he : e ∈ t.edges c) :
    t.removeEdge c e = .ok ((t.mapStorage c (fun s => s.removeEdge e)).mark c,
      (t.carried c e).map .edge) := by
  cases hb : t.find? c with
  | none =>
      rw [edges, storage?, hb] at he
      exact absurd he List.not_mem_nil
  | some b =>
      rw [edges_of_find? hb] at he
      rw [removeEdge, requireEdge_of_find? hb (SlotStore.mem_handles.mp he), carried,
        storage?_of_find? hb]
      rfl

/-! ## A vertex from further up -/

/-- Where a vertex is removed, the way up stays. -/
theorem Sound.path_discard (hs : t.Sound) (hv : t.global? o v = some g) :
    o ∈ (t.discard o v).1.ids ∧ (t.discard o v).1.path o = t.path o := by
  obtain ⟨n, hn, rfl, hglobal⟩ := exists_node_of_global? hv
  have hmem : v ∈ t.vertices n.id :=
    (hs.distinct.mem_vertices hn).mpr (Storage.hasVertex_of_global? hglobal)
  have hsound := (hs.becomes_discard n.id v).sound
  have hlive := hs.mem_ids_discard (Multiset.mem_map_of_mem Node.id hn) v
  exact ⟨hlive, (hs.pruned_discard hmem).path hs.distinct hsound.distinct
    (hsound.root.trans hs.root.symm) hlive⟩

/-- The clusters on the way up from where a vertex was removed are live. -/
theorem Sound.live_of_mem_wayUp (hs : t.Sound) (hv : t.global? o v = some g)
    (hin : t.isAncestor c o = true) (hd : d ∈ t.wayUp o c) : d ∈ (t.discard o v).1.ids := by
  obtain ⟨hlive, hpath⟩ := hs.path_discard hv
  have hdistinct := (hs.becomes_discard o v).sound.distinct
  have hsame : ∀ q, (t.discard o v).1.isAncestor q o = t.isAncestor q o := fun q => by
    rw [isAncestor, isAncestor, hpath]
  have hway : (t.discard o v).1.wayUp o c = t.wayUp o c := by rw [wayUp, wayUp, hpath]
  rw [← hway, hdistinct.mem_wayUp ((hsame c).trans hin)] at hd
  exact hdistinct.mem_ids_of_isAncestor hlive hd.2

/-- A vertex that is removed by its name goes as it goes by its handle; then the
    clusters on the way up are marked. -/
theorem Orderly.removeGlobalVertex_eq (ho : t.Orderly count) (hv : t.global? o v = some g)
    (hin : t.isAncestor c o = true) :
    t.removeGlobalVertex c g
      = .ok ((t.wayUp o c).foldl Tree.mark (t.discard o v).1, (t.discard o v).2) := by
  have hc := ho.sound.distinct.mem_ids_of_isAncestor (mem_ids_of_global? hv) hin
  rw [Tree.removeGlobalVertex, ho.vertexOwner?_eq_some.mpr ⟨hc, hin, hv⟩]
  dsimp only
  rw [Tree.markUpTo, wayUp, wayUp, (ho.sound.path_discard hv).2]

theorem Sound.removeVertex_eq (hs : t.Sound) (hv : t.global? o v = some g) :
    t.removeVertex o v = .ok (t.discard o v) := by
  obtain ⟨n, hn, rfl, hglobal⟩ := exists_node_of_global? hv
  obtain ⟨b, hb, rfl⟩ := hs.distinct.find?_of_mem hn
  rw [Tree.removeVertex, requireVertex_of_find? hb (Storage.hasVertex_of_global? hglobal)]
  rfl

end Tree

/-! ## An edge between two vertices -/

namespace Graph

variable {g : Graph} {c : ClusterId} {a b : LocalVertex} {x y : GlobalVertex} {branch : Branch}

theorem requireOrdinary_eq (h : g.tree.isClusterVertex c a = false) (x : GlobalVertex) :
    g.requireOrdinary c a x = .ok () := if_neg (by simp [h])

theorem edgeEnds_eq (hb : g.tree.find? c = some branch) (hne : a ≠ b)
    (hx : g.tree.global? c a = some x) (hy : g.tree.global? c b = some y)
    (ha : g.tree.isClusterVertex c a = false) (hb' : g.tree.isClusterVertex c b = false) :
    g.edgeEnds c a b = .ok (branch, x, y) := by
  rw [Tree.global?, Tree.storage?_of_find? hb, Option.bind_some] at hx hy
  rw [edgeEnds]
  dsimp only
  rw [if_neg hne, Tree.requireVertex_of_find? hb (Storage.hasVertex_of_global? hx), ok_bind, hx, hy]
  dsimp only
  rw [requireOrdinary_eq ha, ok_bind, requireOrdinary_eq hb', ok_bind]
  rfl

theorem perform_addEdge_of_ok (h : g.edgeEnds c a b = .ok (branch, x, y)) :
    g.perform (.addEdge c a b) = .ok (g.putEdge c a b ⟨x, y, g.ids.next⟩,
      .edge (branch.cluster.storage.attachHandle a b) ⟨x, y, g.ids.next⟩) := by
  rw [perform, addEdge, h]
  rfl

/-- An ordinary vertex passes by its name, too. -/
theorem requireOrdinaryGlobal_eq (ho : g.tree.Orderly g.ids.count)
    (hb : g.tree.find? c = some branch) (hx : g.tree.global? c a = some x)
    (ha : g.tree.isClusterVertex c a = false) :
    g.requireOrdinaryGlobal c x = .ok () := by
  have howner : g.tree.vertexOwner? c x = some (c, a) := ho.vertexOwner?_eq_some.mpr
    ⟨Tree.mem_ids_iff.mpr ⟨branch, hb⟩, g.tree.isAncestor_self c, hx⟩
  rw [requireOrdinaryGlobal, howner]
  exact requireOrdinary_eq ha x

/-- Where two ordinary vertices are stored, their names place an edge between
    them. -/
theorem edgePlace_eq (ho : g.tree.Orderly g.ids.count) (hb : g.tree.find? c = some branch)
    (hne : a ≠ b) (hx : g.tree.global? c a = some x) (hy : g.tree.global? c b = some y)
    (ha : g.tree.isClusterVertex c a = false) (hb' : g.tree.isClusterVertex c b = false) :
    g.edgePlace c x y = .ok (branch, a, b) := by
  have hstands : ∀ {v z}, g.tree.global? c v = some z → g.tree.isClusterVertex c v = false →
      g.tree.Stands c v z := by
    intro v z hz hv
    obtain ⟨n, hn, rfl, -⟩ := Tree.exists_node_of_global? hz
    exact Tree.stands_here hn ((ho.sound.distinct.ordinary_iff hn).mpr ⟨hz, hv⟩)
  rw [edgePlace, Tree.require_of_find? hb, ok_bind,
    requireRepresentative_of_some (ho.representative?_eq hb (hstands hx ha)), ok_bind,
    requireRepresentative_of_some (ho.representative?_eq hb (hstands hy hb')), ok_bind,
    requireOrdinaryGlobal_eq ho hb hx ha, ok_bind, requireOrdinaryGlobal_eq ho hb hy hb', ok_bind]
  exact if_pos hne

end Graph

/-! ## Runs -/

/-- A command for each of a list, to one tree. -/
def Operation.each {α : Type} (number : Nat) (command : α → Command) (l : List α) :
    List Operation :=
  l.map (fun x => .change number (command x))

namespace Workspace

variable {w : Workspace} {number : Nat} {g : Graph}

/-- All operations succeed, one after the other. -/
def Succeeds : Workspace → List Operation → Prop
  | _, [] => True
  | w, operation :: rest =>
      (∃ reply, (w.step operation).2 = .ok reply) ∧ (w.step operation).1.Succeeds rest

/-- Commands that tell nothing change one tree, one after the other. -/
theorem run_each {α : Type} {act : Tree → α → Except Error Tree} {command : α → Command}
    (hcommand : ∀ (g : Graph) x, g.perform (command x) = g.quietly <$> act g.tree x) {l : List α}
    (hw : w.Sound) (hg : w.graph? number = some g) {t' : Tree} (h : l.foldlM act g.tree = .ok t') :
    w.Succeeds (Operation.each number command l)
      ∧ w.run (Operation.each number command l) = w.put number { g with tree := t' } := by
  induction l generalizing w g with
  | nil =>
      obtain rfl := Except.ok.inj h
      exact ⟨trivial, (put_self hg).symm⟩
  | cons x rest ih =>
      rw [List.foldlM_cons] at h
      obtain ⟨t, hx, hrest⟩ := of_bind_eq_ok h
      have hp : g.perform (command x) = .ok ({ g with tree := t }, .done) := by
        rw [hcommand, hx]
        rfl
      have hstep : w.step (.change number (command x))
          = (w.put number { g with tree := t }, .ok .done) := by
        rw [step_change hw hg hp, show Reply.done.removals = [] from rfl, List.append_nil]
        rw [← reported_put w number { g with tree := t }]
      have hsound := (becomes_put hw hg (Graph.becomes_perform (hw.tree hg) hp)).sound
      obtain ⟨hsucceeds, hrun⟩ := ih hsound (graph?_put hg _) hrest
      constructor
      · show (∃ reply, (w.step (.change number (command x))).2 = .ok reply)
          ∧ (w.step (.change number (command x))).1.Succeeds (Operation.each number command rest)
        rw [hstep]
        exact ⟨⟨_, rfl⟩, hsucceeds⟩
      · show (w.step (.change number (command x))).1.run (Operation.each number command rest) = _
        rw [hstep, hrun, put_put hg]

/-- After a change, what is reported stays as it is. -/
theorem run_each_put {α : Type} {act : Tree → α → Except Error Tree} {command : α → Command}
    (hcommand : ∀ (g : Graph) x, g.perform (command x) = g.quietly <$> act g.tree x) {l : List α}
    (hw : w.Sound) (hg : w.graph? number = some g) {g' : Graph} (hbecomes : g.tree.Becomes g'.tree)
    {t' : Tree} (h : l.foldlM act g'.tree = .ok t') (reported : List Removal) :
    ({ w.put number g' with reported := reported }).Succeeds (Operation.each number command l)
      ∧ ({ w.put number g' with reported := reported }).run (Operation.each number command l)
        = { w.put number { g' with tree := t' } with reported := reported } := by
  have hsound := (becomes_put hw hg hbecomes).sound
  obtain ⟨hsucceeds, hrun⟩ := run_each (w := { w.put number g' with reported := reported }) hcommand
    ⟨hsound.trees, hsound.sources⟩ (graph?_put hg g') h
  refine ⟨hsucceeds, hrun.trans ((put_withReported (w.put number g') ..).trans ?_)⟩
  rw [put_put hg]

/-- What can be asked for by handle and by name comes to the same. -/
structure FormsAgree (w : Workspace) (number : Nat) (t : Tree) : Prop where
  /-- Between two ordinary vertices of a cluster both forms make the same edge,
      in that cluster. -/
  added : ∀ c a b x y, a ≠ b → t.global? c a = some x → t.isClusterVertex c a = false →
    t.global? c b = some y → t.isClusterVertex c b = false →
    ∃ w' e global, w.step (.change number (.addEdge c a b)) = (w', .ok (.edge e global))
      ∧ w.step (.change number (.connect c x y)) = (w', .ok (.placedEdge e global true))
  /-- An edge is removed with its global edges at once, or one by one in any
      order; one by one nothing is reported. -/
  edgeRemoved : ∀ c, ∀ e ∈ t.edges c, ∀ l : List GlobalEdge, l.Perm (t.carried c e) →
    ∃ w', w.step (.change number (.removeEdge c e))
        = (w', .ok (.removed ((t.carried c e).map .edge)))
      ∧ w.Succeeds (Operation.each number (.removeGlobalEdge c) l)
      ∧ (w.run (Operation.each number (.removeGlobalEdge c) l)).members = w'.members
      ∧ (w.run (Operation.each number (.removeGlobalEdge c) l)).sources = w'.sources
      ∧ (w.run (Operation.each number (.removeGlobalEdge c) l)).serial = w'.serial
  /-- A vertex is removed from where it is stored or from further up.  What is
      reported is the same, and what is left is the same once the change flags on
      the way up are cleared. -/
  vertexRemoved : ∀ o v x c, t.global? o v = some x → t.isAncestor c o = true →
    ∃ w' w'' gone, w.step (.change number (.removeVertex o v)) = (w', .ok (.removed gone))
      ∧ w.step (.change number (.removeGlobalVertex c x)) = (w'', .ok (.removed gone))
      ∧ w'.Succeeds (Operation.each number .clearChanged (t.wayUp o c))
      ∧ w''.Succeeds (Operation.each number .clearChanged (t.wayUp o c))
      ∧ w''.run (Operation.each number .clearChanged (t.wayUp o c))
        = w'.run (Operation.each number .clearChanged (t.wayUp o c))

/-- **ONE RESULT**: after a well-behaved run, what is done by handle comes to what
    is done by name.  Two vertices get the same edge.  An edge goes as it goes
    when its global edges are removed one by one, in any order, down to the slots
    that are free and the handles that are left.  A vertex takes the same things
    along, from wherever around it is removed, and only change flags on the way
    up can be different. -/
theorem formsAgree_run {operations : List Operation} (h : empty.WellBehaved operations) {m : Member}
    (hm : (empty.run operations).members[number]? = some m) :
    (empty.run operations).FormsAgree number m.tree := by
  generalize hrun : empty.run operations = w at hm ⊢
  have hordered : w.Ordered := hrun ▸ ordered_empty.run h
  have hw := hordered.sound
  obtain ⟨ids, hg⟩ := hw.exists_graph? hm
  have ho := hordered.tree hg
  have hs := ho.sound
  constructor
  case added =>
    intro c a b x y hne hx ha hy hb
    obtain ⟨n, hn, rfl, -⟩ := Tree.exists_node_of_global? hx
    obtain ⟨branch, hbranch, -⟩ := hs.distinct.find?_of_mem hn
    have hid := Tree.id_of_find? hbranch
    have hends := Graph.perform_addEdge_of_ok
      (Graph.edgeEnds_eq (g := ⟨m.tree, ids⟩) hbranch hne hx hy ha hb)
    have hplace := Graph.perform_connect_of_ok
      (Graph.edgePlace_eq (g := ⟨m.tree, ids⟩) ho hbranch hne hx hy ha hb)
    rw [hid, decide_eq_true rfl] at hplace
    exact ⟨_, _, _, step_change hw hg hends, step_change hw hg hplace⟩
  case edgeRemoved =>
    intro c e he l hperm
    have hne : l ≠ [] := fun hnil =>
      (hs.aggregates c).filled e he (List.nil_perm.mp (hnil ▸ hperm))
    have hwhole : (Graph.mk m.tree ids).perform (.removeEdge c e) = _ :=
      congrArg (Functor.map (Graph.mk m.tree ids).reporting) (Tree.removeEdge_eq he)
    have hquiet : ∀ (g : Graph) k, g.perform (.removeGlobalEdge c k)
        = g.quietly <$> g.tree.removeGlobalEdge c k := fun _ _ => rfl
    obtain ⟨hsucceeds, hrun⟩ := run_each hquiet hw hg (ho.foldlM_removeGlobalEdge hne hperm)
    refine ⟨_, step_change hw hg hwhole, hsucceeds, ?_⟩
    rw [hrun]
    exact ⟨rfl, rfl, rfl⟩
  case vertexRemoved =>
    intro o v x c hv hin
    have hdirect : (Graph.mk m.tree ids).perform (.removeVertex o v) = _ :=
      congrArg (Functor.map (Graph.mk m.tree ids).reporting) (hs.removeVertex_eq hv)
    have hnamed : (Graph.mk m.tree ids).perform (.removeGlobalVertex c x) = _ :=
      congrArg (Functor.map (Graph.mk m.tree ids).reporting) (ho.removeGlobalVertex_eq hv hin)
    have hbecomes := Graph.becomes_perform (g := ⟨m.tree, ids⟩) hs hdirect
    have hbecomes' := Graph.becomes_perform (g := ⟨m.tree, ids⟩) hs hnamed
    -- What is cleared must still be there, after either form.
    have hlive : ∀ d ∈ m.tree.wayUp o c, d ∈ (m.tree.discard o v).1.ids :=
      fun d hd => hs.live_of_mem_wayUp hv hin hd
    have hclear := hbecomes.sound.foldlM_clearChanged hlive
    have hclear' := hbecomes'.sound.foldlM_clearChanged (fun d hd =>
      (hbecomes.sound.distinct.ids_foldl_mark (m.tree.wayUp o c)).symm ▸ hlive d hd)
    have hquiet : ∀ (g : Graph) d, g.perform (.clearChanged d)
        = g.quietly <$> g.tree.clearChanged d := fun _ _ => rfl
    obtain ⟨hsucceeds, hrun⟩ := run_each_put hquiet hw hg hbecomes hclear
      (w.reported ++ (m.tree.discard o v).2)
    obtain ⟨hsucceeds', hrun'⟩ := run_each_put hquiet hw hg hbecomes' hclear'
      (w.reported ++ (m.tree.discard o v).2)
    refine ⟨_, _, _, step_change hw hg hdirect, step_change hw hg hnamed, hsucceeds, hsucceeds', ?_⟩
    have htree : (m.tree.wayUp o c).foldl Tree.unmark
        ((m.tree.wayUp o c).foldl Tree.mark (m.tree.discard o v).1)
        = (m.tree.wayUp o c).foldl Tree.unmark (m.tree.discard o v).1 :=
      Tree.foldl_unmark_foldl_mark (fun _ h => h) _
    exact hrun'.trans ((congrArg (fun t => { w.put number ⟨t, ids⟩ with
      reported := w.reported ++ (m.tree.discard o v).2 }) htree).trans hrun.symm)

/-- Two global edges are on one edge inside a child, and a third one leads there
    from the root.  The two are removed with the edge, or the later one first.  A
    vertex that is removed from the root takes all three along. -/
theorem formsAgree_inChild :
    let operations := [Operation.newGraph (.declared []) .fresh,
      .change 0 (.addCluster Tree.rootId), .change 0 (.addVertex ⟨1⟩), .change 0 (.addVertex ⟨1⟩),
      .change 0 (.addEdge ⟨1⟩ ⟨0, 0⟩ ⟨1, 0⟩), .change 0 (.addEdge ⟨1⟩ ⟨1, 0⟩ ⟨0, 0⟩),
      .change 0 (.addVertex Tree.rootId), .change 0 (.connect Tree.rootId ⟨12⟩ ⟨16⟩)]
    let w := empty.run operations
    let first : GlobalEdge := ⟨⟨12⟩, ⟨13⟩, 14⟩
    let second : GlobalEdge := ⟨⟨13⟩, ⟨12⟩, 15⟩
    empty.WellBehaved operations ∧ ∃ m, w.members[0]? = some m ∧ w.FormsAgree 0 m.tree
      ∧ (∃ w' e global, w.step (.change 0 (.connect ⟨1⟩ ⟨13⟩ ⟨12⟩))
        = (w', .ok (.placedEdge e global true)))
      ∧ (∃ w', w.step (.change 0 (.removeEdge ⟨1⟩ ⟨0, 0⟩))
          = (w', .ok (.removed [.edge first, .edge second]))
        ∧ (w.run (Operation.each 0 (.removeGlobalEdge ⟨1⟩) [second, first])).members = w'.members)
      ∧ ∃ w', w.step (.change 0 (.removeGlobalVertex Tree.rootId ⟨12⟩))
        = (w', .ok (.removed [.edge first, .edge second, .edge ⟨⟨12⟩, ⟨16⟩, 17⟩])) := by
  intro operations w first second
  have h : empty.WellBehaved operations := by decide +kernel
  have hm : ∃ m ∈ w.members[0]?, m.tree.global? ⟨1⟩ ⟨0, 0⟩ = some ⟨12⟩
      ∧ m.tree.global? ⟨1⟩ ⟨1, 0⟩ = some ⟨13⟩ ∧ m.tree.isClusterVertex ⟨1⟩ ⟨0, 0⟩ = false
      ∧ m.tree.isClusterVertex ⟨1⟩ ⟨1, 0⟩ = false ∧ (⟨0, 0⟩ : LocalEdge) ∈ m.tree.edges ⟨1⟩
      ∧ m.tree.carried ⟨1⟩ ⟨0, 0⟩ = [first, second] ∧ m.tree.isAncestor Tree.rootId ⟨1⟩ = true := by
    decide +kernel
  have hgone : (w.step (.change 0 (.removeVertex ⟨1⟩ ⟨0, 0⟩))).2
      = .ok (.removed [.edge first, .edge second, .edge ⟨⟨12⟩, ⟨16⟩, 17⟩]) := by decide +kernel
  obtain ⟨m, hm, hsource, htarget, ha, hb, he, hcarried, hin⟩ := hm
  have hagree : w.FormsAgree 0 m.tree := formsAgree_run h hm
  obtain ⟨added, e, global, -, hadded⟩ :=
    hagree.added ⟨1⟩ ⟨1, 0⟩ ⟨0, 0⟩ ⟨13⟩ ⟨12⟩ (by decide) htarget hb hsource ha
  obtain ⟨removed, hremoved, -, hmembers, -⟩ := hagree.edgeRemoved ⟨1⟩ ⟨0, 0⟩ he [second, first]
    (hcarried ▸ List.Perm.swap first second [])
  obtain ⟨direct, named, gone, hdirect, hnamed, -⟩ :=
    hagree.vertexRemoved ⟨1⟩ ⟨0, 0⟩ ⟨12⟩ Tree.rootId hsource hin
  rw [hcarried] at hremoved
  rw [hdirect] at hgone
  exact ⟨h, m, hm, hagree, ⟨added, e, global, hadded⟩, ⟨removed, hremoved, hmembers⟩, named,
    hnamed.trans (congrArg (Prod.mk named) hgone)⟩

end Workspace

end NestedGraph
