import NestedGraph.Proofs.Climbing
import NestedGraph.Proofs.Keeping
import NestedGraph.Proofs.Order
import NestedGraph.Proofs.Surroundings

/-! # Purging — edges around a cluster that touch what is inside

    A purge goes up from a cluster and takes out the global edges that
    touch some vertices inside it.  In each cluster that it comes to it
    looks at the edges at one vertex only, and it changes edges while it
    goes through them.  Still, it takes and reports what a scan of all
    edges of all clusters around would find, each edge once: whatever
    touches a vertex inside is carried at the vertex on the way down. -/

namespace NestedGraph

/-! ## Edges that are left -/

namespace SlotStore

variable {entity : Entity} {α : Type}

theorem pairwise_filledFrom (n : Nat) (slots : List (Option α)) :
    (filledFrom n slots).Pairwise (fun a b => a.1 < b.1) := by
  induction slots generalizing n with
  | nil => exact List.Pairwise.nil
  | cons slot rest ih =>
      cases slot with
      | none => exact ih (n + 1)
      | some a =>
          refine List.pairwise_cons.mpr ⟨fun entry hentry => ?_, ih (n + 1)⟩
          obtain ⟨j, hj, -⟩ := mem_filledFrom.mp hentry
          show n < entry.1
          omega

/-- Handles are listed by slot. -/
theorem pairwise_handles (s : SlotStore entity α) :
    s.handles.Pairwise (fun h k => h.index < k.index) := by
  rw [handles, entries, List.map_map, List.pairwise_map]
  exact pairwise_filledFrom 0 s.slots

/-- So what is left of them is in the same order. -/
theorem handles_eq_filter {s s' : SlotStore entity α} {q : Handle entity → Bool}
    (h : ∀ k, k ∈ s'.handles ↔ k ∈ s.handles ∧ q k = true) :
    s'.handles = s.handles.filter q := by
  have hperm : s'.handles.Perm (s.handles.filter q) := by
    have hnodup := s.nodup_handles.filter q
    refine (List.perm_ext_iff_of_nodup s'.nodup_handles hnodup).mpr (fun k => ?_)
    rw [h, List.mem_filter]
  exact hperm.eq_of_pairwise (fun _ _ _ _ hlt hgt => absurd hlt (Nat.lt_asymm hgt))
    s'.pairwise_handles (s.pairwise_handles.filter q)

end SlotStore

namespace Storage

variable {s s' : Storage} {p : GlobalEdge → Bool}

/-- The newest edges are still the newest. -/
def Sifted (s s' : Storage) : Prop := ∃ q, s'.recent = s.recent.filter q

theorem Sifted.refl (s : Storage) : s.Sifted s :=
  ⟨fun _ => true, (List.filter_eq_self.mpr (fun _ _ => rfl)).symm⟩

theorem Sifted.trans {s'' : Storage} (h : s.Sifted s') (h' : s'.Sifted s'') : s.Sifted s'' := by
  obtain ⟨q, hq⟩ := h
  obtain ⟨q', hq'⟩ := h'
  exact ⟨fun e => q e && q' e, by rw [hq', hq, List.filter_filter]; simp only [Bool.and_comm]⟩

theorem sifted_withdraw (p : GlobalEdge → Bool) (s : Storage) (e : LocalEdge) :
    s.Sifted (s.withdraw p e) := by
  have hrest : s.Sifted (s.modifyEdge e (fun r => r.without p)) := Sifted.refl s
  rw [withdraw]
  split
  · exact .refl s
  · dsimp only
    split
    · exact hrest.trans ⟨_, rfl⟩
    · exact hrest

theorem sifted_withdrawAt (p : GlobalEdge → Bool) (s : Storage) (v : LocalVertex) :
    s.Sifted (s.withdrawAt p v) := by
  rw [withdrawAt]
  induction s.incident v generalizing s with
  | nil => exact .refl s
  | cons e rest ih => exact (sifted_withdraw p s e).trans (ih (s.withdraw p e))

theorem Sifted.recentWhere (h : s.Sifted s') (hs : s.Listed) (hs' : s'.Listed) {f : Link → Bool}
    (hf : ∀ e l l', s.link? e = some l → s'.link? e = some l' → f l' = f l) :
    s'.recentWhere f = (s.recentWhere f).filter s'.hasEdge := by
  obtain ⟨q, hq⟩ := h
  rw [Storage.recentWhere, Storage.recentWhere, hq, List.filter_filter, List.filter_filter]
  refine List.filter_congr (fun e he => ?_)
  obtain ⟨l, hl⟩ := (hs.mem_recent e).mp he
  have hmem : q e = true ↔ ∃ l', s'.link? e = some l' := by
    rw [← hs'.mem_recent, hq, List.mem_filter]
    exact ⟨fun h => ⟨he, h⟩, fun h => h.2⟩
  rw [hl, Option.any_some]
  cases hl' : s'.link? e with
  | none =>
      have hno : s'.hasEdge e = false := by
        rw [hasEdge, SlotStore.contains]
        exact congrArg Option.isSome hl'
      rw [hno]
      rfl
  | some l' =>
      have hyes : s'.hasEdge e = true := SlotStore.contains_iff.mpr ⟨l', hl'⟩
      rw [hyes, hmem.mpr ⟨l', hl'⟩, Option.any_some, hf e l l' hl hl']
      simp

/-- The edges at a vertex that are left are in the same order. -/
theorem Sifted.incident (h : s.Sifted s') (hs : s.Listed) (hs' : s'.Listed)
    (hback : s.Thinned s') (v : LocalVertex) :
    s'.incident v = (s.incident v).filter s'.hasEdge := by
  have hends : ∀ e l l', s.link? e = some l → s'.link? e = some l' →
      l'.first = l.first ∧ l'.second = l.second := by
    intro e l l' hl hl'
    obtain ⟨m, hm, hfirst, hsecond, -⟩ := hback.back e l' hl'
    obtain rfl := Option.some.inj (hm.symm.trans hl)
    exact ⟨hfirst, hsecond⟩
  rw [Storage.incident, Storage.incident, List.filter_append,
    h.recentWhere hs hs' (fun e l l' hl hl' => by rw [(hends e l l' hl hl').1]),
    h.recentWhere hs hs' (fun e l l' hl hl' => by rw [(hends e l l' hl hl').2])]

/-! ## Going through edges that change -/

theorem matching_withdraw_of_ne {e k : LocalEdge} (hne : k ≠ e) :
    (s.withdraw p e).matching p k = s.matching p k := by
  have hlink : (s.withdraw p e).link? k = s.link? k := by rw [link?_withdraw, if_neg hne]
  rw [matching, matching, edgeRecord?, edgeRecord?, hlink]

/-- What is taken off one edge does not change what matches on the others, so
    going through the edges as they were listed before misses nothing. -/
theorem foldl_withdraw_matching {es : List LocalEdge} (hes : es.Nodup) (taken : List GlobalEdge) :
    es.foldl (fun (s, taken) e =>
        (s.withdraw p e, taken ++ (s.matching p e).map CarriedEdge.global)) (s, taken)
      = (es.foldl (withdraw p) s,
        taken ++ es.flatMap (fun e => (s.matching p e).map CarriedEdge.global)) := by
  induction es generalizing s taken with
  | nil => simp
  | cons e rest ih =>
      rw [List.nodup_cons] at hes
      have hsame : ∀ k ∈ rest, ((s.withdraw p e).matching p k).map CarriedEdge.global
          = (s.matching p k).map CarriedEdge.global := by
        intro k hk
        have hne : k ≠ e := fun heq => hes.1 (heq ▸ hk)
        rw [matching_withdraw_of_ne hne]
      rw [List.foldl_cons, ih hes.2, List.flatMap_congr hsame, List.foldl_cons, List.flatMap_cons,
        List.append_assoc]

theorem purgeAt_eq (hs : s.Sound) (p : GlobalEdge → Bool) (v : LocalVertex) :
    s.purgeAt p v = (s.withdrawAt p v, s.matchingAt p v) :=
  (foldl_withdraw_matching (nodup_incident hs v) []).trans (by rw [List.nil_append]; rfl)

end Storage

namespace Node

variable {config : Config} {p : GlobalEdge → Bool} {n n' : Node}

theorem sifted_withdrawSteps (config : Config) (p : GlobalEdge → Bool)
    (steps : List (ClusterId × LocalVertex)) (n : Node) :
    n.storage.Sifted (n.withdrawSteps config p steps).storage := by
  induction steps generalizing n with
  | nil => exact .refl _
  | cons step rest ih =>
      have hfirst : n.storage.Sifted
          (n.changeAt step.1 (Cluster.withdrawAt config p step.2)).storage := by
        refine changeAt_cases (P := fun n' => n.storage.Sifted n'.storage) step.1 (.refl _)
          (fun _ => ?_)
        show n.storage.Sifted (n.cluster.withdrawAt config p step.2).storage
        rw [Cluster.storage_withdrawAt]
        exact Storage.sifted_withdrawAt p n.storage step.2
      exact hfirst.trans (ih _)

/-- An edge is left if it carries something that does not match. -/
theorem Relieved.hasEdge (h : n.Relieved config p n') (hn : n.storage.Sound) {e : LocalEdge}
    {l : Link} (hl : n.storage.link? e = some l) :
    n'.storage.hasEdge e = (n.storage.carried e).any (fun g => !p g) := by
  have hleft : (n.storage.carried e).any (fun g => !p g)
      = !(l.record.without p).carried.isEmpty := by
    rw [Storage.carried_of_link? hl, EdgeRecord.globals, List.any_map, EdgeRecord.without,
      Bool.eq_iff_iff]
    simp
  have hlink := h.link?_of_some hn hl
  rw [hleft, Storage.hasEdge, SlotStore.contains]
  show (n'.storage.link? e).isSome = _
  rw [hlink]
  cases (l.record.without p).carried.isEmpty <;> rfl

theorem Relieved.handles (h : n.Relieved config p n') (hn : n.storage.Sound) :
    n'.storage.edges.handles
      = n.storage.edges.handles.filter (fun e => (n.storage.carried e).any (fun g => !p g)) := by
  refine SlotStore.handles_eq_filter (fun e => ?_)
  have hmem : e ∈ n'.storage.edges.handles ↔ n'.storage.hasEdge e = true :=
    SlotStore.mem_handles.trans SlotStore.contains_iff.symm
  rw [hmem]
  cases hl : n.storage.link? e with
  | none =>
      have hl' : n'.storage.link? e = none := by
        rw [h.link e, hl]
        rfl
      refine iff_of_false (fun hyes => ?_) (fun hyes => ?_)
      · obtain ⟨l', hsome⟩ := SlotStore.contains_iff.mp hyes
        cases hl'.symm.trans hsome
      · obtain ⟨l, hsome⟩ := SlotStore.mem_handles.mp hyes.1
        cases hl.symm.trans hsome
  | some l =>
      rw [h.hasEdge hn hl]
      exact (and_iff_right (SlotStore.mem_handles.mpr ⟨l, hl⟩)).symm

theorem Relieved.incident (h : n.Relieved config p n') (hn : n.storage.Sound)
    (hn' : n'.storage.Listed) (hsifted : n.storage.Sifted n'.storage)
    (hback : n.storage.Thinned n'.storage) (v : LocalVertex) :
    n'.storage.incident v
      = (n.storage.incident v).filter (fun e => (n.storage.carried e).any (fun g => !p g)) := by
  rw [hsifted.incident hn.listed hn' hback]
  refine List.filter_congr (fun e he => ?_)
  obtain ⟨l, hl, -⟩ := (Storage.mem_incident hn.listed).mp he
  exact h.hasEdge hn hl

/-- Global edges were taken from a storage: an edge that carried nothing else
    went, and what is left is in the same order. -/
structure Purged (p : GlobalEdge → Bool) (s s' : Storage) : Prop where
  carried : ∀ e, s'.carried e = (s.carried e).filter (fun g => !p g)
  edges : s'.edges.handles
    = s.edges.handles.filter (fun e => (s.carried e).any (fun g => !p g))
  incident : ∀ v, s'.incident v
    = (s.incident v).filter (fun e => (s.carried e).any (fun g => !p g))
  record : ∀ e ∈ s'.edges.handles, s'.endpoints? e = s.endpoints? e
    ∧ s'.edgeRecord? e = (s.edgeRecord? e).map (fun r => r.without p)
  vertices : s'.vertices = s.vertices

theorem Relieved.purged (h : n.Relieved config p n') (hn : n.storage.Sound)
    (hn' : n'.storage.Listed) (hsifted : n.storage.Sifted n'.storage)
    (hback : n.storage.Thinned n'.storage) : Purged p n.storage n'.storage := by
  refine ⟨h.carried hn, h.handles hn, h.incident hn hn' hsifted hback, fun e he => ?_, h.vertices⟩
  obtain ⟨l', hl'⟩ := SlotStore.mem_handles.mp he
  obtain ⟨l, hl, -⟩ := hback.back e l' hl'
  have hl' : n'.storage.link? e = some l' := hl'
  have hlink := (h.link?_of_some hn hl).symm.trans hl'
  split at hlink
  · cases hlink
  · obtain rfl := Option.some.inj hlink
    rw [Storage.endpoints?, Storage.endpoints?, Storage.edgeRecord?, Storage.edgeRecord?, hl, hl']
    exact ⟨rfl, rfl⟩

end Node

namespace Tree

variable {t t' : Tree} {count : UInt64} {p : GlobalEdge → Bool} {c d : ClusterId}
  {v : LocalVertex} {n : Node} {names : List GlobalVertex}

/-! ## Going up -/

theorem find?_eq_none_iff : t.find? c = none ↔ c ∉ t.ids := by
  rw [mem_ids_iff, Option.eq_none_iff_forall_ne_some, not_exists]

theorem find?_of_dead (h : c ∉ t.ids) : t.find? c = none := find?_eq_none_iff.mpr h

/-- One cluster is purged at one vertex. -/
theorem Sound.purgeAt_eq (hs : t.Sound) (p : GlobalEdge → Bool) (c : ClusterId) (v : LocalVertex) :
    t.purgeAt p c v
      = (t.mapCluster c (Cluster.withdrawAt t.config p v), t.matchingOn p (c, v)) := by
  cases hb : t.find? c with
  | none =>
      have hdead := find?_eq_none_iff.mp hb
      rw [purgeAt, hb, matchingOn, storage?_of_dead hdead, Tree.mapCluster,
        update_of_dead _ hdead]
  | some b =>
      have hstorage : b.cluster.storage.Sound := (hs.nodes _ (node_mem_of_find? hb)).storage
      have htaken : b.cluster.storage.matchingAt p v = t.matchingOn p (c, v) := by
        rw [matchingOn, storage?_of_find? hb]
      let put (k : Cluster) : Cluster := { k with storage := b.cluster.storage.withdrawAt p v }
      have hput : ∀ k : Cluster, (put k).id = k.id := fun _ => rfl
      rw [purgeAt, hb, ← htaken]
      simp only [Storage.purgeAt_eq hstorage]
      congr 1
      split
      · -- Nothing matches, and the same storage is put back.
        rename_i hempty
        refine hs.distinct.update_congr hb ?_
        rw [Cluster.withdrawAt, if_pos hempty, Branch.mapStorage,
          Storage.withdrawAt_of_matchingAt_eq_nil (List.isEmpty_iff.mp hempty)]
      · rename_i hsome
        refine (mapCluster_mapCluster hput t c).trans (hs.distinct.update_congr hb ?_)
        rw [Cluster.withdrawAt, if_neg hsome]
        rfl

/-- Purging the clusters of a way one by one takes what matched on it before. -/
theorem Sound.climbAlong_purgeVisit (hs : t.Sound) (p : GlobalEdge → Bool)
    {way : List (ClusterId × LocalVertex)} (hway : (c :: way.map Prod.fst).Nodup)
    (taken : List GlobalEdge) (v : LocalVertex) :
    (climbAlong (purgeVisit p) way (t, taken) c (some v)).state
      = (((c, v) :: way).foldl
          (fun t step => t.mapCluster step.1 (Cluster.withdrawAt t.config p step.2)) t,
        taken ++ ((c, v) :: way).flatMap (t.matchingOn p)) := by
  induction way generalizing t c v taken with
  | nil =>
      rw [climbAlong, purgeVisit, hs.purgeAt_eq, List.flatMap_singleton]
      rfl
  | cons step rest ih =>
      have hrest := (List.nodup_cons.mp hway).1
      rw [climbAlong_cons_of_go rfl, purgeVisit, hs.purgeAt_eq]
      refine (ih (hs.withdrawStep p (c, v)) (List.nodup_cons.mp hway).2 _ step.2).trans ?_
      rw [hs.distinct.flatMap_matchingOn_mapCluster p (fun _ => Cluster.id_withdrawAt ..) hrest,
        List.append_assoc, ← List.flatMap_cons]
      rfl

theorem StaysAs.foldl_withdrawAt (h : t.StaysAs t') (p : GlobalEdge → Bool)
    (steps : List (ClusterId × LocalVertex)) :
    t.StaysAs (steps.foldl
      (fun t step => t.mapCluster step.1 (Cluster.withdrawAt t.config p step.2)) t') := by
  induction steps generalizing t' with
  | nil => exact h
  | cons step rest ih =>
      have hid := Cluster.id_withdrawAt t'.config p step.2
      exact ih (h.mapCluster step.1 hid)

/-- A purge goes up to the root, and takes what matched on the way. -/
theorem Sound.ends_purgeUp (hs : t.Sound) (hc : c ∈ t.ids) (p : GlobalEdge → Bool) :
    EndsWithin t.clusterCount (fun steps => t.purgeUp steps p c)
      (fun r => r.Ascends t.links t.clusterCount t.root c
        ∧ r.state = (t.withdrawAbove p c, t.matchingAbove p c)
        ∧ r.visited = c :: (t.path c).map Prod.fst) := by
  have hd := hs.distinct
  have hgo : ∀ s d via, (purgeVisit p s d via).2 = false := by
    intro s d via
    cases via <;> rfl
  refine hd.ends_climb hc (fun v => v)
    (fun s : Tree × List GlobalEdge => s.1.Sound ∧ t.StaysAs s.1)
    (fun s h d => (h.2.place? d).trans (t.map_place?_self d)) (fun s d via h => ?_)
    ⟨hs, hd.staysAs⟩ ?_
  · cases via with
    | none => exact h
    | some v =>
        have hid := Cluster.id_withdrawAt s.1.config p v
        rw [purgeVisit, h.1.purgeAt_eq]
        exact ⟨h.1.withdrawStep p (d, v), h.2.mapCluster d hid⟩
  · rw [pathBy_self]
    refine ⟨?_, climbAlong_through.complete (stopped_climbAlong hgo)⟩
    cases hpath : t.path c with
    | nil =>
        rw [Tree.withdrawAbove, matchingAbove, hpath]
        rfl
    | cons step rest =>
        obtain ⟨rfl, -⟩ := hd.path_eq_cons hpath
        rw [climbAlong_cons_of_go rfl, Tree.withdrawAbove, matchingAbove, hpath]
        refine (hs.climbAlong_purgeVisit p (hd.nodup_way step.1) [] step.2).trans ?_
        rw [List.nil_append]
        rfl

/-! ## Against a scan -/

/-- The global edges of a cluster that touch some vertices, edge by edge. -/
def scan (t : Tree) (names : List GlobalVertex) (c : ClusterId) : List GlobalEdge :=
  (t.edges c).flatMap (fun e => (t.carried c e).filter (GlobalEdge.touches names))

/-- An edge of a cluster carries something that touches none of some vertices. -/
def stays (t : Tree) (names : List GlobalVertex) (c : ClusterId) (e : LocalEdge) : Bool :=
  (t.carried c e).any (fun g => !g.touches names)

theorem Distinct.scan_of_mem (hd : t.Distinct) (hn : n ∈ t.nodes) (names : List GlobalVertex) :
    t.scan names n.id = n.storage.allCarried.filter (GlobalEdge.touches names) := by
  rw [scan, hd.edges_of_mem hn, Storage.allCarried_eq, List.filter_flatMap]
  exact List.flatMap_congr (fun e _ => by rw [hd.carried_of_mem hn])

theorem Distinct.mem_scan_iff (hd : t.Distinct) (hn : n ∈ t.nodes) {g : GlobalEdge} :
    g ∈ t.scan names n.id ↔ (∃ z, (z, g) ∈ n.storage.carries) ∧ g.touches names = true := by
  rw [hd.scan_of_mem hn, List.mem_filter, ← Multiset.mem_coe, Storage.coe_allCarried,
    Multiset.mem_map]
  refine and_congr_left' ⟨?_, ?_⟩
  · rintro ⟨⟨z, x⟩, hx, rfl⟩
    exact ⟨z, Storage.mem_carries.mpr ⟨x, hx, rfl⟩⟩
  · rintro ⟨z, hz⟩
    obtain ⟨x, hx, rfl⟩ := Storage.mem_carries.mp hz
    exact ⟨(z, x), hx, rfl⟩

/-- What comes of a tree from which the global edges are taken that are stored
    around a cluster and touch some vertices, and what is reported.  A cluster
    is outside if it does not lie inside that one. -/
structure Purges (t t' : Tree) (reported : List GlobalEdge) (names : List GlobalVertex)
    (c : ClusterId) : Prop extends t.SameShape t' where
  /-- What a scan of every cluster around finds is reported. -/
  scanned : reported.Perm ((t.path c).flatMap (fun step => t.scan names step.1))
  once : (reported.map GlobalEdge.id).Nodup
  /-- Elsewhere outside, a scan finds nothing. -/
  around : ∀ d, t.isAncestor c d = false → t.scan names d ≠ [] → t.isAncestor d c = true
  /-- Nothing is left outside that touches the vertices. -/
  clean : ∀ d, t.isAncestor c d = false → t'.scan names d = []
  carried : ∀ d e, t.isAncestor c d = false →
    t'.carried d e = (t.carried d e).filter (fun g => !g.touches names)
  /-- An edge goes if it carried nothing else. -/
  edges : ∀ d, t.isAncestor c d = false → t'.edges d = (t.edges d).filter (t.stays names d)
  incident : ∀ d v, t.isAncestor c d = false →
    t'.incident d v = (t.incident d v).filter (t.stays names d)
  /-- An edge that stays keeps its ends, its properties and its other objects. -/
  record : ∀ d, t.isAncestor c d = false → ∀ e ∈ t'.edges d, t'.endpoints? d e = t.endpoints? d e
    ∧ t'.edgeAt? d e = (t.edgeAt? d e).map (fun r => r.without (GlobalEdge.touches names))
  vertices : ∀ d, (t'.storage? d).map Storage.vertices = (t.storage? d).map Storage.vertices
  /-- A cluster is not touched if it lies inside or a scan finds nothing in it. -/
  others : ∀ d, t.isAncestor c d = true ∨ t.scan names d = [] →
    (t'.find? d).map Branch.cluster = (t.find? d).map Branch.cluster

section Scan

variable {place : Branch} (h : t.Orderly count) (hplace : t.find? place.cluster.id = some place)
  (hnames : ∀ g ∈ names, t.Names place.cluster.id (.globalVertex g))
include h hplace hnames

theorem Orderly.reaches_of_touches (g : GlobalEdge) (hg : g.touches names = true) :
    t.reaches place.cluster.id g = true := by
  refine (h.sound.reaches_iff hplace).mpr ?_
  exact (GlobalEdge.touches_eq_true.mp hg).imp (hnames _) (hnames _)

/-- At a cluster on the way up, all that a scan finds is at the one vertex. -/
theorem Orderly.matchingOn_perm_scan (hstep : (d, v) ∈ t.path place.cluster.id) :
    (t.matchingOn (GlobalEdge.touches names) (d, v)).Perm (t.scan names d) := by
  have hd := h.sound.distinct
  obtain ⟨n, hn, rfl⟩ := Multiset.mem_map.mp (hd.mem_ids_of_mem_path hstep)
  have hout : n ∉ place.nodes := fun hin =>
    hd.notMem_of_mem_path hstep hplace (Multiset.mem_map_of_mem Node.id hin)
  have hscan : (n.storage.allCarried.filter (GlobalEdge.touches names) : Multiset GlobalEdge)
      = (n.storage.allCarried : Multiset GlobalEdge).filter (fun g => g.touches names = true) := by
    simp [Multiset.filter_coe]
  rw [matchingOn, hd.storage?_of_mem hn, hd.scan_of_mem hn, ← Multiset.coe_eq_coe]
  show (n.storage.matchingAt (GlobalEdge.touches names) v : Multiset GlobalEdge) = _
  rw [Storage.coe_matchingAt (h.sound.nodes n hn).storage, hscan, Storage.coe_allCarried,
    Multiset.filter_map]
  refine congrArg (Multiset.map _) (Multiset.filter_congr (fun entry hentry => ?_))
  refine ⟨fun hboth => hboth.2, fun htouch => ⟨?_, htouch⟩⟩
  -- There is one step at this cluster, and the edge is carried at its vertex.
  obtain ⟨a, ha, hstep'⟩ := h.exists_step hplace hn hout
    (Storage.mem_carries.mpr ⟨entry.2, hentry, rfl⟩)
    (h.reaches_of_touches hplace hnames _ htouch)
  exact hd.eq_of_mem_path hstep' hstep ▸ ha

theorem Orderly.matchingAbove_perm_scan :
    (t.matchingAbove (GlobalEdge.touches names) place.cluster.id).Perm
      ((t.path place.cluster.id).flatMap (fun step => t.scan names step.1)) :=
  List.Perm.flatMap_left _ (fun _ hstep => h.matchingOn_perm_scan hplace hnames hstep)

/-- What a scan finds outside is around. -/
theorem Orderly.mem_path_of_mem_scan (hout : t.isAncestor place.cluster.id d = false)
    {g : GlobalEdge} (hg : g ∈ t.scan names d) :
    d ∈ (t.path place.cluster.id).map Prod.fst := by
  have hd := h.sound.distinct
  obtain ⟨e, he, -⟩ := List.mem_flatMap.mp hg
  have hlive : d ∈ t.ids := by
    by_contra hdead
    rw [edges, storage?_of_dead hdead] at he
    exact List.not_mem_nil he
  obtain ⟨n, hn, rfl⟩ := Multiset.mem_map.mp hlive
  obtain ⟨⟨z, hz⟩, htouch⟩ := (hd.mem_scan_iff hn).mp hg
  obtain ⟨a, -, hstep⟩ := h.exists_step hplace hn ((h.sound.notMem_nodes_iff hplace hn).mpr hout) hz
    (h.reaches_of_touches hplace hnames g htouch)
  exact List.mem_map_of_mem hstep

theorem Orderly.nodup_matchingAbove :
    ((t.matchingAbove (GlobalEdge.touches names) place.cluster.id).map GlobalEdge.id).Nodup := by
  have hs := h.sound
  have hnodup : (t.matchingAbove (GlobalEdge.touches names) place.cluster.id).Nodup := by
    have hbalance := hs.contents_withdrawAbove (GlobalEdge.touches names) place.cluster.id
    have hcontents := h.nodup_contents
    rw [← hbalance] at hcontents
    exact List.Nodup.of_map _ (Multiset.coe_nodup.mp (Multiset.nodup_add.mp hcontents).2.1)
  refine hnodup.map_on (fun g hg g' hg' hid => ?_)
  have hcarries : ∀ g ∈ t.matchingAbove (GlobalEdge.touches names) place.cluster.id,
      ∃ n ∈ t.nodes, ∃ z, (z, g) ∈ n.storage.carries := by
    intro g hg
    have hscan := (h.matchingAbove_perm_scan hplace hnames).mem_iff.mp hg
    obtain ⟨step, hstep, hfound⟩ := List.mem_flatMap.mp hscan
    obtain ⟨n, hn, hid⟩ := Multiset.mem_map.mp (hs.distinct.mem_ids_of_mem_path hstep)
    exact ⟨n, hn, ((hs.distinct.mem_scan_iff hn).mp (hid ▸ hfound)).1⟩
  obtain ⟨n, hn, z, hz⟩ := hcarries g hg
  obtain ⟨m, hm, z', hz'⟩ := hcarries g' hg'
  exact (h.named.eq_of_mem_carries hn hm hz hz' hid).2.2

/-- A cluster outside is relieved of what touches the vertices. -/
theorem Orderly.exists_relieved_purged (hn : n ∈ t.nodes)
    (hout : t.isAncestor place.cluster.id n.id = false) :
    ∃ n' ∈ (t.withdrawAbove (GlobalEdge.touches names) place.cluster.id).nodes,
      n.Relieved t.config (GlobalEdge.touches names) n'
        ∧ Node.Purged (GlobalEdge.touches names) n.storage n'.storage := by
  let steps := t.path place.cluster.id
  have hmem : n.withdrawSteps t.config (GlobalEdge.touches names) steps
      ∈ (t.withdrawAbove (GlobalEdge.touches names) place.cluster.id).nodes := by
    rw [nodes_withdrawAbove h.sound.distinct]
    exact Multiset.mem_map_of_mem _ hn
  have hrelieved := h.relieved_withdrawSteps_of_le hplace
    (h.reaches_of_touches hplace hnames) hn ((h.sound.notMem_nodes_iff hplace hn).mpr hout)
  have hs' := h.sound.withdrawAbove (GlobalEdge.touches names) place.cluster.id
  refine ⟨_, hmem, hrelieved, hrelieved.purged (h.sound.nodes n hn).storage
    (hs'.nodes _ hmem).storage.listed (Node.sifted_withdrawSteps ..) ?_⟩
  exact (Node.thinned_withdrawSteps t.config (GlobalEdge.touches names) steps n).edges

/-- A cluster outside is dead, or purged. -/
theorem Orderly.purged_storage? (hout : t.isAncestor place.cluster.id d = false) :
    (t.storage? d = none
        ∧ (t.withdrawAbove (GlobalEdge.touches names) place.cluster.id).storage? d = none)
      ∨ ∃ s s', t.storage? d = some s
        ∧ (t.withdrawAbove (GlobalEdge.touches names) place.cluster.id).storage? d = some s'
        ∧ Node.Purged (GlobalEdge.touches names) s s' := by
  have hs' := h.sound.withdrawAbove (GlobalEdge.touches names) place.cluster.id
  by_cases hlive : d ∈ t.ids
  · obtain ⟨n, hn, rfl⟩ := Multiset.mem_map.mp hlive
    obtain ⟨n', hn', hrelieved, hpurged⟩ := h.exists_relieved_purged hplace hnames hn hout
    refine Or.inr ⟨_, _, h.sound.distinct.storage?_of_mem hn, ?_, hpurged⟩
    rw [← hrelieved.id]
    exact hs'.distinct.storage?_of_mem hn'
  · refine Or.inl ⟨storage?_of_dead hlive, storage?_of_dead ?_⟩
    rwa [ids_withdrawAbove h.sound]

/-- A cluster stays just as it is if it lies inside, or if a scan finds nothing
    in it. -/
theorem Orderly.cluster_withdrawAbove
    (hd : t.isAncestor place.cluster.id d = true ∨ t.scan names d = []) :
    ((t.withdrawAbove (GlobalEdge.touches names) place.cluster.id).find? d).map Branch.cluster
      = (t.find? d).map Branch.cluster := by
  have hs := h.sound
  have hs' := hs.withdrawAbove (GlobalEdge.touches names) place.cluster.id
  by_cases hlive : d ∈ t.ids
  · obtain ⟨n, hn, rfl⟩ := Multiset.mem_map.mp hlive
    have hstays : n ∈ (t.withdrawAbove (GlobalEdge.touches names) place.cluster.id).nodes := by
      by_cases hin : t.isAncestor place.cluster.id n.id = true
      · have hfind := hs.distinct.find?_withdrawAbove (GlobalEdge.touches names) hplace
        have hmem := hs.mem_nodes_of_isAncestor hplace hn hin
        exact Multiset.mem_of_le (nodes_le_of_find? hfind) hmem
      · obtain ⟨n', hn', hrelieved, -⟩ :=
          h.exists_relieved_purged hplace hnames hn (eq_false_of_ne_true hin)
        have hnone := List.eq_nil_iff_forall_not_mem.mp (hd.resolve_left hin)
        have hsame : n' = n := hrelieved.same (fun z g hz htouch =>
          hnone g ((hs.distinct.mem_scan_iff hn).mpr ⟨⟨z, hz⟩, htouch⟩))
        exact hsame ▸ hn'
    obtain ⟨b, hb, hbn⟩ := hs.distinct.find?_of_mem hn
    obtain ⟨b', hb', hbn'⟩ := hs'.distinct.find?_of_mem hstays
    rw [hb, hb']
    exact congrArg some (congrArg Node.cluster (hbn'.trans hbn.symm))
  · rw [find?_of_dead hlive, find?_of_dead (by rwa [ids_withdrawAbove hs])]

/-- The vertices of every cluster stay. -/
theorem Orderly.vertices_storage? (d : ClusterId) :
    ((t.withdrawAbove (GlobalEdge.touches names) place.cluster.id).storage? d).map Storage.vertices
      = (t.storage? d).map Storage.vertices := by
  cases hin : t.isAncestor place.cluster.id d with
  | true =>
      have hcluster := congrArg (Option.map Cluster.storage)
        (h.cluster_withdrawAbove hplace hnames (Or.inl hin))
      rw [Option.map_map, Option.map_map] at hcluster
      exact congrArg (Option.map Storage.vertices) hcluster
  | false =>
      rcases h.purged_storage? hplace hnames hin with ⟨hs, hs'⟩ | ⟨s, s', hs, hs', hpurged⟩
      · rw [hs, hs']
      · rw [hs, hs', Option.map_some, Option.map_some, hpurged.vertices]

/-- **A PURGE IS A SCAN**: going up from a cluster, by the edges at one vertex of
    each cluster around, takes and reports what a scan of all edges would. -/
theorem Orderly.purges :
    t.Purges (t.withdrawAbove (GlobalEdge.touches names) place.cluster.id)
      (t.matchingAbove (GlobalEdge.touches names) place.cluster.id) names place.cluster.id := by
  let t' := t.withdrawAbove (GlobalEdge.touches names) place.cluster.id
  have hcarried : ∀ d e, t.isAncestor place.cluster.id d = false →
      t'.carried d e = (t.carried d e).filter (fun g => !g.touches names) := by
    intro d e hout
    rcases h.purged_storage? hplace hnames hout with ⟨hs, hs'⟩ | ⟨s, s', hs, hs', hpurged⟩
    · rw [carried, carried, hs, hs']
      rfl
    · rw [carried, carried, hs, hs']
      exact hpurged.carried e
  refine ⟨(h.sound.distinct.staysAs.foldl_withdrawAt _ _).toSameShape,
    h.matchingAbove_perm_scan hplace hnames, h.nodup_matchingAbove hplace hnames,
    fun d hout hsome => ?_, fun d hout => ?_, hcarried, fun d hout => ?_, fun d v hout => ?_,
    fun d hout e he => ?_, h.vertices_storage? hplace hnames,
    fun d => h.cluster_withdrawAbove hplace hnames⟩
  · obtain ⟨g, hg⟩ := List.exists_mem_of_ne_nil _ hsome
    exact decide_eq_true (List.mem_cons_of_mem _ (h.mem_path_of_mem_scan hplace hnames hout hg))
  · refine List.flatMap_eq_nil_iff.mpr (fun e _ => List.filter_eq_nil_iff.mpr (fun g hg => ?_))
    rw [hcarried d e hout] at hg
    simpa using (List.mem_filter.mp hg).2
  · rcases h.purged_storage? hplace hnames hout with ⟨hs, hs'⟩ | ⟨s, s', hs, hs', hpurged⟩
    · rw [edges, edges, hs, hs']
      rfl
    · rw [edges, edges, hs, hs']
      exact hpurged.edges.trans (List.filter_congr (fun e _ => by rw [stays, carried, hs]))
  · rcases h.purged_storage? hplace hnames hout with ⟨hs, hs'⟩ | ⟨s, s', hs, hs', hpurged⟩
    · rw [incident, incident, hs, hs']
      rfl
    · rw [incident, incident, hs, hs']
      exact (hpurged.incident v).trans (List.filter_congr (fun e _ => by rw [stays, carried, hs]))
  · rcases h.purged_storage? hplace hnames hout with ⟨hs, hs'⟩ | ⟨s, s', hs, hs', hpurged⟩
    · rw [edges, hs'] at he
      exact absurd he List.not_mem_nil
    · rw [edges, hs'] at he
      rw [endpoints?, endpoints?, edgeAt?, edgeAt?, hs, hs']
      exact hpurged.record e he

end Scan

end Tree

/-! ## After any run -/

namespace Workspace

/-- **PURGING**: after any run in which ids did not run out and were not given
    twice, a purge of the clusters around a live one takes and reports the
    global edges that touch some vertices stored inside it, each once; and
    none that does is left outside. -/
theorem purges_run {operations : List Operation} (h : empty.WellBehaved operations) {m : Member}
    (hm : m ∈ (empty.run operations).members) {c : ClusterId} (hlive : m.tree.isLive c = true)
    {names : List GlobalVertex} (hnames : ∀ g ∈ names, m.tree.Names c (.globalVertex g)) :
    EndsWithin m.tree.clusterCount
      (fun steps => m.tree.purgeUp steps (GlobalEdge.touches names) c)
      (fun r => r.state = (m.tree.withdrawAbove (GlobalEdge.touches names) c,
          m.tree.matchingAbove (GlobalEdge.touches names) c)
        ∧ r.visited = c :: (m.tree.path c).map Prod.fst
        ∧ m.tree.Purges r.state.1 r.state.2 names c) := by
  have hordered := ordered_empty.run h
  have hids := List.getElem?_eq_getElem (hordered.sound.sources m hm)
  have ho := hordered.trees m hm _ hids
  obtain ⟨place, hplace⟩ := Tree.exists_find?_of_isLive hlive
  obtain rfl := Tree.id_of_find? hplace
  obtain ⟨r, hends, -, hstate, hvisited⟩ :=
    ho.sound.ends_purgeUp (Tree.isLive_iff.mp hlive) (GlobalEdge.touches names)
  refine ⟨r, hends, hstate, hvisited, ?_⟩
  rw [hstate]
  exact ho.purges hplace hnames

/-- A vertex two clusters deep has an edge in each cluster around.  That in the
    root shares its local edge with another global edge, and that in between
    has one of its own. -/
theorem purges_deep :
    let operations := [Operation.newGraph (.declared []) .fresh,
      .change 0 (.addCluster Tree.rootId), .change 0 (.addCluster ⟨1⟩),
      .change 0 (.addVertex Tree.rootId), .change 0 (.addVertex ⟨1⟩),
      .change 0 (.addVertexNamed ⟨2⟩ ⟨40⟩), .change 0 (.connect Tree.rootId ⟨13⟩ ⟨14⟩),
      .change 0 (.connect Tree.rootId ⟨13⟩ ⟨40⟩), .change 0 (.connect ⟨1⟩ ⟨14⟩ ⟨40⟩)]
    let names : List GlobalVertex := [⟨40⟩]
    empty.WellBehaved operations ∧ ∃ m ∈ (empty.run operations).members,
      m.tree.isLive ⟨2⟩ = true ∧ (∀ g ∈ names, m.tree.Names ⟨2⟩ (.globalVertex g))
        ∧ ∃ r, m.tree.purgeUp m.tree.clusterCount (GlobalEdge.touches names) ⟨2⟩ = some r
          ∧ r.visited = [⟨2⟩, ⟨1⟩, Tree.rootId] ∧ m.tree.Purges r.state.1 r.state.2 names ⟨2⟩
          ∧ r.state.2 = [⟨⟨14⟩, ⟨40⟩, 43⟩, ⟨⟨13⟩, ⟨40⟩, 42⟩]
          ∧ r.state.1.carried Tree.rootId ⟨0, 0⟩ = [⟨⟨13⟩, ⟨14⟩, 41⟩]
          ∧ r.state.1.edges ⟨1⟩ = [] := by
  intro operations names
  have h : empty.WellBehaved operations := by decide +kernel
  have hrun : ∃ m ∈ (empty.run operations).members[0]?, m.tree.isLive ⟨2⟩ = true
      ∧ m.tree.isAncestor ⟨2⟩ ⟨2⟩ = true ∧ m.tree.global? ⟨2⟩ ⟨0, 0⟩ = some ⟨40⟩
      ∧ m.tree.path ⟨2⟩ = [(⟨1⟩, ⟨0, 0⟩), (Tree.rootId, ⟨0, 0⟩)]
      ∧ m.tree.isAncestor ⟨2⟩ ⟨1⟩ = false ∧ m.tree.isAncestor ⟨2⟩ Tree.rootId = false
      ∧ m.tree.matchingAbove (GlobalEdge.touches names) ⟨2⟩
        = [⟨⟨14⟩, ⟨40⟩, 43⟩, ⟨⟨13⟩, ⟨40⟩, 42⟩]
      ∧ m.tree.carried Tree.rootId ⟨0, 0⟩ = [⟨⟨13⟩, ⟨14⟩, 41⟩, ⟨⟨13⟩, ⟨40⟩, 42⟩]
      ∧ (m.tree.edges ⟨1⟩).filter (m.tree.stays names ⟨1⟩) = [] := by decide +kernel
  obtain ⟨m, hm, hlive, hself, hglobal, hpath, hone, hroot, hmatch, hcarried, hedges⟩ := hrun
  have hm := List.mem_of_getElem? hm
  have hnames : ∀ g ∈ names, m.tree.Names ⟨2⟩ (.globalVertex g) := by
    intro g hg
    obtain rfl := List.mem_singleton.mp hg
    exact ⟨⟨2⟩, ⟨0, 0⟩, hself, hglobal⟩
  obtain ⟨r, hends, hstate, hvisited, hpurges⟩ := purges_run h hm hlive hnames
  refine ⟨h, m, hm, hlive, hnames, r, hends _ (le_refl _), ?_, hpurges, ?_, ?_, ?_⟩
  · rw [hvisited, hpath]
    rfl
  · rw [hstate, hmatch]
  · rw [hpurges.carried _ _ hroot, hcarried]
    decide
  · rw [hpurges.edges _ hone, hedges]

end Workspace

end NestedGraph
