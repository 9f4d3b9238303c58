import NestedGraph.Proofs.Meeting
import NestedGraph.Proofs.Transfers

/-! # Surroundings — what stays around content that is replaced

    Where other content comes in place of what was in a cluster, the
    clusters outside it stay.  They are RELIEVED of the global edges that
    reach into it: an edge that carries nothing else goes, and a cluster
    that had any is marked.  Only the clusters around the one that is
    emptied had any, each on edges at the vertex that leads down to it;
    so it is enough to go up from there. -/

namespace NestedGraph

/-! ## What withdrawals leave of a cluster -/

theorem Storage.exists_mem_carries_iff {s : Storage} {g : GlobalEdge} :
    (∃ z, (z, g) ∈ s.carries) ↔ ∃ e, g ∈ s.carried e := by
  constructor
  · exact exists_mem_carried
  · rintro ⟨e, hg⟩
    obtain ⟨l, hl, hg⟩ := mem_carried.mp hg
    exact ⟨l.ends, mem_carries_of_link? hl hg⟩

namespace Link

variable {p : GlobalEdge → Bool} {l : Link}

theorem rest?_of_none (h : ∀ g ∈ l.record.globals, ¬ p g = true) : l.rest? p = some l := by
  have hnone : l.record.matching p = [] := by
    refine List.filter_eq_nil_iff.mpr (fun x hx => ?_)
    exact h x.global (List.mem_map_of_mem hx)
  rw [rest?, hnone]
  rfl

/-- What is left of an edge that carries something. -/
theorem rest?_of_filled (h : l.record.carried ≠ []) :
    l.rest? p = if (l.record.without p).carried.isEmpty then none
      else some { l with record := l.record.without p } := by
  by_cases hnone : l.record.matching p = []
  · have hall : l.record.without p = l.record := by
      rw [EdgeRecord.without, List.filter_eq_self.mpr]
      intro x hx
      simpa using List.filter_eq_nil_iff.mp hnone x hx
    rw [rest?, if_pos (List.isEmpty_iff.mpr hnone), hall,
      if_neg (fun hempty => h (List.isEmpty_iff.mp hempty))]
  · rw [rest?, if_neg (fun hempty => hnone (List.isEmpty_iff.mp hempty))]

theorem exists_rest?_iff {z : Sym2 LocalVertex} {x : CarriedEdge} :
    (∃ l', l.rest? p = some l' ∧ (z, x) ∈ l'.load) ↔ (z, x) ∈ l.load ∧ ¬ p x.global = true := by
  have hload := load_rest? p l
  have hfilter : (z, x) ∈ l.load.filter (fun entry => ¬ p entry.2.global = true)
      ↔ (z, x) ∈ l.load ∧ ¬ p x.global = true := Multiset.mem_filter
  rw [← hfilter, ← hload]
  cases l.rest? p <;> simp

end Link

namespace Node

variable {config : Config} {p : GlobalEdge → Bool} {steps : List (ClusterId × LocalVertex)} {n : Node}

theorem withdrawSteps_of_notMem (h : n.id ∉ steps.map Prod.fst) :
    n.withdrawSteps config p steps = n := by
  induction steps with
  | nil => rfl
  | cons step rest ih =>
      rw [List.map_cons, List.mem_cons, not_or] at h
      rw [withdrawSteps, List.foldl_cons, changeAt_of_ne _ h.1]
      exact ih h.2

/-- A way up passes a cluster once. -/
theorem withdrawSteps_of_mem (hd : (steps.map Prod.fst).Nodup) {v : LocalVertex}
    (h : (n.id, v) ∈ steps) :
    n.withdrawSteps config p steps = ⟨n.cluster.withdrawAt config p v, n.entries⟩ := by
  induction steps with
  | nil => exact absurd h List.not_mem_nil
  | cons step rest ih =>
      rw [List.map_cons, List.nodup_cons] at hd
      rw [withdrawSteps, List.foldl_cons]
      rcases List.mem_cons.mp h with rfl | h
      · -- None of the steps after this one is at the same cluster.
        rw [changeAt, if_pos rfl]
        refine withdrawSteps_of_notMem ?_
        have hid : (n.cluster.withdrawAt config p v).id = n.id := Cluster.id_withdrawAt ..
        show (n.cluster.withdrawAt config p v).id ∉ rest.map Prod.fst
        rw [hid]
        exact hd.1
      · have hne : n.id ≠ step.1 := by
          intro heq
          exact hd.1 (heq ▸ List.mem_map_of_mem h)
        rw [changeAt_of_ne _ hne]
        exact ih hd.2 h

/-- A cluster from which every matching global edge is taken: an edge that
    carries nothing else goes, and the cluster is marked if there were any. -/
structure Relieved (config : Config) (p : GlobalEdge → Bool) (n n' : Node) : Prop where
  entries : n'.entries = n.entries
  vertices : n'.storage.vertices = n.storage.vertices
  link : ∀ e, n'.storage.link? e = (n.storage.link? e).bind (Link.rest? p)
  style : n.cluster.SameStyle config n'.cluster
  marked : n.Marked config (∃ z g, (z, g) ∈ n.storage.carries ∧ p g = true) n'
  same : (∀ z g, (z, g) ∈ n.storage.carries → ¬ p g = true) → n' = n

theorem relieved_of_none (h : ∀ z g, (z, g) ∈ n.storage.carries → ¬ p g = true) :
    n.Relieved config p n := by
  refine ⟨rfl, rfl, fun e => ?_, .refl _, (Marked.refl n).congr ?_, fun _ => rfl⟩
  · cases hl : n.storage.link? e with
    | none => rfl
    | some l =>
        have hnone : ∀ g ∈ l.record.globals, ¬ p g = true := fun g hg =>
          h _ g (Storage.mem_carries_of_link? hl hg)
        exact (Link.rest?_of_none hnone).symm
  · exact iff_of_false not_false (fun ⟨z, g, hz, hp⟩ => h z g hz hp)

/-- It is enough to go by the edges at one vertex, if all that match are there. -/
theorem relieved_withdrawAt (hc : config.Complete) (hn : n.Sound config) {v : LocalVertex}
    (hat : ∀ z g, (z, g) ∈ n.storage.carries → p g = true → v ∈ z)
    (hsome : ∃ z g, (z, g) ∈ n.storage.carries ∧ p g = true) :
    n.Relieved config p ⟨n.cluster.withdrawAt config p v, n.entries⟩ := by
  have hmatch : n.cluster.storage.matchingAt p v ≠ [] := by
    obtain ⟨z, g, hz, hp⟩ := hsome
    obtain ⟨x, hx, rfl⟩ := Storage.mem_carries.mp hz
    have hload : (z, x) ∈ n.storage.load.filter
        (fun entry => v ∈ entry.1 ∧ p entry.2.global = true) :=
      Multiset.mem_filter.mpr ⟨hx, hat z x.global hz hp, hp⟩
    have hmem : x.global ∈ n.storage.matchingAt p v := by
      rw [← Multiset.mem_coe, Storage.coe_matchingAt hn.storage]
      exact Multiset.mem_map_of_mem _ hload
    exact List.ne_nil_of_mem hmem
  have hcluster : n.cluster.withdrawAt config p v
      = (n.mapStorage (fun s => s.withdrawAt p v)).cluster.mark config :=
    if_neg (fun hempty => hmatch (List.isEmpty_iff.mp hempty))
  have hstorage : (n.cluster.withdrawAt config p v).storage = n.storage.withdrawAt p v :=
    Cluster.storage_withdrawAt ..
  refine ⟨rfl, ?_, fun e => ?_, ?_, ?_, fun hnone => ?_⟩
  · show (n.cluster.withdrawAt config p v).storage.vertices = _
    rw [hstorage, Storage.vertices_withdrawAt]
  · show (n.cluster.withdrawAt config p v).storage.link? e = _
    rw [hstorage, Storage.link?_withdrawAt_bind hn.storage]
    refine Option.bind_congr (fun l hl => ?_)
    split
    · rfl
    · -- An edge elsewhere carries nothing that matches.
      rename_i hv
      refine (Link.rest?_of_none (fun g hg hp => hv ?_)).symm
      exact hat _ g (Storage.mem_carries_of_link? hl hg) hp
  · have hstored : n.cluster.SameStyle config (n.mapStorage (fun s => s.withdrawAt p v)).cluster :=
      Cluster.sameStyle_of_eq rfl rfl
    rw [hcluster]
    exact hstored.trans (Cluster.sameStyle_mark config _)
  · have hstored : n.Marked config False (n.mapStorage (fun s => s.withdrawAt p v)) :=
      marked_of_cluster rfl rfl rfl
    rw [hcluster]
    exact (hstored.trans (marked_mark hc hn.properties)).congr (by simp [hsome])
  · obtain ⟨z, g, hz, hp⟩ := hsome
    exact absurd hp (hnone z g hz)

section Relieved

variable {n' : Node} (h : n.Relieved config p n')
include h

theorem Relieved.id : n'.id = n.id := h.marked.id

/-- Just what matches is not carried any more. -/
theorem Relieved.mem_carries_iff {z : Sym2 LocalVertex} {g : GlobalEdge} :
    (z, g) ∈ n'.storage.carries ↔ (z, g) ∈ n.storage.carries ∧ ¬ p g = true := by
  have hmem : ∀ {s : Storage} {x : CarriedEdge},
      (z, x) ∈ s.load ↔ ∃ e l, s.link? e = some l ∧ (z, x) ∈ l.load := by
    intro s x
    simp only [Storage.mem_load, Link.mem_load]
  have hload : ∀ x, (z, x) ∈ n'.storage.load ↔ (z, x) ∈ n.storage.load ∧ ¬ p x.global = true := by
    intro x
    rw [hmem, hmem]
    constructor
    · rintro ⟨e, l', hl', hx⟩
      obtain ⟨l, hl, hrest⟩ := Option.bind_eq_some_iff.mp ((h.link e).symm.trans hl')
      obtain ⟨hx, hp⟩ := Link.exists_rest?_iff.mp ⟨l', hrest, hx⟩
      exact ⟨⟨e, l, hl, hx⟩, hp⟩
    · rintro ⟨⟨e, l, hl, hx⟩, hp⟩
      obtain ⟨l', hrest, hx⟩ := Link.exists_rest?_iff.mpr ⟨hx, hp⟩
      refine ⟨e, l', ?_, hx⟩
      rw [h.link e, hl]
      exact hrest
  rw [Storage.mem_carries, Storage.mem_carries]
  constructor
  · rintro ⟨x, hx, rfl⟩
    obtain ⟨hx, hp⟩ := (hload x).mp hx
    exact ⟨⟨x, hx, rfl⟩, hp⟩
  · rintro ⟨⟨x, hx, rfl⟩, hp⟩
    exact ⟨x, (hload x).mpr ⟨hx, hp⟩, rfl⟩

/-- What an edge comes to of which a part matches. -/
theorem Relieved.link?_of_some (hn : n.storage.Sound) {e : LocalEdge} {l : Link}
    (hl : n.storage.link? e = some l) :
    n'.storage.link? e = if (l.record.without p).carried.isEmpty then none
      else some { l with record := l.record.without p } := by
  rw [h.link e, hl]
  exact Link.rest?_of_filled (hn.filled e l hl)

theorem Relieved.carried (hn : n.storage.Sound) (e : LocalEdge) :
    n'.storage.carried e = (n.storage.carried e).filter (fun g => !p g) := by
  cases hl : n.storage.link? e with
  | none =>
      have hl' : n'.storage.link? e = none := by
        rw [h.link e, hl]
        rfl
      rw [Storage.carried_of_dead hl', Storage.carried_of_dead hl]
      rfl
  | some l =>
      have hleft : l.record.globals.filter (fun g => !p g) = (l.record.without p).globals := by
        rw [EdgeRecord.globals, EdgeRecord.globals, List.filter_map]
        rfl
      have hl' := h.link?_of_some hn hl
      rw [Storage.carried_of_link? hl, hleft]
      by_cases hempty : (l.record.without p).carried = []
      · rw [if_pos (List.isEmpty_iff.mpr hempty)] at hl'
        rw [Storage.carried_of_dead hl', EdgeRecord.globals, hempty]
        rfl
      · rw [if_neg (fun hnil => hempty (List.isEmpty_iff.mp hnil))] at hl'
        exact Storage.carried_of_link? hl'

end Relieved

end Node

namespace Tree

variable {t : Tree} {count : UInt64} {place : Branch} {n n' : Node} {c : ClusterId} {e : GlobalEdge}

/-! ## Edges that reach into a cluster -/

theorem Distinct.carries_iff (hd : t.Distinct) (hn : n ∈ t.nodes) :
    (∃ z, (z, e) ∈ n.storage.carries) ↔ ∃ k, e ∈ t.carried n.id k := by
  rw [Storage.exists_mem_carries_iff]
  exact exists_congr (fun k => by rw [hd.carried_of_mem hn])

theorem exists_node_carrying {k : LocalEdge} (h : e ∈ t.carried c k) :
    ∃ n ∈ t.nodes, n.id = c ∧ ∃ z, (z, e) ∈ n.storage.carries := by
  obtain ⟨n, hn, hid, hcarried⟩ := exists_node_of_carried h
  exact ⟨n, hn, hid, Storage.exists_mem_carries_iff.mpr ⟨k, hcarried⟩⟩

/-- An end of the edge is found in a cluster or inside it. -/
def reaches (t : Tree) (c : ClusterId) (e : GlobalEdge) : Bool :=
  (t.vertexOwner? c e.source).isSome || (t.vertexOwner? c e.target).isSome

theorem touches_eq (hplace : t.find? c = some place) :
    GlobalEdge.touches place.globals = t.reaches c := by
  funext e
  have hfind : ∀ g, t.vertexOwner? c g = place.vertexOwner? g := by
    intro g
    rw [vertexOwner?, hplace]
    rfl
  rw [Bool.eq_iff_iff, GlobalEdge.touches_eq_true, reaches, Bool.or_eq_true, hfind, hfind,
    Branch.isSome_vertexOwner?, Branch.isSome_vertexOwner?]

/-- What is found is stored there. -/
theorem Sound.reaches_iff (hs : t.Sound) (hplace : t.find? c = some place) :
    t.reaches c e = true
      ↔ t.Names c (.globalVertex e.source) ∨ t.Names c (.globalVertex e.target) := by
  have hmem : ∀ g, g ∈ place.globals ↔ t.Names c (.globalVertex g) := by
    intro g
    rw [Branch.mem_globals]
    constructor
    · rintro ⟨n, hn, v, hv⟩
      have hmem := Multiset.mem_of_le (nodes_le_of_find? hplace) hn
      refine ⟨n.id, v, isAncestor_of_mem_nodes hs.distinct hplace hn, ?_⟩
      rw [hs.distinct.global?_of_mem hmem, hv]
    · rintro ⟨d, v, hd, hv⟩
      obtain ⟨n, hn, rfl, hname⟩ := exists_node_of_global? hv
      exact ⟨n, hs.mem_nodes_of_isAncestor hplace hn hd, v, hname⟩
  rw [← touches_eq hplace, GlobalEdge.touches_eq_true, hmem, hmem]

theorem Sound.notMem_nodes_iff (hs : t.Sound) (hplace : t.find? c = some place) (hn : n ∈ t.nodes) :
    n ∉ place.nodes ↔ t.isAncestor c n.id = false := by
  rw [← Bool.not_eq_true, not_iff_not]
  exact ⟨isAncestor_of_mem_nodes hs.distinct hplace, hs.mem_nodes_of_isAncestor hplace hn⟩

/-- Whatever reaches into a cluster from outside is carried on the way up, at the
    vertex that leads down to it. -/
theorem Orderly.exists_step (h : t.Orderly count) (hplace : t.find? place.cluster.id = some place)
    (hn : n ∈ t.nodes) (hout : n ∉ place.nodes) {z : Sym2 LocalVertex}
    (hz : (z, e) ∈ n.storage.carries) (he : t.reaches place.cluster.id e = true) :
    ∃ a ∈ z, (n.id, a) ∈ t.path place.cluster.id := by
  by_contra hnone
  rw [← touches_eq hplace] at he
  exact h.not_touches_around hplace hn hout hz (fun a ha hstep _ => hnone ⟨a, ha, hstep⟩) he

/-- A walk up that takes some of what reaches into the cluster it starts from
    relieves every cluster outside of that. -/
theorem Orderly.relieved_withdrawSteps_of_le (h : t.Orderly count)
    (hplace : t.find? place.cluster.id = some place) {p : GlobalEdge → Bool}
    (hle : ∀ g, p g = true → t.reaches place.cluster.id g = true) (hn : n ∈ t.nodes)
    (hout : n ∉ place.nodes) :
    n.Relieved t.config p (n.withdrawSteps t.config p (t.path place.cluster.id)) := by
  have hd := h.sound.distinct
  have hsound := h.sound.nodes n hn
  by_cases hsome : ∃ z g, (z, g) ∈ n.storage.carries ∧ p g = true
  · -- All that matches is at the vertex of the one step that is made here.
    obtain ⟨z, g, hz, hg⟩ := hsome
    obtain ⟨v, -, hstep⟩ := h.exists_step hplace hn hout hz (hle g hg)
    rw [Node.withdrawSteps_of_mem (hd.nodup_path place.cluster.id) hstep]
    refine Node.relieved_withdrawAt h.sound.complete hsound (fun z' g' hz' hg' => ?_) ⟨z, g, hz, hg⟩
    obtain ⟨a, ha, hstep'⟩ := h.exists_step hplace hn hout hz' (hle g' hg')
    exact hd.eq_of_mem_path hstep' hstep ▸ ha
  · -- Nothing here matches, so a step at this cluster would do nothing.
    have hnone : ∀ z g, (z, g) ∈ n.storage.carries → ¬ p g = true :=
      fun z g hz hg => hsome ⟨z, g, hz, hg⟩
    have hself : ∀ v, n.cluster.withdrawAt t.config p v = n.cluster := by
      intro v
      refine if_pos (List.isEmpty_iff.mpr (List.eq_nil_iff_forall_not_mem.mpr (fun g hg => ?_)))
      obtain ⟨hp, z, -, hz⟩ := Storage.of_mem_matchingAt hsound.storage hg
      exact hnone z g hz hp
    have heq : n.withdrawSteps t.config p (t.path place.cluster.id) = n := by
      by_cases hpath : ∃ v, (n.id, v) ∈ t.path place.cluster.id
      · obtain ⟨v, hstep⟩ := hpath
        rw [Node.withdrawSteps_of_mem (hd.nodup_path place.cluster.id) hstep, hself]
      · refine Node.withdrawSteps_of_notMem (fun hmem => hpath ?_)
        obtain ⟨step, hstep, hid⟩ := List.mem_map.mp hmem
        exact ⟨step.2, hid ▸ hstep⟩
    rw [heq]
    exact Node.relieved_of_none hnone

/-- A walk up relieves every cluster outside of what reaches into the one that
    it starts from. -/
theorem Orderly.relieved_withdrawSteps (h : t.Orderly count)
    (hplace : t.find? place.cluster.id = some place) (hn : n ∈ t.nodes) (hout : n ∉ place.nodes) :
    n.Relieved t.config (t.reaches place.cluster.id)
      (n.withdrawSteps t.config (t.reaches place.cluster.id) (t.path place.cluster.id)) :=
  h.relieved_withdrawSteps_of_le hplace (fun _ hg => hg) hn hout

/-! ## The tree afterwards -/

/-- The clusters of a tree in which content is replaced: those that come, and
    those outside, relieved of what reached into the content that goes. -/
theorem Orderly.mem_nodes_replaced_iff (h : t.Orderly count)
    (hplace : t.find? place.cluster.id = some place) (copy : Branch)
    (hid : copy.cluster.id = place.cluster.id) (next : Nat) :
    n' ∈ (t.replaced place copy next).nodes ↔ n' ∈ copy.nodes ∨ ∃ n ∈ t.nodes, n ∉ place.nodes
      ∧ n' = n.withdrawSteps t.config (t.reaches place.cluster.id) (t.path place.cluster.id) := by
  have hd := h.sound.distinct
  obtain ⟨around, hnodes, hreplaced⟩ := h.sound.nodes_replaced hplace
  have hmap := nodes_withdrawAbove hd (GlobalEdge.touches place.globals) place.cluster.id
  rw [hreplaced copy next hid, Multiset.mem_add]
  refine or_congr_right ?_
  have hw := h.sound.withdrawAbove (GlobalEdge.touches place.globals) place.cluster.id
  rw [← touches_eq hplace]
  constructor
  · intro hmem
    have hall : n' ∈ t.nodes.map
        (Node.withdrawSteps t.config (GlobalEdge.touches place.globals) (t.path place.cluster.id)) :=
      hmap ▸ hnodes ▸ Multiset.mem_add.mpr (Or.inr hmem)
    obtain ⟨n, hn, rfl⟩ := Multiset.mem_map.mp hall
    refine ⟨n, hn, fun hin => ?_, rfl⟩
    -- A cluster of the branch is not around it as well.
    have hids := hw.distinct
    rw [Distinct, ids, hnodes, Multiset.map_add, Multiset.nodup_add] at hids
    have hsame := ((h.sound.nodes n hn).withdrawSteps (GlobalEdge.touches place.globals)
      (t.path place.cluster.id)).id
    exact Multiset.disjoint_left.mp hids.2.2 (Multiset.mem_map_of_mem Node.id hin)
      (hsame ▸ Multiset.mem_map_of_mem Node.id hmem)
  · rintro ⟨n, hn, hout, rfl⟩
    have hall : n.withdrawSteps t.config (GlobalEdge.touches place.globals) (t.path place.cluster.id)
        ∈ place.nodes + around := by
      rw [← hnodes, hmap]
      exact Multiset.mem_map_of_mem _ hn
    refine (Multiset.mem_add.mp hall).resolve_left (fun hin => hout ?_)
    have hsame := ((h.sound.nodes n hn).withdrawSteps (GlobalEdge.touches place.globals)
      (t.path place.cluster.id)).id
    exact hd.eq_of_id (Multiset.mem_of_le (nodes_le_of_find? hplace) hin) hn hsame ▸ hin

/-- A cluster that is emptied stays, without content. -/
theorem Sound.emptied_eq (hs : t.Sound) (hplace : t.find? place.cluster.id = some place) :
    t.emptied place = t.replaced place (bare place) t.nextClusterId := by
  have hnext := nextClusterId_withdrawAbove t (GlobalEdge.touches place.globals) place.cluster.id
  rw [hs.emptied_withBranch hplace, replaced, ← hnext]
  rfl

end Tree

end NestedGraph
