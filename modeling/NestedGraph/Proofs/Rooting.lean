import NestedGraph.Proofs.Upkeep
import NestedGraph.Proofs.Likeness

/-! # Rooting — content that is replaced keeps order

    When the content of a cluster goes, every edge that reached into it
    goes as well, because in a tree in order such an edge is on the way up.
    The copy that comes in its place has no name that stays around it: the
    check before looks for just those.  So order is kept. -/

namespace NestedGraph

/-! ## Ids in the way -/

theorem Storage.mem_names {s : Storage} {id : UInt64} :
    id ∈ s.names ↔ (∃ v g, s.global? v = some g ∧ g.id = id)
      ∨ ∃ z g, (z, g) ∈ s.carries ∧ g.id = id := by
  simp only [names, Multiset.mem_add, Multiset.mem_map, Prod.exists, mem_holds]

theorem Storage.mem_allCarried {s : Storage} {g : GlobalEdge} :
    g ∈ s.allCarried ↔ ∃ z, (z, g) ∈ s.carries := by
  rw [← Multiset.mem_coe, coe_allCarried, Multiset.mem_map]
  constructor
  · rintro ⟨⟨z, x⟩, hx, rfl⟩
    exact ⟨z, mem_carries.mpr ⟨x, hx, rfl⟩⟩
  · rintro ⟨z, hz⟩
    obtain ⟨x, hx, rfl⟩ := mem_carries.mp hz
    exact ⟨(z, x), hx, rfl⟩

namespace Forest

theorem coe_clustersLastFirst (f : Forest) :
    (f.clustersLastFirst : Multiset Cluster) = f.clusters := by
  induction f with
  | nil => rfl
  | cons v k inside rest ihInside ihRest =>
      rw [clustersLastFirst, clusters, ← Multiset.coe_add, ← Multiset.coe_add, ← Multiset.cons_coe,
        ← Multiset.cons_coe, ihInside, ihRest, add_comm]

theorem prune_of_notMem {f : Forest} {c : ClusterId} (h : c ∉ f.ids) : f.prune c = f := by
  induction f with
  | nil => rfl
  | cons v k inside rest ihInside ihRest =>
      rw [ids_cons, Multiset.mem_cons, Multiset.mem_add, not_or, not_or] at h
      obtain ⟨hk, hin, hr⟩ := h
      rw [prune, if_neg (Ne.symm hk), ihInside hin, ihRest hr]

/-- The clusters of a branch that is left out, and those that stay. -/
theorem coe_clusters_prune {f : Forest} (hd : f.ids.Nodup) {c : ClusterId} {b : Branch}
    (hb : f.find? c = some b) :
    (f.clusters : Multiset Cluster) = b.clusters + (f.prune c).clusters := by
  induction f with
  | nil => cases hb
  | cons v k inside rest ihInside ihRest =>
      rw [ids_cons, Multiset.nodup_cons, Multiset.nodup_add] at hd
      obtain ⟨hk, hin, hr, hdisj⟩ := hd
      have hfound : ∀ {g : Forest}, g.find? c = some b → c ∈ g.ids :=
        fun hg => mem_ids_iff.mpr (Option.isSome_iff_exists.mpr ⟨b, hg⟩)
      rw [find?] at hb
      rw [clusters, prune]
      by_cases hc : k.id = c
      · have hrest : c ∉ rest.ids := fun hmem => hk (Multiset.mem_add.mpr (Or.inr (hc ▸ hmem)))
        rw [if_pos hc] at hb ⊢
        obtain rfl := Option.some.inj hb
        rw [prune_of_notMem hrest, ← Multiset.coe_add]
        rfl
      · rw [if_neg hc] at hb ⊢
        rw [clusters, ← Multiset.coe_add, ← Multiset.coe_add, ← Multiset.cons_coe,
          ← Multiset.cons_coe]
        -- The branch is in one of the two, and the other stays as it is.
        rcases Option.or_eq_some_iff.mp hb with hb | ⟨-, hb⟩
        · have hrest : c ∉ rest.ids := Multiset.disjoint_left.mp hdisj (hfound hb)
          rw [prune_of_notMem hrest, ihInside hin hb, ← Multiset.add_cons, add_assoc]
        · have hinside : c ∉ inside.ids := Multiset.disjoint_right.mp hdisj (hfound hb)
          rw [prune_of_notMem hinside, ihRest hr hb, add_left_comm]

end Forest

theorem Branch.mem_clustersLastFirst {b : Branch} {k : Cluster} :
    k ∈ b.clustersLastFirst ↔ ∃ n ∈ b.nodes, n.cluster = k := by
  rw [← mem_clusters, clustersLastFirst, clusters, ← Multiset.mem_coe, ← Multiset.mem_coe,
    ← Multiset.cons_coe, ← Multiset.cons_coe, Forest.coe_clustersLastFirst]

namespace Tree

variable {t : Tree} {count count' : UInt64} {place : Branch}

theorem Distinct.coe_clusters_outside (hd : t.Distinct)
    (hplace : t.find? place.cluster.id = some place) :
    (t.top.clusters : Multiset Cluster) = place.clusters + t.outside place.cluster.id := by
  rw [find?, Branch.find?] at hplace
  rw [outside]
  by_cases hc : t.top.cluster.id = place.cluster.id
  · rw [if_pos hc] at hplace ⊢
    rw [Option.some.inj hplace, Multiset.coe_nil, add_zero]
  · rw [if_neg hc] at hplace ⊢
    rw [Branch.clusters, ← Multiset.cons_coe, ← Multiset.cons_coe,
      Forest.coe_clusters_prune hd.inside hplace, Multiset.add_cons]

/-- The clusters outside are those that are not in the branch. -/
theorem Distinct.mem_outside (hd : t.Distinct) (hplace : t.find? place.cluster.id = some place)
    {k : Cluster} :
    k ∈ t.outside place.cluster.id ↔ ∃ n ∈ t.nodes, n ∉ place.nodes ∧ n.cluster = k := by
  have hall := hd.coe_clusters_outside hplace
  constructor
  · intro hk
    have hmem : k ∈ t.top.clusters := by
      rw [← Multiset.mem_coe, hall]
      exact Multiset.mem_add.mpr (Or.inr hk)
    obtain ⟨n, hn, rfl⟩ := Branch.mem_clusters.mp hmem
    refine ⟨n, hn, fun hin => ?_, rfl⟩
    -- A cluster of the branch is not outside as well.
    have hids : t.top.ids.Nodup := hd
    rw [Branch.ids_eq_clusters, ← Multiset.map_coe, hall, Multiset.map_add,
      Multiset.nodup_add] at hids
    exact Multiset.disjoint_left.mp hids.2.2
      (Multiset.mem_map_of_mem Cluster.id (Branch.mem_clusters.mpr ⟨n, hin, rfl⟩))
      (Multiset.mem_map_of_mem Cluster.id hk)
  · rintro ⟨n, hn, hout, rfl⟩
    have hmem : n.cluster ∈ (t.top.clusters : Multiset Cluster) :=
      Branch.mem_clusters.mpr ⟨n, hn, rfl⟩
    rw [hall] at hmem
    refine (Multiset.mem_add.mp hmem).resolve_left (fun hin => hout ?_)
    obtain ⟨m, hm, hcluster⟩ := Branch.mem_clusters.mp hin
    have hid : m.id = n.id := congrArg Cluster.id hcluster
    exact hd.eq_of_id (Multiset.mem_of_le (nodes_le_of_find? hplace) hm) hn hid ▸ hm

/-! ## Around what goes -/

theorem nestedNodes_le (b : Branch) (v : LocalVertex) :
    nestedNodes (b.inside.branchAt? v) ≤ b.inside.nodes := by
  rw [Forest.nodes_eraseAt b.inside v]
  exact Multiset.le_add_right ..

/-- Whatever reached into a branch is not carried around it any more. -/
theorem Orderly.not_touches_around (h : t.Orderly count)
    (hplace : t.find? place.cluster.id = some place) {n : Node} (hn : n ∈ t.nodes)
    (hout : n ∉ place.nodes) {z : Sym2 LocalVertex} {g : GlobalEdge}
    (hz : (z, g) ∈ n.storage.carries)
    (habove : ∀ a ∈ z, (n.id, a) ∈ t.path place.cluster.id → ¬ g.touches place.globals = true) :
    ¬ g.touches place.globals = true := by
  obtain ⟨x, y, rfl, hx, hy⟩ := h.placed n hn z g hz
  have hnone : ∀ a ∈ s(x, y), ∀ name, t.Stands n.id a name → name ∈ place.globals →
      ¬ g.touches place.globals = true := by
    intro a ha name hst hmem
    obtain ⟨v, o, u, hl, hg⟩ := (h.sound.mem_globals_iff hplace).mp hmem
    have htravel : name ∈ place.travelling v := (h.sound.mem_travelling hplace).mpr ⟨o, u, hl, hg⟩
    rcases h.carried_at hplace hn hst htravel with heq | hpath | hin
    · have hself := h.sound.distinct.eq_of_id hn (node_mem_of_find? hplace) (Prod.mk.inj heq).1
      exact absurd (hself ▸ place.node_mem_nodes) hout
    · exact habove a ha hpath
    · exact absurd (Multiset.mem_cons_of_mem (Multiset.mem_of_le (nestedNodes_le place v) hin)) hout
  intro htouch
  rcases GlobalEdge.touches_eq_true.mp htouch with hmem | hmem
  · exact hnone x (Sym2.mem_mk_left x y) _ hx hmem htouch
  · exact hnone y (Sym2.mem_mk_right x y) _ hy hmem htouch

/-- What is left around a branch of which the content goes. -/
theorem Orderly.of_mem_around (h : t.Orderly count)
    (hplace : t.find? place.cluster.id = some place) {around : Multiset Node}
    (hnodes : (t.withdrawAbove (GlobalEdge.touches place.globals) place.cluster.id).nodes
      = place.nodes + around) {n' : Node} (hn' : n' ∈ around) :
    ∃ n ∈ t.nodes, n ∉ place.nodes ∧ n.Lighter n' ∧ ∀ z g, (z, g) ∈ n'.storage.carries →
      ¬ g.touches place.globals = true := by
  have hw := h.sound.withdrawAbove (GlobalEdge.touches place.globals) place.cluster.id
  have hmem : n' ∈ (t.withdrawAbove (GlobalEdge.touches place.globals) place.cluster.id).nodes :=
    hnodes ▸ Multiset.mem_add.mpr (Or.inr hn')
  obtain ⟨n, hn, hlight, hgone⟩ := h.sound.of_mem_withdrawAbove hmem
  have hout : n ∉ place.nodes := by
    intro hin
    have hdistinct := hw.distinct
    rw [Distinct, ids, hnodes, Multiset.map_add, Multiset.nodup_add] at hdistinct
    exact Multiset.disjoint_left.mp hdistinct.2.2 (Multiset.mem_map_of_mem Node.id hin)
      (hlight.id ▸ Multiset.mem_map_of_mem Node.id hn')
  refine ⟨n, hn, hout, hlight, fun z g hz => ?_⟩
  exact h.not_touches_around hplace hn hout (Multiset.mem_of_le hlight.carries hz) (hgone z g hz)

/-- What a branch does not have stays around it. -/
theorem Orderly.exists_ordinary_around (h : t.Orderly count) {around : Multiset Node}
    (hnodes : (t.withdrawAbove (GlobalEdge.touches place.globals) place.cluster.id).nodes
      = place.nodes + around) {n : Node} (hn : n ∈ t.nodes) {u : LocalVertex} {g : GlobalVertex}
    (ho : n.Ordinary u g) (hg : g ∉ place.globals) :
    ∃ n' ∈ around, n'.id = n.id ∧ n'.Ordinary u g := by
  obtain ⟨f, hf, hlight⟩ := h.sound.lighter_withdrawAbove (GlobalEdge.touches place.globals)
    place.cluster.id
  have hmem : f n ∈ place.nodes + around := by
    rw [← hnodes, hf]
    exact Multiset.mem_map_of_mem f hn
  have ho' := (hlight n hn).ordinary ho
  rcases Multiset.mem_add.mp hmem with hin | hin
  · exact absurd (Branch.mem_globals.mpr ⟨f n, hin, u, ho'.1⟩) hg
  · exact ⟨f n, hin, (hlight n hn).id, ho'⟩

/-- Ids that stay around a branch are looked for before something comes in
    its place. -/
theorem Orderly.mem_remainingIds (h : t.Orderly count)
    (hplace : t.find? place.cluster.id = some place) {around : Multiset Node}
    (hnodes : (t.withdrawAbove (GlobalEdge.touches place.globals) place.cluster.id).nodes
      = place.nodes + around) {n' : Node} (hn' : n' ∈ around) {id : UInt64}
    (hid : id ∈ n'.storage.names) : id ∈ t.remainingIds place := by
  obtain ⟨n, hn, hout, hlight, hclear⟩ := h.of_mem_around hplace hnodes hn'
  refine List.mem_flatMap.mpr ⟨n.cluster, (h.sound.distinct.mem_outside hplace).mpr ⟨n, hn, hout, rfl⟩, ?_⟩
  rw [List.mem_append]
  rcases Storage.mem_names.mp hid with ⟨v, g, hg, rfl⟩ | ⟨z, g, hz, rfl⟩
  · refine Or.inl (List.mem_map_of_mem (Storage.mem_globals.mpr ⟨v, ?_⟩))
    rw [← Storage.mem_holds, hlight.holds, Storage.mem_holds] at hg
    exact hg
  · refine Or.inr (List.mem_map_of_mem (List.mem_filter.mpr ⟨?_, ?_⟩))
    · exact Storage.mem_allCarried.mpr ⟨z, Multiset.mem_of_le hlight.carries hz⟩
    · rw [Bool.eq_false_iff.mpr (hclear z g hz)]
      rfl

/-! ## Content that goes -/

/-- The cluster of a branch without content. -/
def bare (place : Branch) : Branch := ⟨place.cluster.cleared, .nil⟩

theorem storage_bare (place : Branch) : (bare place).node.storage.names = 0
    ∧ (bare place).node.storage.carries = 0 := by
  have hnames : (bare place).node.storage.names = 0 := by
    rw [← Storage.coe_ids]
    rfl
  have hle : (bare place).node.storage.carries.map (fun entry => entry.2.id)
      ≤ (bare place).node.storage.names := Multiset.le_add_left ..
  rw [hnames] at hle
  exact ⟨hnames, Multiset.map_eq_zero.mp (Multiset.le_zero.mp hle)⟩

/-- Order is kept when the content of a branch goes. -/
theorem Orderly.replaced_bare (h : t.Orderly count)
    (hplace : t.find? place.cluster.id = some place) :
    (t.replaced place (bare place) t.nextClusterId).Orderly count := by
  have hw := h.sound.withdrawAbove (GlobalEdge.touches place.globals) place.cluster.id
  obtain ⟨around, hnodes, hreplaced⟩ := h.sound.nodes_replaced hplace
  have hnew := hreplaced (bare place) t.nextClusterId rfl
  have hbare : (bare place).nodes = {(bare place).node} := rfl
  have hplaceSound := h.sound.nodes _ (node_mem_of_find? hplace)
  have hsound : (t.replaced place (bare place) t.nextClusterId).Sound := by
    refine hw.replace place.nodes (bare place).nodes 0 hnodes hnew (root_update (fun _ _ => rfl)) rfl
      (le_of_eq (nextClusterId_withdrawAbove ..)) ?_ Multiset.nodup_zero
      (fun c hc => absurd hc (Multiset.notMem_zero c)) (fun n hn => ?_)
    · rw [hbare, add_zero, Multiset.map_singleton, Multiset.singleton_le]
      exact place.mem_ids_self
    · rw [hbare, Multiset.mem_singleton] at hn
      rw [hn, config_withdrawAbove]
      exact ⟨Storage.sound_clear _, Storage.fits_clear, hplaceSound.properties, List.nodup_nil,
        fun entry he => absurd he List.not_mem_nil⟩
  refine h.shrink hsound place.globals (fun n' hn' => ?_) (fun n hn u g ho hg => ?_) ?_
  · rw [hnew, hbare, Multiset.singleton_add, Multiset.mem_cons] at hn'
    rcases hn' with rfl | hn'
    · refine ⟨place.node, node_mem_of_find? hplace, rfl, fun entry he => absurd he List.not_mem_nil,
        fun z g hz => ?_⟩
      rw [(storage_bare place).2] at hz
      exact absurd hz (Multiset.notMem_zero _)
    · obtain ⟨n, hn, -, hlight, hclear⟩ := h.of_mem_around hplace hnodes hn'
      exact ⟨n, hn, hlight.id.symm, fun _ he => hlight.entries ▸ he,
        fun z g hz => ⟨Multiset.mem_of_le hlight.carries hz, hclear z g hz⟩⟩
  · obtain ⟨n', hn', hid, ho'⟩ := h.exists_ordinary_around hnodes hn ho hg
    exact ⟨n', hnew ▸ Multiset.mem_add.mpr (Or.inr hn'), hid, ho'⟩
  · have hlight := (h.sound.lighter_withdrawAbove (GlobalEdge.touches place.globals)
      place.cluster.id).names_le
    rw [hnodes, Multiset.add_bind] at hlight
    rw [hnew, hbare, Multiset.singleton_add, Multiset.cons_bind, (storage_bare place).1, zero_add]
    exact (Multiset.le_add_left ..).trans hlight

/-! ## A copy that comes -/

section Copies

variable {σ : Type} {cloner : Cloner σ} {source : Tree} {branch : Branch} {names : Renaming}
  {out : Branch × Nat}

/-- A copy that comes brings the names of its source, and others only go. -/
theorem Sound.of_mem_names_replaced (hs : t.Sound) (hplace : t.find? place.cluster.id = some place)
    (hbranch : source.find? branch.cluster.id = some branch)
    (hout : branch.Grows cloner t.config names t.nextClusterId place.cluster.cleared out)
    {id : UInt64} (hid : id ∈ (t.replaced place out.1 out.2).names) :
    id ∈ source.names ∨ id ∈ t.names := by
  obtain ⟨around, hnodes, hreplaced⟩ := hs.nodes_replaced hplace
  rw [← Multiset.mem_coe, coe_names, hreplaced out.1 out.2 hout.id, Multiset.add_bind,
    hout.copies.names_eq, Multiset.mem_add] at hid
  rcases hid with hid | hid
  · exact Or.inl (mem_names_of_le (nodes_le_of_find? hbranch) hid)
  · have hlight := (hs.lighter_withdrawAbove (GlobalEdge.touches place.globals)
      place.cluster.id).names_le
    rw [hnodes, Multiset.add_bind] at hlight
    refine Or.inr (Multiset.mem_coe.mp ?_)
    rw [coe_names]
    exact Multiset.mem_of_le ((Multiset.le_add_left ..).trans hlight) hid

/-- Order is kept when a copy comes in place of the content of a branch. -/
theorem Orderly.replaced (h : t.Orderly count) (hsource : source.Orderly count')
    (hcount : count ≤ count') (hplace : t.find? place.cluster.id = some place)
    (hbranch : source.find? branch.cluster.id = some branch)
    (hids : ∀ k ∈ branch.clustersLastFirst, ∀ id ∈ k.storage.ids, id ∉ t.remainingIds place)
    (hout : branch.Grows cloner t.config names t.nextClusterId place.cluster.cleared out) :
    (t.replaced place out.1 out.2).Orderly count' := by
  have hid : out.1.cluster.id = place.cluster.id := hout.id
  have hcleared : place.cluster.cleared.id = place.cluster.id := rfl
  have hs := (h.sound.becomes_replaced hcleared hplace hout).sound
  have hfind := h.sound.distinct.find?_replaced hplace hid out.2
  obtain ⟨around, hnodes, hreplaced⟩ := h.sound.nodes_replaced hplace
  have hnew := hreplaced out.1 out.2 hid
  have hempty := hreplaced (bare place) t.nextClusterId rfl
  have hbare : (bare place).nodes = {(bare place).node} := rfl
  have hrest := h.replaced_bare hplace
  have hbranchLe := nodes_le_of_find? hbranch
  have haround : around ≤ (t.replaced place (bare place) t.nextClusterId).nodes :=
    hempty ▸ Multiset.le_add_left ..
  have hnames : (t.replaced place out.1 out.2).nodes.bind (fun n => n.storage.names)
      = branch.nodes.bind (fun n => n.storage.names) + around.bind (fun n => n.storage.names) := by
    rw [hnew, Multiset.add_bind, hout.copies.names_eq]
  refine ⟨hs, ⟨?_, fun id hmem => ?_, UInt64.le_trans h.named.reserved hcount⟩,
    fun n' hn' z g hz => ?_⟩
  · -- No name of the copy stayed around it.
    rw [nodup_names_iff, hnames, Multiset.nodup_add]
    refine ⟨hsource.named.nodup_of_le hbranchLe, hrest.named.nodup_of_le haround,
      Multiset.disjoint_left.mpr (fun {id} hid hid' => ?_)⟩
    obtain ⟨n, hn, hid⟩ := Multiset.mem_bind.mp hid
    obtain ⟨n', hn', hid'⟩ := Multiset.mem_bind.mp hid'
    rw [← Storage.coe_ids] at hid
    exact hids n.cluster (Branch.mem_clustersLastFirst.mpr ⟨n, hn, rfl⟩) id hid
      (h.mem_remainingIds hplace hnodes hn' hid')
  · rw [← Multiset.mem_coe, coe_names, hnames, Multiset.mem_add] at hmem
    rcases hmem with hmem | hmem
    · exact hsource.named.bound id (mem_names_of_le hbranchLe hmem)
    · obtain ⟨hlow, hhigh⟩ := hrest.named.bound id (mem_names_of_le haround hmem)
      exact ⟨hlow, UInt64.le_trans hhigh hcount⟩
  · rw [hnew, Multiset.mem_add] at hn'
    rcases hn' with hn' | hn'
    · obtain ⟨b, b', inner, hb, hb', hcopies, rfl⟩ := exists_copied_branch hsource.sound hs
        hout.copies hbranch hfind hn'
      exact hsource.placed.joins_copy hsource.sound hs hb hb' hcopies hz
    · refine (hrest.placed n' (Multiset.mem_of_le haround hn') z g hz).mono (fun m hm => ?_)
      rw [hempty, hbare, Multiset.singleton_add, Multiset.mem_cons] at hm
      rcases hm with rfl | hm
      · refine ⟨out.1.node, hnew ▸ Multiset.mem_add.mpr (Or.inl out.1.node_mem_nodes), hid,
          fun entry he => absurd he List.not_mem_nil, fun u name ho => ?_⟩
        have hnone : (bare place).node.storage.global? u = none := by
          rw [Storage.global?, show (bare place).node.storage.vertex? u = none from
            SlotStore.get?_clear ..]
          rfl
        exact absurd (ho.1.symm.trans hnone) (Option.some_ne_none name)
      · exact ⟨m, hnew ▸ Multiset.mem_add.mpr (Or.inr hm), rfl, fun _ he => he, fun _ _ ho => ho⟩

end Copies

end Tree

end NestedGraph
