import NestedGraph.Proofs.Soundness
import NestedGraph.Tree.Lookup

/-! # Lookup — what a vertex stands for

    A vertex LEADS to itself, and a vertex on which a cluster hangs leads
    to whatever the vertices of that cluster lead to.  What lies inside a
    branch, what travels with a vertex and which vertex represents
    another further inside all come down to this one relation, and so does
    the way up: a vertex leads to another exactly when it is on the way up
    from it. -/

namespace NestedGraph

/-! ## Names in one storage -/

namespace Storage

theorem global?_of_vertexOf? {s : Storage} {g : GlobalVertex} {v : LocalVertex}
    (h : s.vertexOf? g = some v) : s.global? v = some g := by
  obtain ⟨⟨w, r⟩, hfind, rfl⟩ := Option.map_eq_some_iff.mp h
  have hr : s.vertex? w = some r := SlotStore.mem_entries.mp (List.mem_of_find?_eq_some hfind)
  have hg : r.global = g := by simpa using List.find?_some hfind
  rw [global?, hr, Option.map_some, hg]

theorem exists_vertexOf? {s : Storage} {g : GlobalVertex} {v : LocalVertex}
    (h : s.global? v = some g) : ∃ w, s.vertexOf? g = some w := by
  obtain ⟨r, hr, rfl⟩ := Option.map_eq_some_iff.mp h
  have hsome : (s.vertices.entries.find? (fun entry => decide (entry.2.global = r.global))).isSome
      = true := by
    rw [List.find?_isSome]
    exact ⟨(v, r), SlotStore.mem_entries.mpr hr, by simp⟩
  obtain ⟨entry, he⟩ := Option.isSome_iff_exists.mp hsome
  exact ⟨entry.1, by rw [vertexOf?, he]; rfl⟩

theorem hasVertex_of_global? {s : Storage} {g : GlobalVertex} {v : LocalVertex}
    (h : s.global? v = some g) : s.hasVertex v = true := by
  obtain ⟨r, hr, -⟩ := Option.map_eq_some_iff.mp h
  exact hasVertex_iff.mpr ⟨r, hr⟩

theorem mem_globals {s : Storage} {g : GlobalVertex} :
    g ∈ s.globals ↔ ∃ v, s.global? v = some g := by
  simp only [globals, SlotStore.values, List.map_map, List.mem_map, Prod.exists,
    SlotStore.mem_entries, global?, Option.map_eq_some_iff]
  exact ⟨fun ⟨v, r, hr, hg⟩ => ⟨v, r, hr, hg⟩, fun ⟨v, r, hr, hg⟩ => ⟨v, r, hr, hg⟩⟩

end Storage

namespace Forest

/-- The clusters are those of the nodes. -/
theorem coe_clusters (f : Forest) : (f.clusters : Multiset Cluster) = f.nodes.map Node.cluster := by
  induction f with
  | nil => rfl
  | cons v k inside rest ihInside ihRest =>
      rw [clusters, nodes, Multiset.map_cons, Multiset.map_add, ← ihInside, ← ihRest]
      rfl

theorem mem_branches_entries {f : Forest} {v : LocalVertex} {b : Branch}
    (h : (v, b) ∈ f.branches) : (v, b.cluster.id) ∈ f.entries :=
  List.mem_map.mpr ⟨(v, b), h, rfl⟩

theorem mem_branches_of_branchAt? {f : Forest} {v : LocalVertex} {b : Branch}
    (h : f.branchAt? v = some b) : (v, b) ∈ f.branches := by
  induction f with
  | nil => exact nomatch h
  | cons w k inside rest _ ih =>
      unfold branchAt? at h
      split at h
      · rename_i hw
        obtain rfl := Option.some.inj h
        rw [hw]
        exact List.mem_cons_self ..
      · exact List.mem_cons_of_mem _ (ih h)

theorem branchAt?_of_mem_branches {f : Forest} {v : LocalVertex} {b : Branch}
    (hkeys : (f.entries.map Prod.fst).Nodup) (h : (v, b) ∈ f.branches) :
    f.branchAt? v = some b := by
  induction f with
  | nil => exact nomatch h
  | cons w k inside rest _ ih =>
      rw [entries_cons, List.map_cons, List.nodup_cons] at hkeys
      rcases List.mem_cons.mp h with heq | h
      · obtain ⟨rfl, rfl⟩ := Prod.mk.inj heq
        exact if_pos rfl
      · have hw : w ≠ v := by
          rintro rfl
          exact hkeys.1 (List.mem_map.mpr ⟨_, mem_branches_entries h, rfl⟩)
        exact (if_neg hw).trans (ih hkeys.2 h)

theorem nodes_le_of_mem_branches {f : Forest} {v : LocalVertex} {b : Branch}
    (h : (v, b) ∈ f.branches) : b.nodes ≤ f.nodes := by
  induction f with
  | nil => exact nomatch h
  | cons w k inside rest _ ih =>
      rcases List.mem_cons.mp h with heq | h
      · obtain ⟨rfl, rfl⟩ := Prod.mk.inj heq
        exact Multiset.cons_le_cons _ (Multiset.le_add_right ..)
      · exact (ih h).trans ((Multiset.le_add_left ..).trans (Multiset.le_cons_self ..))

/-- Every cluster of a forest is in one of its branches. -/
theorem exists_branch_of_mem_nodes {f : Forest} {n : Node} (h : n ∈ f.nodes) :
    ∃ v b, (v, b) ∈ f.branches ∧ n ∈ b.nodes := by
  induction f with
  | nil => exact absurd h (Multiset.notMem_zero n)
  | cons w k inside rest _ ih =>
      rw [nodes, Multiset.mem_cons, Multiset.mem_add] at h
      rcases h with rfl | h | h
      · exact ⟨w, ⟨k, inside⟩, List.mem_cons_self .., Multiset.mem_cons_self ..⟩
      · exact ⟨w, ⟨k, inside⟩, List.mem_cons_self .., Multiset.mem_cons_of_mem h⟩
      · obtain ⟨v, b, hb, hn⟩ := ih h
        exact ⟨v, b, List.mem_cons_of_mem _ hb, hn⟩

end Forest

namespace Branch

theorem coe_clusters (b : Branch) : (b.clusters : Multiset Cluster) = b.nodes.map Node.cluster := by
  rw [clusters, nodes, Multiset.map_cons, ← Forest.coe_clusters]
  rfl

theorem ids_eq_clusters (b : Branch) : b.ids = (b.clusters.map Cluster.id : List ClusterId) := by
  rw [← Multiset.map_coe, coe_clusters, Multiset.map_map]
  rfl

theorem mem_clusters {b : Branch} {k : Cluster} :
    k ∈ b.clusters ↔ ∃ n ∈ b.nodes, n.cluster = k := by
  rw [← Multiset.mem_coe, coe_clusters, Multiset.mem_map]

/-- The names in a branch are those in its clusters. -/
theorem mem_globals {b : Branch} {g : GlobalVertex} :
    g ∈ b.globals ↔ ∃ n ∈ b.nodes, ∃ u, n.storage.global? u = some g := by
  simp only [globals, List.mem_flatMap, mem_clusters, Storage.mem_globals]
  constructor
  · rintro ⟨k, ⟨n, hn, rfl⟩, u, hu⟩
    exact ⟨n, hn, u, hu⟩
  · rintro ⟨n, hn, u, hu⟩
    exact ⟨n.cluster, ⟨n, hn, rfl⟩, u, hu⟩

theorem of_vertexOwner? {b : Branch} {g : GlobalVertex} {o : ClusterId} {u : LocalVertex}
    (h : b.vertexOwner? g = some (o, u)) : ∃ n ∈ b.nodes, n.id = o ∧ n.storage.global? u = some g := by
  obtain ⟨k, hk, heq⟩ := List.exists_of_findSome?_eq_some h
  obtain ⟨n, hn, rfl⟩ := mem_clusters.mp hk
  obtain ⟨v, hv, heq⟩ := Option.map_eq_some_iff.mp heq
  obtain ⟨rfl, rfl⟩ := Prod.mk.inj heq
  exact ⟨n, hn, rfl, Storage.global?_of_vertexOf? hv⟩

theorem exists_vertexOwner? {b : Branch} {g : GlobalVertex} (h : g ∈ b.globals) :
    ∃ o u, b.vertexOwner? g = some (o, u) := by
  obtain ⟨n, hn, u, hu⟩ := mem_globals.mp h
  obtain ⟨w, hw⟩ := Storage.exists_vertexOf? hu
  cases ho : b.vertexOwner? g with
  | some place => exact ⟨place.1, place.2, rfl⟩
  | none =>
      have hnone := List.findSome?_eq_none_iff.mp ho n.cluster (mem_clusters.mpr ⟨n, hn, rfl⟩)
      rw [show n.cluster.storage.vertexOf? g = some w from hw] at hnone
      exact nomatch hnone

end Branch

/-! ## What a vertex leads to -/

namespace Tree

/-- Vertex `v` of cluster `c` is, or leads down to, vertex `u` of cluster
    `o`. -/
inductive Leads (t : Tree) : ClusterId → LocalVertex → ClusterId → LocalVertex → Prop where
  | here (c : ClusterId) (v : LocalVertex) : Leads t c v c v
  | inside {n : Node} {v w u : LocalVertex} {d o : ClusterId} (hn : n ∈ t.nodes)
      (he : (v, d) ∈ n.entries) (h : Leads t d w o u) : Leads t n.id v o u

variable {t : Tree}

/-- A step further down. -/
theorem Leads.snoc {c o d : ClusterId} {v u : LocalVertex} {n : Node} (h : t.Leads c v o u)
    (hn : n ∈ t.nodes) (hid : n.id = o) (he : (u, d) ∈ n.entries) (w : LocalVertex) :
    t.Leads c v d w := by
  induction h with
  | here c v =>
      subst hid
      exact .inside hn he (.here d w)
  | inside hm hv _ ih => exact .inside hm hv (ih hid he)

/-- What a vertex leads to has it on the way up. -/
theorem Leads.mem_path (hd : t.Distinct) {c o : ClusterId} {v u : LocalVertex}
    (h : t.Leads c v o u) : (c, v) = (o, u) ∨ (c, v) ∈ t.path o := by
  induction h with
  | here c v => exact Or.inl rfl
  | inside hn he _ ih =>
      refine Or.inr ?_
      have hpath := hd.path_child hn he
      rcases ih with heq | hmem
      · obtain ⟨rfl, rfl⟩ := Prod.mk.inj heq
        rw [hpath]
        exact List.mem_cons_self ..
      · obtain ⟨p, hp⟩ := hd.path_suffix hmem
        rw [hp, hpath]
        simp

/-- What is on the way up from a cluster leads to all its vertices. -/
theorem leads_of_mem_path (hd : t.Distinct) {c o : ClusterId} {v : LocalVertex}
    (h : (c, v) ∈ t.path o) (u : LocalVertex) : t.Leads c v o u := by
  generalize hlen : (t.path o).length = k
  induction k generalizing o u with
  | zero =>
      rw [List.length_eq_zero_iff.mp hlen] at h
      exact nomatch h
  | succ k ih =>
      cases hp : t.path o with
      | nil => rw [hp] at h; exact nomatch h
      | cons step p =>
          obtain ⟨c', v'⟩ := step
          obtain ⟨rfl, n, hn, hid, hv⟩ := hd.path_eq_cons hp
          rw [hp] at h hlen
          rcases List.mem_cons.mp h with heq | h
          · obtain ⟨rfl, rfl⟩ := Prod.mk.inj heq
            subst hid
            exact .inside hn hv (.here o u)
          · exact (ih h v' (Nat.succ.inj hlen)).snoc hn hid hv u

/-- In each cluster one vertex leads to a place. -/
theorem Leads.unique (hd : t.Distinct) {c o : ClusterId} {v w u : LocalVertex}
    (hv : t.Leads c v o u) (hw : t.Leads c w o u) : v = w := by
  have hself : ∀ x, (o, x) ∉ t.path o := by
    intro x hx
    exact absurd (hd.length_path_lt hx) (Nat.lt_irrefl _)
  rcases hv.mem_path hd with hv' | hv'
  · obtain ⟨rfl, rfl⟩ := Prod.mk.inj hv'
    rcases hw.mem_path hd with hw' | hw'
    · exact (Prod.mk.inj hw').2.symm
    · exact absurd hw' (hself w)
  · rcases hw.mem_path hd with hw' | hw'
    · obtain ⟨rfl, rfl⟩ := Prod.mk.inj hw'
      exact absurd hv' (hself v)
    · exact hd.eq_of_mem_path hv' hw'

theorem isAncestor_self (t : Tree) (c : ClusterId) : t.isAncestor c c = true :=
  decide_eq_true (List.mem_cons_self ..)

theorem Leads.isAncestor (hd : t.Distinct) {c o : ClusterId} {v u : LocalVertex}
    (h : t.Leads c v o u) : t.isAncestor c o = true := by
  refine decide_eq_true ?_
  rcases h.mem_path hd with heq | hmem
  · obtain ⟨rfl, rfl⟩ := Prod.mk.inj heq
    exact List.mem_cons_self ..
  · exact List.mem_cons_of_mem _ (List.mem_map.mpr ⟨_, hmem, rfl⟩)

/-- What is inside a cluster is led to from it. -/
theorem Distinct.exists_leads (hd : t.Distinct) {c o : ClusterId} (h : t.isAncestor c o = true)
    (u : LocalVertex) : ∃ v, t.Leads c v o u := by
  rcases List.mem_cons.mp (of_decide_eq_true h) with rfl | hmem
  · exact ⟨u, .here ..⟩
  · obtain ⟨⟨d, v⟩, hpath, rfl⟩ := List.mem_map.mp hmem
    exact ⟨v, leads_of_mem_path hd hpath u⟩

/-! ## Branches -/

/-- Whatever is in a branch is led to from its cluster. -/
theorem exists_leads_of_mem_nodes {b : Branch} {n : Node} (hle : b.nodes ≤ t.nodes)
    (hn : n ∈ b.nodes) (u : LocalVertex) : ∃ w, t.Leads b.cluster.id w n.id u := by
  have hforest : ∀ f : Forest, f.nodes ≤ t.nodes → n ∈ f.nodes →
      ∃ v d w, (v, d) ∈ f.entries ∧ t.Leads d w n.id u := by
    intro f
    induction f with
    | nil => exact fun _ h => absurd h (Multiset.notMem_zero n)
    | cons v k inside rest ihInside ihRest =>
        intro hle h
        have hin : inside.nodes ≤ t.nodes :=
          ((Multiset.le_add_right ..).trans (Multiset.le_cons_self ..)).trans hle
        have hr : rest.nodes ≤ t.nodes :=
          ((Multiset.le_add_left ..).trans (Multiset.le_cons_self ..)).trans hle
        rw [Forest.nodes, Multiset.mem_cons, Multiset.mem_add] at h
        rcases h with rfl | h | h
        · exact ⟨v, k.id, u, List.mem_cons_self .., .here ..⟩
        · obtain ⟨v', d', w, he, hl⟩ := ihInside hin h
          have hk : (⟨k, inside.entries⟩ : Node) ∈ t.nodes :=
            Multiset.mem_of_le hle (Multiset.mem_cons_self ..)
          exact ⟨v, k.id, v', List.mem_cons_self .., .inside hk he hl⟩
        · obtain ⟨v', d', w, he, hl⟩ := ihRest hr h
          exact ⟨v', d', w, List.mem_cons_of_mem _ he, hl⟩
  rw [Branch.nodes, Multiset.mem_cons] at hn
  rcases hn with rfl | hn
  · exact ⟨u, .here ..⟩
  · obtain ⟨v, d, w, he, hl⟩ := hforest b.inside ((Multiset.le_cons_self ..).trans hle) hn
    exact ⟨v, .inside (Multiset.mem_of_le hle b.node_mem_nodes) he hl⟩

/-- What the vertices of a cluster lead to is in its branch. -/
theorem Leads.mem_nodes (hs : t.Sound) {c o : ClusterId} {v u : LocalVertex} {n : Node}
    (h : t.Leads c v o u) {b : Branch} (hb : t.find? c = some b) (hn : n ∈ t.nodes)
    (hid : n.id = o) : n ∈ b.nodes := by
  induction h generalizing b with
  | here c v =>
      subst hid
      rw [← hs.distinct.node_of_find? hn hb]
      exact b.node_mem_nodes
  | inside hm he _ ih =>
      obtain rfl := hs.distinct.node_of_find? hm hb
      obtain ⟨d, hd, rfl⟩ := Forest.branchAt?_of_mem_entries (hs.nodes _ hm).keys he
      have hmem := ih (hs.distinct.find?_of_branchAt? hb hd) hid
      exact Multiset.mem_cons_of_mem
        (Multiset.mem_of_le (Forest.nodes_le_of_mem_branches (Forest.mem_branches_of_branchAt? hd)) hmem)

theorem isAncestor_of_mem_nodes (hd : t.Distinct) {c : ClusterId} {b : Branch} {n : Node}
    (hb : t.find? c = some b) (hn : n ∈ b.nodes) : t.isAncestor c n.id = true := by
  obtain rfl := id_of_find? hb
  obtain ⟨w, hl⟩ := exists_leads_of_mem_nodes (nodes_le_of_find? hb) hn ⟨0, 0⟩
  exact hl.isAncestor hd

/-- The clusters of a branch are those that its own cluster lies around. -/
theorem Sound.isAncestor_iff_mem_ids (hs : t.Sound) {c d : ClusterId} {b : Branch}
    (hb : t.find? c = some b) : t.isAncestor c d = true ↔ d ∈ b.ids := by
  constructor
  · intro h
    by_cases hd : d ∈ t.ids
    · obtain ⟨n, hn, rfl⟩ := Multiset.mem_map.mp hd
      obtain ⟨v, hl⟩ := hs.distinct.exists_leads h ⟨0, 0⟩
      exact Multiset.mem_map_of_mem Node.id (hl.mem_nodes hs hb hn rfl)
    · have hself : c = d := by
        simpa [isAncestor, path_of_dead hd] using h
      rw [← hself, ← id_of_find? hb]
      exact b.mem_ids_self
  · intro h
    obtain ⟨n, hn, rfl⟩ := Multiset.mem_map.mp h
    exact isAncestor_of_mem_nodes hs.distinct hb hn

/-- What is found inside a branch is found in the tree. -/
theorem Distinct.find?_inside (hd : t.Distinct) {c d : ClusterId} {b x : Branch}
    (hb : t.find? c = some b) (hx : b.inside.find? d = some x) : t.find? d = some x := by
  have hmem : d ∈ b.inside.ids := Forest.mem_ids_iff.mpr (by rw [hx]; rfl)
  have hne : t.top.cluster.id ≠ d := by
    rintro rfl
    have htop : t.root ∈ b.ids := by
      rw [Branch.ids_eq]
      exact Multiset.mem_cons_of_mem hmem
    obtain ⟨n, hn, v, hv⟩ := Branch.exists_parent htop
      (fun heq => (hd.nodup_inside hb).1 (heq ▸ hmem))
    exact hd.root_notMem (child_mem (Multiset.mem_of_le (nodes_le_of_find? hb) hn) hv)
  rw [find?, Branch.find?] at hb ⊢
  rw [if_neg hne]
  split at hb
  · obtain rfl := Option.some.inj hb
    exact hx
  · exact Forest.find?_trans hd.inside hb hx

theorem Distinct.exists_find?_inside (hd : t.Distinct) {c d : ClusterId} {b : Branch}
    (hb : t.find? c = some b) (h : d ∈ b.inside.ids) :
    ∃ x, b.inside.find? d = some x ∧ t.find? d = some x := by
  obtain ⟨x, hx⟩ := Option.isSome_iff_exists.mp (Forest.mem_ids_iff.mp h)
  exact ⟨x, hx, hd.find?_inside hb hx⟩

theorem Distinct.exists_find?_branch (hd : t.Distinct) {c d : ClusterId} {b : Branch}
    (hb : t.find? c = some b) (h : d ∈ b.ids) :
    ∃ x, b.find? d = some x ∧ t.find? d = some x := by
  obtain rfl := id_of_find? hb
  by_cases hid : b.cluster.id = d
  · exact ⟨b, if_pos hid, hid ▸ hb⟩
  · rw [Branch.ids_eq, Multiset.mem_cons] at h
    obtain ⟨x, hx, hfind⟩ := hd.exists_find?_inside hb (h.resolve_left (Ne.symm hid))
    exact ⟨x, (if_neg hid).trans hx, hfind⟩

/-- The clusters inside a branch are those that its own cluster lies around,
    but for itself. -/
theorem Sound.mem_inside_iff (hs : t.Sound) {c d : ClusterId} {b : Branch}
    (hb : t.find? c = some b) :
    d ∈ b.inside.ids ↔ t.isAncestor c d = true ∧ d ≠ c := by
  obtain rfl := id_of_find? hb
  rw [hs.isAncestor_iff_mem_ids hb, Branch.ids_eq, Multiset.mem_cons]
  constructor
  · exact fun h => ⟨Or.inr h, fun heq => (hs.distinct.nodup_inside hb).1 (heq ▸ h)⟩
  · exact fun h => h.1.resolve_left h.2

/-- The name of a vertex. -/
theorem exists_node_of_global? {o : ClusterId} {u : LocalVertex} {g : GlobalVertex}
    (h : t.global? o u = some g) : ∃ n ∈ t.nodes, n.id = o ∧ n.storage.global? u = some g := by
  obtain ⟨s, hs, hg⟩ := Option.bind_eq_some_iff.mp h
  obtain ⟨n, hn, hid, rfl⟩ := exists_node_of_storage? hs
  exact ⟨n, hn, hid, hg⟩

theorem mem_ids_of_global? {o : ClusterId} {u : LocalVertex} {g : GlobalVertex}
    (h : t.global? o u = some g) : o ∈ t.ids := by
  obtain ⟨n, hn, rfl, -⟩ := exists_node_of_global? h
  exact Multiset.mem_map_of_mem Node.id hn

/-- A vertex travels with the names of all that it leads to. -/
theorem Sound.mem_travelling (hs : t.Sound) {c : ClusterId} {b : Branch}
    (hb : t.find? c = some b) {v : LocalVertex} {g : GlobalVertex} :
    g ∈ b.travelling v ↔ ∃ o u, t.Leads c v o u ∧ t.global? o u = some g := by
  have hnode := node_mem_of_find? hb
  have hown : ∀ u, t.global? c u = b.cluster.storage.global? u := by
    intro u
    obtain rfl := id_of_find? hb
    exact hs.distinct.global?_of_mem hnode u
  rw [Branch.travelling, List.mem_append]
  constructor
  · rintro (h | h)
    · have hg : b.cluster.storage.global? v = some g := by simpa using h
      exact ⟨c, v, .here c v, by rw [hown, hg]⟩
    · cases hv : b.inside.branchAt? v with
      | none => rw [hv] at h; exact nomatch h
      | some d =>
          rw [hv] at h
          obtain ⟨n, hn, u, hu⟩ := Branch.mem_globals.mp h
          have hle := nodes_le_of_find? (hs.distinct.find?_of_branchAt? hb hv)
          obtain ⟨w, hw⟩ := exists_leads_of_mem_nodes hle hn u
          obtain rfl := id_of_find? hb
          refine ⟨n.id, u, .inside hnode (Forest.mem_entries_of_branchAt? hv) hw, ?_⟩
          rw [hs.distinct.global?_of_mem (Multiset.mem_of_le hle hn), hu]
  · rintro ⟨o, u, hl, hg⟩
    cases hl with
    | here => exact Or.inl (by rw [← hown, hg]; simp)
    | inside hm he hl =>
        refine Or.inr ?_
        obtain rfl := hs.distinct.node_of_find? hm hb
        obtain ⟨d, hd, rfl⟩ := Forest.branchAt?_of_mem_entries (hs.nodes _ hm).keys he
        obtain ⟨n, hn, hid, hu⟩ := exists_node_of_global? hg
        rw [hd]
        exact Branch.mem_globals.mpr
          ⟨n, hl.mem_nodes hs (hs.distinct.find?_of_branchAt? hb hd) hn hid, u, hu⟩

/-- Every name in a branch travels with a vertex of its cluster. -/
theorem Sound.mem_globals_iff (hs : t.Sound) {c : ClusterId} {b : Branch}
    (hb : t.find? c = some b) {g : GlobalVertex} :
    g ∈ b.globals ↔ ∃ v o u, t.Leads c v o u ∧ t.global? o u = some g := by
  rw [Branch.mem_globals]
  obtain rfl := id_of_find? hb
  constructor
  · rintro ⟨n, hn, u, hu⟩
    obtain ⟨w, hw⟩ := exists_leads_of_mem_nodes (nodes_le_of_find? hb) hn u
    refine ⟨w, n.id, u, hw, ?_⟩
    rw [hs.distinct.global?_of_mem (Multiset.mem_of_le (nodes_le_of_find? hb) hn), hu]
  · rintro ⟨v, o, u, hl, hg⟩
    obtain ⟨n, hn, hid, hu⟩ := exists_node_of_global? hg
    exact ⟨n, hl.mem_nodes hs hb hn hid, u, hu⟩

/-! ## Representatives -/

/-- A representative travels with the name that it represents. -/
theorem Sound.mem_travelling_of_representative? (hs : t.Sound) {c : ClusterId} {b : Branch}
    (hb : t.find? c = some b) {v : LocalVertex} {g : GlobalVertex}
    (h : b.representative? g = some v) : g ∈ b.travelling v := by
  have hkeys := (hs.nodes _ (node_mem_of_find? hb)).keys
  unfold Branch.representative? at h
  rw [Branch.travelling, List.mem_append]
  split at h
  · rename_i w hw
    obtain rfl := Option.some.inj h
    exact Or.inl (by rw [Storage.global?_of_vertexOf? hw]; simp)
  · obtain ⟨⟨w, d⟩, hfind, rfl⟩ := Option.map_eq_some_iff.mp h
    have hmem := List.mem_of_find?_eq_some hfind
    have hsome : (d.vertexOwner? g).isSome = true :=
      List.find?_some (p := fun entry : LocalVertex × Branch =>
        (entry.2.vertexOwner? g).isSome) hfind
    obtain ⟨⟨o, u⟩, ho⟩ := Option.isSome_iff_exists.mp hsome
    obtain ⟨n, hn, -, hu⟩ := Branch.of_vertexOwner? ho
    refine Or.inr ?_
    rw [Forest.branchAt?_of_mem_branches hkeys hmem]
    exact Branch.mem_globals.mpr ⟨n, hn, u, hu⟩

/-- Whatever is in a branch has a representative. -/
theorem exists_representative? {b : Branch} {g : GlobalVertex} (h : g ∈ b.globals) :
    ∃ v, b.representative? g = some v := by
  obtain ⟨n, hn, u, hu⟩ := Branch.mem_globals.mp h
  unfold Branch.representative?
  cases hv : b.cluster.storage.vertexOf? g with
  | some v => exact ⟨v, rfl⟩
  | none =>
      rw [Branch.nodes, Multiset.mem_cons] at hn
      rcases hn with rfl | hn
      · obtain ⟨w, hw⟩ := Storage.exists_vertexOf? hu
        rw [show b.node.storage.vertexOf? g = none from hv] at hw
        cases hw
      · obtain ⟨w, d, hd, hn⟩ := Forest.exists_branch_of_mem_nodes hn
        obtain ⟨o, u', ho⟩ := Branch.exists_vertexOwner? (Branch.mem_globals.mpr ⟨n, hn, u, hu⟩)
        have hsome : (b.inside.branches.find? (fun entry =>
            (entry.2.vertexOwner? g).isSome)).isSome = true := by
          rw [List.find?_isSome]
          exact ⟨(w, d), hd, by rw [ho]; rfl⟩
        obtain ⟨entry, he⟩ := Option.isSome_iff_exists.mp hsome
        exact ⟨entry.1, by rw [Branch.leadingVertex?, he]; rfl⟩

/-- A name has an owner inside a cluster when it has a representative
    there. -/
theorem Sound.vertexOwner?_eq_none_iff (hs : t.Sound) {c : ClusterId} {b : Branch}
    (hb : t.find? c = some b) {g : GlobalVertex} :
    t.vertexOwner? c g = none ↔ b.representative? g = none := by
  have howner : t.vertexOwner? c g = b.vertexOwner? g := by
    rw [vertexOwner?, hb]
    rfl
  rw [howner, Option.eq_none_iff_forall_ne_some, Option.eq_none_iff_forall_ne_some]
  constructor
  · intro hnone v hv
    obtain ⟨o, u, hl, hu⟩ :=
      (hs.mem_travelling hb).mp (hs.mem_travelling_of_representative? hb hv)
    obtain ⟨o, u, h⟩ := Branch.exists_vertexOwner? ((hs.mem_globals_iff hb).mpr ⟨v, o, u, hl, hu⟩)
    exact hnone (o, u) h
  · rintro hnone ⟨o, u⟩ h
    obtain ⟨n, hn, -, hu⟩ := Branch.of_vertexOwner? h
    obtain ⟨v, hv⟩ := exists_representative? (Branch.mem_globals.mpr ⟨n, hn, u, hu⟩)
    exact hnone v hv

/-- A representative is a live vertex. -/
theorem Node.Sound.hasVertex_of_representative? {config : Config} {b : Branch}
    (hb : b.node.Sound config) {v : LocalVertex} {g : GlobalVertex}
    (h : b.representative? g = some v) : b.cluster.storage.hasVertex v = true := by
  unfold Branch.representative? at h
  split at h
  · rename_i w hw
    obtain rfl := Option.some.inj h
    exact Storage.hasVertex_of_global? (Storage.global?_of_vertexOf? hw)
  · obtain ⟨⟨w, d⟩, hfind, rfl⟩ := Option.map_eq_some_iff.mp h
    exact hb.held (w, d.cluster.id)
      (Forest.mem_branches_entries (List.mem_of_find?_eq_some hfind))

end Tree

end NestedGraph
