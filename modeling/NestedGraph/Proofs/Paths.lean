import NestedGraph.Proofs.Nesting
import NestedGraph.Tree.Lookup
import NestedGraph.Tree.Marking

/-! # Paths — clusters by id, and the way up from each

    When the ids of a tree are DISTINCT, looking up a cluster, its
    children and the way up from it agree with its nodes: a cluster hangs
    on exactly one vertex of exactly one other cluster, the root on none,
    and the way up from a child goes through its parent. -/

namespace NestedGraph

/-! ## The way up in a forest -/

namespace Forest

/-- Every cluster of a forest hangs in it or in one of its clusters. -/
theorem ids_eq_entries (f : Forest) :
    f.ids = (f.entries.map Prod.snd : Multiset ClusterId) + f.nodes.bind Node.childIds := by
  induction f with
  | nil => rfl
  | cons v k inside rest ihInside ihRest =>
      rw [ids_cons, ihInside, ihRest, nodes, Multiset.cons_bind, Multiset.add_bind, entries_cons,
        List.map_cons, ← Multiset.cons_coe, Multiset.cons_add]
      show k.id ::ₘ _ = k.id ::ₘ (_ + ((inside.entries.map Prod.snd : Multiset ClusterId) + _))
      refine congrArg _ ?_
      rw [add_add_add_comm, add_comm (inside.entries.map Prod.snd : Multiset ClusterId)]
      simp only [add_assoc, add_left_comm]

theorem mem_ids_of_entries {f : Forest} {v : LocalVertex} {d : ClusterId} (h : (v, d) ∈ f.entries) :
    d ∈ f.ids := by
  rw [ids_eq_entries]
  exact Multiset.mem_add.mpr (Or.inl (List.mem_map.mpr ⟨(v, d), h, rfl⟩))

theorem mem_ids_of_child {f : Forest} {n : Node} {v : LocalVertex} {d : ClusterId}
    (hn : n ∈ f.nodes) (h : (v, d) ∈ n.entries) : d ∈ f.ids := by
  rw [ids_eq_entries]
  refine Multiset.mem_add.mpr (Or.inr (Multiset.mem_bind.mpr ⟨n, hn, ?_⟩))
  exact List.mem_map.mpr ⟨(v, d), h, rfl⟩

theorem path?_eq_none {f : Forest} {around c : ClusterId} (h : c ∉ f.ids) :
    f.path? around c = none := by
  induction f generalizing around with
  | nil => rfl
  | cons v k inside rest ihInside ihRest =>
      rw [ids_cons, Multiset.mem_cons, Multiset.mem_add, not_or, not_or] at h
      obtain ⟨hk, hin, hr⟩ := h
      rw [path?, if_neg (Ne.symm hk), ihInside hin, ihRest hr]
      rfl

/-- The way up from what hangs in the forest is one step. -/
theorem path?_of_entries {f : Forest} {around d : ClusterId} {v : LocalVertex} (hd : f.ids.Nodup)
    (h : (v, d) ∈ f.entries) : f.path? around d = some [(around, v)] := by
  induction f with
  | nil => exact nomatch h
  | cons w k inside rest _ ih =>
      rw [ids_cons, Multiset.nodup_cons, Multiset.nodup_add] at hd
      obtain ⟨hk, -, hr, hdisj⟩ := hd
      rw [entries_cons] at h
      rcases List.mem_cons.mp h with heq | h
      · obtain ⟨rfl, rfl⟩ := Prod.mk.inj heq
        exact if_pos rfl
      · have hmem : d ∈ rest.ids := mem_ids_of_entries h
        have hne : k.id ≠ d := by
          rintro rfl
          exact hk (Multiset.mem_add.mpr (Or.inr hmem))
        have hin : d ∉ inside.ids := fun hin => Multiset.disjoint_left.mp hdisj hin hmem
        rw [path?, if_neg hne, path?_eq_none hin, ih hr h]
        rfl

/-- The way up from a child is the step to its parent, and then the way up
    from there. -/
theorem path?_of_child {f : Forest} {d : ClusterId} {v : LocalVertex} {n : Node}
    (hd : f.ids.Nodup) (hn : n ∈ f.nodes) (h : (v, d) ∈ n.entries) (around : ClusterId) :
    ∃ p, f.path? around n.id = some p ∧ f.path? around d = some ((n.id, v) :: p) := by
  induction f generalizing around with
  | nil => exact absurd hn (Multiset.notMem_zero n)
  | cons w k inside rest ihInside ihRest =>
      rw [ids_cons, Multiset.nodup_cons, Multiset.nodup_add] at hd
      obtain ⟨hk, hin, hr, hdisj⟩ := hd
      rw [nodes, Multiset.mem_cons, Multiset.mem_add] at hn
      rcases hn with rfl | hn | hn
      · -- The parent is the first cluster of the forest.
        have hmem : d ∈ inside.ids := mem_ids_of_entries h
        have hne : k.id ≠ d := by
          rintro rfl
          exact hk (Multiset.mem_add.mpr (Or.inl hmem))
        refine ⟨[(around, w)], if_pos rfl, ?_⟩
        rw [path?, if_neg hne, path?_of_entries hin h]
        rfl
      · -- It is inside the first cluster, and so both ways end with the step to that.
        have hne : k.id ≠ d := by
          rintro rfl
          exact hk (Multiset.mem_add.mpr (Or.inl (mem_ids_of_child hn h)))
        have hne' : k.id ≠ n.id := by
          intro he
          exact hk (Multiset.mem_add.mpr (Or.inl (he ▸ Multiset.mem_map_of_mem Node.id hn)))
        obtain ⟨p, hp, hpd⟩ := ihInside hin hn k.id
        refine ⟨p ++ [(around, w)], ?_, ?_⟩
        · rw [path?, if_neg hne', hp]
          rfl
        · rw [path?, if_neg hne, hpd]
          rfl
      · -- It is further on, where the search comes when nothing is found inside.
        have hmem : d ∈ rest.ids := mem_ids_of_child hn h
        have hmem' : n.id ∈ rest.ids := Multiset.mem_map_of_mem Node.id hn
        have hne : k.id ≠ d := by
          rintro rfl
          exact hk (Multiset.mem_add.mpr (Or.inr hmem))
        have hne' : k.id ≠ n.id := by
          intro he
          exact hk (Multiset.mem_add.mpr (Or.inr (he ▸ hmem')))
        obtain ⟨p, hp, hpd⟩ := ihRest hr hn around
        refine ⟨p, ?_, ?_⟩
        · rw [path?, if_neg hne', path?_eq_none (fun hx => Multiset.disjoint_left.mp hdisj hx hmem'),
            hp]
          rfl
        · rw [path?, if_neg hne, path?_eq_none (fun hx => Multiset.disjoint_left.mp hdisj hx hmem),
            hpd]
          rfl

/-- What hangs on a vertex is found under its id. -/
theorem find?_of_branchAt? {f : Forest} {v : LocalVertex} {b : Branch} (hd : f.ids.Nodup)
    (h : f.branchAt? v = some b) : f.find? b.cluster.id = some b := by
  induction f with
  | nil => exact nomatch h
  | cons w k inside rest _ ih =>
      rw [ids_cons, Multiset.nodup_cons, Multiset.nodup_add] at hd
      obtain ⟨hk, -, hr, hdisj⟩ := hd
      unfold branchAt? at h
      split at h
      · obtain rfl := Option.some.inj h
        exact if_pos rfl
      · have hmem : b.cluster.id ∈ rest.ids := mem_ids_of_entries (mem_entries_of_branchAt? h)
        have hne : k.id ≠ b.cluster.id := fun he => hk (he ▸ Multiset.mem_add.mpr (Or.inr hmem))
        rw [find?, if_neg hne, find?_eq_none (fun hx => Multiset.disjoint_left.mp hdisj hx hmem),
          ih hr h]
        rfl

/-- What is found inside a cluster of a forest is found in the forest. -/
theorem find?_trans {f : Forest} {c d : ClusterId} {b x : Branch} (hd : f.ids.Nodup)
    (hb : f.find? c = some b) (hx : b.inside.find? d = some x) : f.find? d = some x := by
  induction f with
  | nil => exact nomatch hb
  | cons w k inside rest ihInside ihRest =>
      rw [ids_cons, Multiset.nodup_cons, Multiset.nodup_add] at hd
      obtain ⟨hk, hin, hr, hdisj⟩ := hd
      have hmem : ∀ {g : Forest}, g.find? d = some x → d ∈ g.ids := fun h =>
        mem_ids_iff.mpr (by rw [h]; rfl)
      unfold find? at hb
      by_cases hc : k.id = c
      · rw [if_pos hc] at hb
        obtain rfl := Option.some.inj hb
        have hne : k.id ≠ d := fun he => hk (he ▸ Multiset.mem_add.mpr (Or.inl (hmem hx)))
        rw [find?, if_neg hne, hx]
        rfl
      · rw [if_neg hc] at hb
        rcases Option.or_eq_some_iff.mp hb with hb | ⟨-, hb⟩
        · have hin := ihInside hin hb
          have hne : k.id ≠ d := fun he => hk (he ▸ Multiset.mem_add.mpr (Or.inl (hmem hin)))
          rw [find?, if_neg hne, hin]
          rfl
        · have hr := ihRest hr hb
          have hne : k.id ≠ d := fun he => hk (he ▸ Multiset.mem_add.mpr (Or.inr (hmem hr)))
          rw [find?, if_neg hne,
            find?_eq_none (fun hx => Multiset.disjoint_left.mp hdisj hx (hmem hr)), hr]
          rfl

end Forest

namespace Branch

/-- Every cluster of a branch but the first hangs in one of its clusters. -/
theorem ids_eq_children (b : Branch) :
    b.ids = b.cluster.id ::ₘ b.nodes.bind Node.childIds := by
  rw [ids_eq, Forest.ids_eq_entries, nodes, Multiset.cons_bind]
  rfl

theorem exists_parent {b : Branch} {d : ClusterId} (h : d ∈ b.ids) (hne : d ≠ b.cluster.id) :
    ∃ n ∈ b.nodes, ∃ v, (v, d) ∈ n.entries := by
  rw [ids_eq_children, Multiset.mem_cons, Multiset.mem_bind] at h
  obtain ⟨n, hn, hmem⟩ := h.resolve_left hne
  obtain ⟨⟨v, d'⟩, he, rfl⟩ := List.mem_map.mp hmem
  exact ⟨n, hn, v, he⟩

end Branch

namespace Tree

/-! ## Nodes of a tree -/

/-- The nodes of all clusters. -/
def nodes (t : Tree) : Multiset Node := t.top.nodes

/-- The ids of all clusters. -/
def ids (t : Tree) : Multiset ClusterId := t.nodes.map Node.id

/-- No two clusters have one id. -/
def Distinct (t : Tree) : Prop := t.ids.Nodup

theorem nodes_eq (t : Tree) : t.nodes = t.top.node ::ₘ t.top.inside.nodes := rfl

theorem ids_eq (t : Tree) : t.ids = t.root ::ₘ t.top.inside.ids := t.top.ids_eq

theorem Distinct.root_notMem {t : Tree} (hd : t.Distinct) : t.root ∉ t.top.inside.ids := by
  rw [Distinct, ids_eq, Multiset.nodup_cons] at hd
  exact hd.1

theorem Distinct.inside {t : Tree} (hd : t.Distinct) : t.top.inside.ids.Nodup := by
  rw [Distinct, ids_eq, Multiset.nodup_cons] at hd
  exact hd.2

theorem id_of_find? {t : Tree} {c : ClusterId} {b : Branch} (h : t.find? c = some b) :
    b.cluster.id = c := by
  rw [find?, Branch.find?] at h
  split at h
  · rename_i hc
    obtain rfl := Option.some.inj h
    exact hc
  · exact Forest.id_of_find? h

theorem nodes_le_of_find? {t : Tree} {c : ClusterId} {b : Branch} (h : t.find? c = some b) :
    b.nodes ≤ t.nodes := by
  rw [find?, Branch.find?] at h
  split at h
  · obtain rfl := Option.some.inj h
    exact le_refl _
  · exact (Forest.nodes_le_of_find? h).trans (Multiset.le_cons_self ..)

theorem node_mem_of_find? {t : Tree} {c : ClusterId} {b : Branch} (h : t.find? c = some b) :
    b.node ∈ t.nodes :=
  Multiset.mem_of_le (nodes_le_of_find? h) b.node_mem_nodes

theorem mem_ids_iff {t : Tree} {c : ClusterId} : c ∈ t.ids ↔ ∃ b, t.find? c = some b := by
  rw [ids_eq, Multiset.mem_cons, Forest.mem_ids_iff, find?, Branch.find?]
  by_cases hc : t.top.cluster.id = c
  · rw [if_pos hc]
    exact ⟨fun _ => ⟨_, rfl⟩, fun _ => Or.inl hc.symm⟩
  · rw [if_neg hc, Option.isSome_iff_exists]
    exact ⟨fun h => h.resolve_left (Ne.symm hc), Or.inr⟩

theorem isLive_iff {t : Tree} {c : ClusterId} : t.isLive c = true ↔ c ∈ t.ids := by
  rw [mem_ids_iff, isLive, Option.isSome_iff_exists]

/-- There is one node for each id. -/
theorem Distinct.eq_of_id {t : Tree} (hd : t.Distinct) {n m : Node} (hn : n ∈ t.nodes)
    (hm : m ∈ t.nodes) (h : n.id = m.id) : n = m :=
  Multiset.inj_on_of_nodup_map hd n hn m hm h

theorem Distinct.find?_of_mem {t : Tree} (hd : t.Distinct) {n : Node} (hn : n ∈ t.nodes) :
    ∃ b, t.find? n.id = some b ∧ b.node = n := by
  obtain ⟨b, hb⟩ := mem_ids_iff.mp (Multiset.mem_map_of_mem Node.id hn)
  exact ⟨b, hb, hd.eq_of_id (node_mem_of_find? hb) hn (id_of_find? hb)⟩

theorem Distinct.node_of_find? {t : Tree} (hd : t.Distinct) {n : Node} (hn : n ∈ t.nodes)
    {b : Branch} (hb : t.find? n.id = some b) : b.node = n :=
  hd.eq_of_id (node_mem_of_find? hb) hn (id_of_find? hb)

/-! ### What a node tells -/

theorem Distinct.storage?_of_mem {t : Tree} (hd : t.Distinct) {n : Node} (hn : n ∈ t.nodes) :
    t.storage? n.id = some n.storage := by
  obtain ⟨b, hb, rfl⟩ := hd.find?_of_mem hn
  rw [storage?, hb]
  rfl

theorem storage?_of_dead {t : Tree} {c : ClusterId} (h : c ∉ t.ids) : t.storage? c = none := by
  cases hb : t.find? c with
  | none =>
      rw [storage?, hb]
      rfl
  | some b => exact absurd (mem_ids_iff.mpr ⟨b, hb⟩) h

theorem Distinct.children_of_mem {t : Tree} (hd : t.Distinct) {n : Node} (hn : n ∈ t.nodes) :
    t.children n.id = n.entries := by
  obtain ⟨b, hb, rfl⟩ := hd.find?_of_mem hn
  rw [children, hb]
  rfl

theorem storage?_of_find? {t : Tree} {c : ClusterId} {b : Branch} (hb : t.find? c = some b) :
    t.storage? c = some b.cluster.storage := by
  rw [storage?, hb]
  rfl

theorem children_of_find? {t : Tree} {c : ClusterId} {b : Branch} (hb : t.find? c = some b) :
    t.children c = b.node.entries := by
  rw [children, hb]
  rfl

theorem vertices_of_find? {t : Tree} {c : ClusterId} {b : Branch} (hb : t.find? c = some b) :
    t.vertices c = b.cluster.storage.vertices.handles := by
  rw [vertices, storage?_of_find? hb]

theorem edges_of_find? {t : Tree} {c : ClusterId} {b : Branch} (hb : t.find? c = some b) :
    t.edges c = b.cluster.storage.edges.handles := by
  rw [edges, storage?_of_find? hb]

theorem Distinct.vertices_of_mem {t : Tree} (hd : t.Distinct) {n : Node} (hn : n ∈ t.nodes) :
    t.vertices n.id = n.storage.vertices.handles := by
  obtain ⟨b, hb, rfl⟩ := hd.find?_of_mem hn
  exact vertices_of_find? hb

theorem Distinct.edges_of_mem {t : Tree} (hd : t.Distinct) {n : Node} (hn : n ∈ t.nodes) :
    t.edges n.id = n.storage.edges.handles := by
  obtain ⟨b, hb, rfl⟩ := hd.find?_of_mem hn
  exact edges_of_find? hb

theorem Distinct.global?_of_mem {t : Tree} (hd : t.Distinct) {n : Node} (hn : n ∈ t.nodes)
    (v : LocalVertex) : t.global? n.id v = n.storage.global? v := by
  rw [global?, hd.storage?_of_mem hn]
  rfl

theorem Distinct.isClusterVertex_iff {t : Tree} (hd : t.Distinct) {n : Node} (hn : n ∈ t.nodes)
    (v : LocalVertex) : t.isClusterVertex n.id v = true ↔ v ∈ n.entries.map Prod.fst := by
  obtain ⟨b, hb, rfl⟩ := hd.find?_of_mem hn
  show (((t.find? b.node.id).bind (fun b => b.inside.branchAt? v)).map _).isSome = true ↔ _
  rw [hb, Option.isSome_map, Option.bind_some, ← not_iff_not,
    show b.node.entries = b.inside.entries from rfl, ← Forest.branchAt?_eq_none_iff]
  simp

theorem exists_node_of_storage? {t : Tree} {c : ClusterId} {s : Storage}
    (h : t.storage? c = some s) : ∃ n ∈ t.nodes, n.id = c ∧ n.storage = s := by
  obtain ⟨b, hb, rfl⟩ := Option.map_eq_some_iff.mp h
  exact ⟨b.node, node_mem_of_find? hb, id_of_find? hb, rfl⟩

theorem exists_node_of_children {t : Tree} {c d : ClusterId} {v : LocalVertex}
    (h : (v, d) ∈ t.children c) : ∃ n ∈ t.nodes, n.id = c ∧ (v, d) ∈ n.entries := by
  unfold children at h
  split at h
  · rename_i b hb
    exact ⟨b.node, node_mem_of_find? hb, id_of_find? hb, h⟩
  · exact nomatch h

/-! ## The way up -/

theorem Distinct.path_root {t : Tree} : t.path t.root = [] := if_pos rfl

/-- A child is alive, and it is not the root. -/
theorem Distinct.child_mem {t : Tree} {n : Node} (hn : n ∈ t.nodes) {v : LocalVertex}
    {d : ClusterId} (h : (v, d) ∈ n.entries) : d ∈ t.top.inside.ids := by
  rw [nodes_eq, Multiset.mem_cons] at hn
  rcases hn with rfl | hn
  · exact Forest.mem_ids_of_entries h
  · exact Forest.mem_ids_of_child hn h

theorem Distinct.child_ne_root {t : Tree} (hd : t.Distinct) {n : Node} (hn : n ∈ t.nodes)
    {v : LocalVertex} {d : ClusterId} (h : (v, d) ∈ n.entries) : d ≠ t.root := by
  rintro rfl
  exact hd.root_notMem (child_mem hn h)

theorem Distinct.child_live {t : Tree} {n : Node} (hn : n ∈ t.nodes) {v : LocalVertex}
    {d : ClusterId} (h : (v, d) ∈ n.entries) : d ∈ t.ids := by
  rw [ids_eq, Multiset.mem_cons]
  exact Or.inr (child_mem hn h)

/-- The way up from a child goes through the vertex it hangs on. -/
theorem Distinct.path_child {t : Tree} (hd : t.Distinct) {n : Node} (hn : n ∈ t.nodes)
    {v : LocalVertex} {d : ClusterId} (h : (v, d) ∈ n.entries) :
    t.path d = (n.id, v) :: t.path n.id := by
  have hroot : t.top.cluster.id ≠ d := Ne.symm (hd.child_ne_root hn h)
  rw [nodes_eq, Multiset.mem_cons] at hn
  rcases hn with rfl | hn
  · have hself : t.path t.top.node.id = [] := path_root
    rw [hself, path, if_neg hroot, Forest.path?_of_entries hd.inside h]
    rfl
  · have hne : t.top.cluster.id ≠ n.id := by
      intro he
      refine hd.root_notMem ?_
      rw [show t.root = n.id from he]
      exact Multiset.mem_map_of_mem Node.id hn
    obtain ⟨p, hp, hpd⟩ := Forest.path?_of_child hd.inside hn h t.top.cluster.id
    rw [path, path, if_neg hroot, if_neg hne, hp, hpd]
    rfl

/-- Every live cluster but the root hangs somewhere. -/
theorem exists_parent {t : Tree} {d : ClusterId} (h : d ∈ t.ids) (hroot : d ≠ t.root) :
    ∃ n ∈ t.nodes, ∃ v, (v, d) ∈ n.entries := t.top.exists_parent h hroot

theorem path_of_dead {t : Tree} {d : ClusterId} (h : d ∉ t.ids) : t.path d = [] := by
  rw [ids_eq, Multiset.mem_cons, not_or] at h
  have hroot : ¬ t.top.cluster.id = d := fun he => h.1 he.symm
  rw [path, if_neg hroot, Forest.path?_eq_none h.2]
  rfl

/-- A step on the way up starts from a cluster that hangs there. -/
theorem Distinct.path_eq_cons {t : Tree} (hd : t.Distinct) {d c : ClusterId} {v : LocalVertex}
    {p : List (ClusterId × LocalVertex)} (h : t.path d = (c, v) :: p) :
    p = t.path c ∧ ∃ n ∈ t.nodes, n.id = c ∧ (v, d) ∈ n.entries := by
  by_cases hlive : d ∈ t.ids
  · by_cases hroot : d = t.root
    · rw [hroot, path_root] at h
      exact nomatch h
    · obtain ⟨n, hn, w, hw⟩ := exists_parent hlive hroot
      rw [hd.path_child hn hw] at h
      obtain ⟨heq, rfl⟩ := List.cons.inj h
      obtain ⟨rfl, rfl⟩ := Prod.mk.inj heq
      exact ⟨rfl, n, hn, rfl, hw⟩
  · rw [path_of_dead hlive] at h
    exact nomatch h

/-- A cluster is placed where it hangs. -/
theorem Distinct.place?_eq_some_iff {t : Tree} (hd : t.Distinct) {d c : ClusterId}
    {v : LocalVertex} : t.place? d = some (c, v) ↔ (v, d) ∈ t.children c := by
  constructor
  · intro h
    obtain ⟨p, hp⟩ := List.head?_eq_some_iff.mp h
    obtain ⟨-, n, hn, rfl, hv⟩ := hd.path_eq_cons hp
    rwa [hd.children_of_mem hn]
  · intro h
    obtain ⟨n, hn, rfl, hv⟩ := exists_node_of_children h
    rw [place?, hd.path_child hn hv]
    rfl

/-- What is on the way up stays there further down. -/
theorem Distinct.path_suffix {t : Tree} (hd : t.Distinct) {d c : ClusterId} {v : LocalVertex}
    (h : (c, v) ∈ t.path d) : ∃ p, t.path d = p ++ (c, v) :: t.path c := by
  generalize hlen : (t.path d).length = k
  induction k generalizing d with
  | zero =>
      rw [List.length_eq_zero_iff.mp hlen] at h
      exact nomatch h
  | succ k ih =>
      cases hp : t.path d with
      | nil => rw [hp] at h; exact nomatch h
      | cons step p =>
          obtain ⟨c', v'⟩ := step
          obtain ⟨rfl, -⟩ := hd.path_eq_cons hp
          rw [hp] at h hlen
          rcases List.mem_cons.mp h with heq | h
          · obtain ⟨rfl, rfl⟩ := Prod.mk.inj heq
            exact ⟨[], rfl⟩
          · obtain ⟨p, hp'⟩ := ih h (Nat.succ.inj hlen)
            exact ⟨(c', v') :: p, by rw [hp']; rfl⟩

/-- The way up gets shorter at every step. -/
theorem Distinct.length_path_lt {t : Tree} (hd : t.Distinct) {d c : ClusterId} {v : LocalVertex}
    (h : (c, v) ∈ t.path d) : (t.path c).length < (t.path d).length := by
  obtain ⟨p, hp⟩ := hd.path_suffix h
  rw [hp, List.length_append, List.length_cons]
  omega

/-- On the way up each cluster is passed on one vertex. -/
theorem Distinct.eq_of_mem_path {t : Tree} (hd : t.Distinct) {d c : ClusterId} {v w : LocalVertex}
    (hv : (c, v) ∈ t.path d) (hw : (c, w) ∈ t.path d) : v = w := by
  obtain ⟨p, hp⟩ := hd.path_suffix hv
  obtain ⟨q, hq⟩ := hd.path_suffix hw
  obtain ⟨-, heq⟩ := List.append_inj' (hp.symm.trans hq) rfl
  exact congrArg Prod.snd (List.cons.inj heq).1

/-- No cluster is passed twice on the way up. -/
theorem Distinct.nodup_path {t : Tree} (hd : t.Distinct) (d : ClusterId) :
    ((t.path d).map Prod.fst).Nodup := by
  generalize hp : t.path d = p
  induction p generalizing d with
  | nil => exact List.nodup_nil
  | cons step p ih =>
      obtain ⟨c, v⟩ := step
      obtain ⟨rfl, -⟩ := hd.path_eq_cons hp
      rw [List.map_cons, List.nodup_cons]
      refine ⟨fun hmem => ?_, ih c rfl⟩
      obtain ⟨⟨c', w⟩, hw, rfl⟩ := List.mem_map.mp hmem
      exact Nat.lt_irrefl _ (hd.length_path_lt hw)

/-- A cluster hangs on one vertex of one cluster. -/
theorem Distinct.eq_of_child {t : Tree} (hd : t.Distinct) {n m : Node} {v w : LocalVertex}
    {d : ClusterId} (hn : n ∈ t.nodes) (hm : m ∈ t.nodes) (hv : (v, d) ∈ n.entries)
    (hw : (w, d) ∈ m.entries) : n = m ∧ v = w := by
  have hpath := (hd.path_child hn hv).symm.trans (hd.path_child hm hw)
  obtain ⟨hid, hvw⟩ := Prod.mk.inj (List.cons.inj hpath).1
  exact ⟨hd.eq_of_id hn hm hid, hvw⟩

theorem Distinct.nodup_branch {t : Tree} (hd : t.Distinct) {c : ClusterId} {b : Branch}
    (hb : t.find? c = some b) : b.ids.Nodup :=
  Multiset.nodup_of_le (Multiset.map_le_map (nodes_le_of_find? hb)) hd

/-- What hangs on one vertex is not inside what hangs on another. -/
theorem Distinct.child_notMem_sibling {t : Tree} (hd : t.Distinct) {b d : Branch}
    {v w : LocalVertex} {child : ClusterId} (hb : t.find? b.cluster.id = some b)
    (hchild : (w, child) ∈ b.node.entries) (hne : v ≠ w) (hv : b.inside.branchAt? v = some d) :
    child ∉ d.ids := by
  have hmem := node_mem_of_find? hb
  have hsplit : b.inside.nodes = d.nodes + (b.inside.eraseAt v).nodes := by
    rw [Forest.nodes_eraseAt b.inside v, hv]
    rfl
  have hle : d.nodes ≤ t.nodes :=
    ((hsplit ▸ Multiset.le_add_right ..).trans (Multiset.le_cons_self ..)).trans
      (nodes_le_of_find? hb)
  intro hc
  rw [Branch.ids_eq, Multiset.mem_cons, Forest.ids_eq_entries, Multiset.mem_add,
    Multiset.mem_bind] at hc
  have hparent : child = d.cluster.id ∨ ∃ m ∈ d.nodes, ∃ u, (u, child) ∈ m.entries := by
    rcases hc with hc | hc | ⟨m, hm, hc⟩
    · exact Or.inl hc
    · obtain ⟨⟨u, _⟩, he, rfl⟩ := List.mem_map.mp hc
      exact Or.inr ⟨d.node, d.node_mem_nodes, u, he⟩
    · obtain ⟨⟨u, _⟩, he, rfl⟩ := List.mem_map.mp hc
      exact Or.inr ⟨m, Multiset.mem_cons_of_mem hm, u, he⟩
  rcases hparent with rfl | ⟨m, hm, u, hu⟩
  · have hself : (v, d.cluster.id) ∈ b.node.entries := Forest.mem_entries_of_branchAt? hv
    exact hne (hd.eq_of_child hmem hmem hself hchild).2
  · obtain ⟨rfl, -⟩ := hd.eq_of_child hmem (Multiset.mem_of_le hle hm) hchild hu
    have hnodup := hd.nodup_branch hb
    rw [Branch.ids_eq, Multiset.nodup_cons, Forest.ids, hsplit, Multiset.map_add] at hnodup
    exact hnodup.1 (Multiset.mem_add.mpr (Or.inl (Multiset.mem_map_of_mem Node.id hm)))

/-! ## Branches on vertices -/

theorem Distinct.nodup_inside {t : Tree} (hd : t.Distinct) {c : ClusterId} {b : Branch}
    (hb : t.find? c = some b) : b.cluster.id ∉ b.inside.ids ∧ b.inside.ids.Nodup := by
  have hnodup := hd.nodup_branch hb
  rwa [Branch.ids_eq, Multiset.nodup_cons] at hnodup

/-- What hangs on a vertex is found under its id. -/
theorem Distinct.find?_of_branchAt? {t : Tree} (hd : t.Distinct) {c : ClusterId} {b d : Branch}
    {v : LocalVertex} (hb : t.find? c = some b) (hv : b.inside.branchAt? v = some d) :
    t.find? d.cluster.id = some d := by
  have hin := Forest.find?_of_branchAt? (hd.nodup_inside hb).2 hv
  have hmem : d.cluster.id ∈ t.top.inside.ids := child_mem (node_mem_of_find? hb)
    (Forest.mem_entries_of_branchAt? hv)
  have hne : ¬ t.top.cluster.id = d.cluster.id := by
    intro he
    rw [← he] at hmem
    exact hd.root_notMem hmem
  rw [find?, Branch.find?, if_neg hne]
  rw [find?, Branch.find?] at hb
  split at hb
  · obtain rfl := Option.some.inj hb
    exact hin
  · exact Forest.find?_trans hd.inside hb hin

/-- The branch of a child is the one that hangs on its vertex. -/
theorem Distinct.branchAt?_of_child {t : Tree} (hd : t.Distinct) {b inner : Branch}
    {cv : LocalVertex} (hb : t.find? b.cluster.id = some b)
    (hkeys : (b.node.entries.map Prod.fst).Nodup)
    (hi : t.find? inner.cluster.id = some inner) (hchild : (cv, inner.cluster.id) ∈ b.node.entries) :
    b.inside.branchAt? cv = some inner := by
  obtain ⟨d, hv, hid⟩ := Forest.branchAt?_of_mem_entries hkeys hchild
  have hfind := hd.find?_of_branchAt? hb hv
  rw [hid, hi] at hfind
  rw [hv, hfind]

/-- A cluster is not inside its child. -/
theorem Distinct.notMem_child {t : Tree} (hd : t.Distinct) {b inner : Branch} {cv : LocalVertex}
    (hb : t.find? b.cluster.id = some b) (hv : b.inside.branchAt? cv = some inner) :
    b.cluster.id ∉ inner.ids := by
  intro hmem
  refine (hd.nodup_inside hb).1 ?_
  rw [Forest.ids, Forest.nodes_eraseAt b.inside cv, hv, Multiset.map_add]
  exact Multiset.mem_add.mpr (Or.inl hmem)

end Tree

end NestedGraph
