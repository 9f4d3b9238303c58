import NestedGraph.Tree
import Mathlib.Data.Multiset.Bind

/-! # Nesting — a tree as a collection of clusters

    A tree nests its clusters; seen flat, it is a collection of NODES, one
    for each cluster, with the entries of its children map.  When ids are
    distinct the nodes say everything about single clusters, and a change
    of one branch replaces the nodes of that branch and leaves all others.
    Every change to a tree is told by the nodes that it replaces. -/

namespace NestedGraph

/-- A cluster with its children map. -/
structure Node where
  cluster : Cluster
  entries : List (LocalVertex × ClusterId)

namespace Node

/-- The id of the cluster. -/
def id (n : Node) : ClusterId := n.cluster.id

/-- The storage of the cluster. -/
def storage (n : Node) : Storage := n.cluster.storage

/-- The ids of the children. -/
def childIds (n : Node) : Multiset ClusterId := (n.entries.map Prod.snd : List ClusterId)

end Node

/-! ## Forests -/

namespace Forest

/-- The nodes of all clusters. -/
def nodes : Forest → Multiset Node
  | nil => 0
  | cons _ k inside rest => ⟨k, inside.entries⟩ ::ₘ (inside.nodes + rest.nodes)

/-- The ids of all clusters. -/
def ids (f : Forest) : Multiset ClusterId := f.nodes.map Node.id

theorem ids_cons (v : LocalVertex) (k : Cluster) (inside rest : Forest) :
    (cons v k inside rest).ids = k.id ::ₘ (inside.ids + rest.ids) := by
  simp only [ids, nodes, Multiset.map_cons, Multiset.map_add]
  rfl

@[simp] theorem nodes_append (f other : Forest) :
    (f.append other).nodes = f.nodes + other.nodes := by
  induction f with
  | nil => exact (zero_add _).symm
  | cons v k inside rest _ ih => simp only [append, nodes, ih, Multiset.cons_add, add_assoc]

@[simp] theorem entries_append (f other : Forest) :
    (f.append other).entries = f.entries ++ other.entries := by
  simp [entries]

theorem entries_cons (v : LocalVertex) (k : Cluster) (inside rest : Forest) :
    (cons v k inside rest).entries = (v, k.id) :: rest.entries := rfl

theorem mem_ids_iff {f : Forest} {c : ClusterId} : c ∈ f.ids ↔ (f.find? c).isSome = true := by
  rw [find?_isSome_iff]
  induction f with
  | nil => simp [ids, nodes, clusters]
  | cons v k inside rest ihInside ihRest =>
      rw [ids_cons, Multiset.mem_cons, Multiset.mem_add, ihInside, ihRest]
      simp [clusters]

theorem find?_eq_none {f : Forest} {c : ClusterId} (h : c ∉ f.ids) : f.find? c = none := by
  rw [mem_ids_iff] at h
  simpa using h

/-- A change of a cluster that is not there is no change. -/
theorem update_of_notMem {f : Forest} {c : ClusterId} (g : Branch → Branch) (h : c ∉ f.ids) :
    f.update c g = f := by
  induction f with
  | nil => rfl
  | cons v k inside rest ihInside ihRest =>
      rw [ids_cons, Multiset.mem_cons, Multiset.mem_add, not_or, not_or] at h
      obtain ⟨hk, hin, hr⟩ := h
      rw [update, if_neg (Ne.symm hk), ihInside hin, ihRest hr]

end Forest

/-! ## Branches -/

namespace Branch

/-- The node of the branch's own cluster. -/
def node (b : Branch) : Node := ⟨b.cluster, b.inside.entries⟩

/-- The nodes of all clusters of the branch. -/
def nodes (b : Branch) : Multiset Node := b.node ::ₘ b.inside.nodes

/-- The ids of all clusters of the branch. -/
def ids (b : Branch) : Multiset ClusterId := b.nodes.map Node.id

theorem ids_eq (b : Branch) : b.ids = b.cluster.id ::ₘ b.inside.ids := by
  rw [ids, nodes, Multiset.map_cons]
  rfl

theorem node_mem_nodes (b : Branch) : b.node ∈ b.nodes := Multiset.mem_cons_self ..

theorem mem_ids_self (b : Branch) : b.cluster.id ∈ b.ids :=
  Multiset.mem_map_of_mem Node.id b.node_mem_nodes

end Branch

/-- The nodes of a branch that may be missing. -/
def nestedNodes : Option Branch → Multiset Node
  | some b => b.nodes
  | none => 0

/-! ## Changing one branch -/

namespace Forest

@[simp] theorem entries_single (v : LocalVertex) (b : Branch) :
    (single v b).entries = [(v, b.cluster.id)] := rfl

@[simp] theorem nodes_single (v : LocalVertex) (b : Branch) : (single v b).nodes = b.nodes := by
  simp [single, nodes, Branch.nodes, Branch.node]

/-- The cluster found is one of the forest, and so are all inside it. -/
theorem nodes_le_of_find? {f : Forest} {c : ClusterId} {b : Branch} (h : f.find? c = some b) :
    b.nodes ≤ f.nodes := by
  induction f with
  | nil => exact nomatch h
  | cons v k inside rest ihInside ihRest =>
      unfold find? at h
      split at h
      · obtain rfl := Option.some.inj h
        exact Multiset.cons_le_cons _ (Multiset.le_add_right ..)
      · rcases Option.or_eq_some_iff.mp h with h | ⟨-, h⟩
        · exact (ihInside h).trans ((Multiset.le_add_right ..).trans (Multiset.le_cons_self ..))
        · exact (ihRest h).trans ((Multiset.le_add_left ..).trans (Multiset.le_cons_self ..))

/-- A change of one branch replaces its nodes.  What hangs where in the
    cluster around the forest stays. -/
theorem nodes_update {f : Forest} {c : ClusterId} {b : Branch} (hd : f.ids.Nodup)
    (h : f.find? c = some b) :
    ∃ around, f.nodes = b.nodes + around ∧ ∀ g : Branch → Branch, (g b).cluster.id = c →
      (f.update c g).nodes = (g b).nodes + around ∧ (f.update c g).entries = f.entries := by
  induction f generalizing b with
  | nil => exact nomatch h
  | cons v k inside rest ihInside ihRest =>
      rw [ids_cons, Multiset.nodup_cons, Multiset.nodup_add] at hd
      obtain ⟨hk, hin, hr, hdisj⟩ := hd
      unfold find? at h
      by_cases hc : k.id = c
      · -- The branch is the first, and the rest is around it.
        rw [if_pos hc] at h
        obtain rfl := Option.some.inj h
        refine ⟨rest.nodes, by simp [nodes, Branch.nodes, Branch.node], fun g hg => ?_⟩
        have hrest : rest.update c g = rest := by
          refine update_of_notMem g (fun hmem => hk ?_)
          rw [hc]
          exact Multiset.mem_add.mpr (Or.inr hmem)
        rw [update, if_pos hc, hrest]
        constructor
        · simp [nodes, Branch.nodes, Branch.node]
        · show (v, (g ⟨k, inside⟩).cluster.id) :: rest.entries = (v, k.id) :: rest.entries
          rw [hg, hc]
      · rw [if_neg hc] at h
        rcases Option.or_eq_some_iff.mp h with h | ⟨hnone, h⟩
        · -- It is inside the first, which keeps its entries.
          obtain ⟨around, heq, hupd⟩ := ihInside hin h
          refine ⟨⟨k, inside.entries⟩ ::ₘ (around + rest.nodes), ?_, fun g hg => ?_⟩
          · rw [nodes, heq]
            simp [add_assoc]
          · have hrest : rest.update c g = rest := by
              refine update_of_notMem g (fun hmem => ?_)
              have hmem' : c ∈ inside.ids := mem_ids_iff.mpr (by rw [h]; rfl)
              exact Multiset.disjoint_left.mp hdisj hmem' hmem
            obtain ⟨hn, he⟩ := hupd g hg
            rw [update, if_neg hc, hrest]
            refine ⟨?_, rfl⟩
            rw [nodes, hn, he]
            simp [add_assoc]
        · -- It is further on, and the first is left alone as a whole.
          obtain ⟨around, heq, hupd⟩ := ihRest hr h
          refine ⟨⟨k, inside.entries⟩ ::ₘ (inside.nodes + around), ?_, fun g hg => ?_⟩
          · rw [nodes, heq, Multiset.add_cons, ← add_assoc, ← add_assoc,
              add_comm inside.nodes b.nodes]
          · have hinside : inside.update c g = inside := by
              refine update_of_notMem g (fun hmem => ?_)
              rw [mem_ids_iff, hnone] at hmem
              exact Bool.false_ne_true hmem
            obtain ⟨hn, he⟩ := hupd g hg
            rw [update, if_neg hc, hinside]
            constructor
            · rw [nodes, hn, Multiset.add_cons, ← add_assoc, ← add_assoc,
                add_comm inside.nodes (g b).nodes]
            · rw [entries_cons, entries_cons, he]

/-- The changed branch is found under the same id. -/
theorem find?_update_self {f : Forest} {c : ClusterId} {b : Branch} {g : Branch → Branch}
    (h : f.find? c = some b) (hg : (g b).cluster.id = c) : (f.update c g).find? c = some (g b) := by
  induction f with
  | nil => exact nomatch h
  | cons v k inside rest ihInside ihRest =>
      unfold find? at h
      by_cases hc : k.id = c
      · rw [if_pos hc] at h
        obtain rfl := Option.some.inj h
        rw [update, if_pos hc]
        exact if_pos hg
      · rw [if_neg hc] at h
        rw [update, if_neg hc, find?, if_neg hc]
        rcases Option.or_eq_some_iff.mp h with h | ⟨hnone, h⟩
        · rw [ihInside h]
          rfl
        · have hinside : inside.update c g = inside := by
            refine update_of_notMem g (fun hmem => ?_)
            rw [mem_ids_iff, hnone] at hmem
            exact Bool.false_ne_true hmem
          rw [hinside, hnone, ihRest h]
          rfl

/-- Two changes of one branch are one. -/
theorem update_update {c : ClusterId} {f g : Branch → Branch}
    (hf : ∀ b : Branch, b.cluster.id = c → (f b).cluster.id = c) (t : Forest) :
    (t.update c f).update c g = t.update c (fun b => g (f b)) := by
  induction t with
  | nil => rfl
  | cons v k inside rest ihInside ihRest =>
      by_cases hk : k.id = c
      · rw [update, if_pos hk]
        dsimp only
        rw [update, if_pos (hf _ hk), update, if_pos hk, ihRest]
      · rw [update, if_neg hk, update, if_neg hk, update, if_neg hk, ihInside, ihRest]

/-- Changes that agree on the branch found are one change. -/
theorem update_congr {f : Forest} {c : ClusterId} {b : Branch} {g h : Branch → Branch}
    (hd : f.ids.Nodup) (hb : f.find? c = some b) (hgh : g b = h b) : f.update c g = f.update c h := by
  induction f with
  | nil => rfl
  | cons v k inside rest ihInside ihRest =>
      rw [ids_cons, Multiset.nodup_cons, Multiset.nodup_add] at hd
      obtain ⟨hk, hin, hr, hdisj⟩ := hd
      unfold find? at hb
      by_cases hc : k.id = c
      · rw [if_pos hc] at hb
        obtain rfl := Option.some.inj hb
        have hrest : c ∉ rest.ids := fun hmem => hk (hc ▸ Multiset.mem_add.mpr (Or.inr hmem))
        rw [update, update, if_pos hc, if_pos hc, hgh, update_of_notMem _ hrest,
          update_of_notMem _ hrest]
      · rw [if_neg hc] at hb
        rw [update, update, if_neg hc, if_neg hc]
        rcases Option.or_eq_some_iff.mp hb with hb | ⟨hnone, hb⟩
        · have hrest : c ∉ rest.ids := fun hmem =>
            Multiset.disjoint_left.mp hdisj (mem_ids_iff.mpr (by rw [hb]; rfl)) hmem
          rw [ihInside hin hb, update_of_notMem _ hrest, update_of_notMem _ hrest]
        · have hinside : c ∉ inside.ids := by
            rw [mem_ids_iff, hnone]
            exact Bool.false_ne_true
          rw [ihRest hr hb, update_of_notMem _ hinside, update_of_notMem _ hinside]

end Forest

/-! ## One level -/

namespace Forest

/-- What hangs on a vertex is an entry. -/
theorem mem_entries_of_branchAt? {f : Forest} {v : LocalVertex} {b : Branch}
    (h : f.branchAt? v = some b) : (v, b.cluster.id) ∈ f.entries := by
  induction f with
  | nil => exact nomatch h
  | cons w k inside rest _ ih =>
      unfold branchAt? at h
      rw [entries_cons]
      split at h
      · rename_i hw
        obtain rfl := Option.some.inj h
        rw [hw]
        exact List.mem_cons_self ..
      · exact List.mem_cons_of_mem _ (ih h)

/-- Where each vertex carries one branch, every entry is one that hangs. -/
theorem branchAt?_of_mem_entries {f : Forest} {v : LocalVertex} {d : ClusterId}
    (hkeys : (f.entries.map Prod.fst).Nodup) (h : (v, d) ∈ f.entries) :
    ∃ b, f.branchAt? v = some b ∧ b.cluster.id = d := by
  induction f with
  | nil => exact nomatch h
  | cons w k inside rest _ ih =>
      rw [entries_cons, List.map_cons, List.nodup_cons] at hkeys
      rw [entries_cons] at h
      rcases List.mem_cons.mp h with heq | h
      · obtain ⟨rfl, rfl⟩ := Prod.mk.inj heq
        exact ⟨⟨k, inside⟩, if_pos rfl, rfl⟩
      · have hw : w ≠ v := fun hw => hkeys.1 (List.mem_map.mpr ⟨(v, d), h, hw.symm⟩)
        obtain ⟨b, hb, hd⟩ := ih hkeys.2 h
        exact ⟨b, (if_neg hw).trans hb, hd⟩

theorem branchAt?_eq_none_iff {f : Forest} {v : LocalVertex} :
    f.branchAt? v = none ↔ v ∉ f.entries.map Prod.fst := by
  induction f with
  | nil => simp [branchAt?, entries, branches]
  | cons w k inside rest _ ih =>
      rw [entries_cons, List.map_cons, List.mem_cons, not_or, branchAt?]
      by_cases hw : w = v
      · simp [hw]
      · rw [if_neg hw, ih]
        simp [Ne.symm hw]

/-- A branch that is taken off takes its nodes along. -/
theorem nodes_eraseAt (f : Forest) (v : LocalVertex) :
    f.nodes = nestedNodes (f.branchAt? v) + (f.eraseAt v).nodes := by
  induction f with
  | nil => rfl
  | cons w k inside rest _ ih =>
      by_cases hw : w = v
      · rw [branchAt?, eraseAt, if_pos hw, if_pos hw]
        simp [nodes, nestedNodes, Branch.nodes, Branch.node]
      · rw [branchAt?, eraseAt, if_neg hw, if_neg hw, nodes, nodes, ih, Multiset.add_cons,
          add_left_comm]

/-- Where each vertex carries one branch, the entry of the branch taken off
    is the one that goes. -/
theorem entries_eraseAt {f : Forest} (v : LocalVertex) (hkeys : (f.entries.map Prod.fst).Nodup) :
    (f.eraseAt v).entries = f.entries.filter (fun entry => decide (entry.1 ≠ v)) := by
  induction f with
  | nil => rfl
  | cons w k inside rest _ ih =>
      rw [entries_cons, List.map_cons, List.nodup_cons] at hkeys
      by_cases hw : w = v
      · rw [eraseAt, if_pos hw, entries_cons, List.filter_cons_of_neg (by simp [hw])]
        refine (List.filter_eq_self.mpr (fun entry hmem => ?_)).symm
        exact decide_eq_true (fun he =>
          hkeys.1 (List.mem_map.mpr ⟨entry, hmem, he.trans hw.symm⟩))
      · rw [eraseAt, if_neg hw, entries_cons, entries_cons,
          List.filter_cons_of_pos (by simpa using hw), ih hkeys.2]

end Forest

end NestedGraph
