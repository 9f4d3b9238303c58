import NestedGraph.Proofs.Runs
import NestedGraph.Tree.Traversal
import Mathlib.Data.Set.Card

/-! # Hierarchy — around and inside

    A cluster that names another as its parent lies in it, on one of its
    vertices.  In a tree with distinct ids no way up comes back to where it
    began, and every cluster is reached from the root.  An id that is gone
    stays gone. -/

namespace NestedGraph

namespace Links

/-- The second cluster names the first as its parent. -/
def Around (l : Links) (c d : ClusterId) : Prop := l.parent? d = some c

/-- The second cluster is the first, or lies inside it. -/
def Inside (l : Links) (c d : ClusterId) : Prop := Relation.ReflTransGen l.Around c d

/-- The second cluster is there, and does not lie inside the first. -/
def Outside (l : Links) (c d : ClusterId) : Prop := (l.storage? d).isSome = true ∧ ¬ l.Inside c d

end Links

namespace Tree

variable {t : Tree} {c d : ClusterId} {v : LocalVertex}

/-! ## Around and inside -/

theorem Distinct.around_iff (hd : t.Distinct) : t.links.Around c d ↔ ∃ v, (v, d) ∈ t.children c := by
  show t.parent? d = some c ↔ _
  rw [parent?, Option.map_eq_some_iff]
  constructor
  · rintro ⟨⟨c', v⟩, hplace, rfl⟩
    exact ⟨v, hd.place?_eq_some_iff.mp hplace⟩
  · rintro ⟨v, hv⟩
    exact ⟨(c, v), hd.place?_eq_some_iff.mpr hv, rfl⟩

/-- The way up is longer further inside. -/
theorem Distinct.length_path_lt_of_around (hd : t.Distinct) (h : t.links.Around c d) :
    (t.path c).length < (t.path d).length := by
  obtain ⟨v, hv⟩ := hd.around_iff.mp h
  obtain ⟨n, hn, rfl, hmem⟩ := exists_node_of_children hv
  rw [hd.path_child hn hmem, List.length_cons]
  exact Nat.lt_succ_self _

theorem Distinct.acyclic (hd : t.Distinct) (c : ClusterId) : ¬ Relation.TransGen t.links.Around c c := by
  have hlt : ∀ {d}, Relation.TransGen t.links.Around c d → (t.path c).length < (t.path d).length := by
    intro d h
    induction h with
    | single h => exact hd.length_path_lt_of_around h
    | tail _ h ih => exact ih.trans (hd.length_path_lt_of_around h)
  exact fun h => Nat.lt_irrefl _ (hlt h)

/-- Every live cluster is reached from the root, by induction on the length
    of its way up. -/
theorem Distinct.reachable (hd : t.Distinct) (hc : c ∈ t.ids) :
    t.links.Inside t.root c := by
  generalize hlen : (t.path c).length = k
  induction k using Nat.strongRecOn generalizing c with
  | ind k ih =>
      by_cases hroot : c = t.root
      · rw [hroot]
        exact .refl
      · obtain ⟨n, hn, v, hv⟩ := exists_parent hc hroot
        have haround : t.links.Around n.id c :=
          hd.around_iff.mpr ⟨v, (hd.children_of_mem hn).symm ▸ hv⟩
        have hlt := hd.length_path_lt_of_around haround
        exact (ih _ (hlen ▸ hlt) (Multiset.mem_map_of_mem Node.id hn) rfl).tail haround

theorem root_mem_ids (t : Tree) : t.root ∈ t.ids := by
  rw [ids_eq]
  exact Multiset.mem_cons_self ..

theorem Distinct.reachable_iff (hd : t.Distinct) :
    t.links.Inside t.root c ↔ c ∈ t.ids := by
  refine ⟨fun h => ?_, hd.reachable⟩
  cases h with
  | refl => exact t.root_mem_ids
  | tail _ h =>
      obtain ⟨v, hv⟩ := hd.around_iff.mp h
      obtain ⟨n, hn, rfl, hmem⟩ := exists_node_of_children hv
      exact Distinct.child_live hn hmem

theorem ids_eq_clusters (t : Tree) : t.ids = (t.clusters.map Cluster.id : List ClusterId) :=
  t.top.ids_eq_clusters

/-- As many clusters are reached from the root as there are. -/
theorem Distinct.count (hd : t.Distinct) :
    t.clusterCount = {c | t.links.Inside t.root c}.ncard := by
  have hnodup : (t.clusters.map Cluster.id).Nodup := by
    rw [← Multiset.coe_nodup, ← ids_eq_clusters]
    exact hd
  have hset : {c | t.links.Inside t.root c}
      = ((t.clusters.map Cluster.id).toFinset : Set ClusterId) := by
    ext c
    rw [Set.mem_ofPred_eq, hd.reachable_iff, ids_eq_clusters, Multiset.mem_coe, Finset.mem_coe,
      List.mem_toFinset]
  rw [hset, Set.ncard_coe_finset, List.toFinset_card_of_nodup hnodup, List.length_map, clusterCount]

end Tree

namespace Workspace

/-! ## Along runs -/

/-- A cluster that is gone does not come back. -/
theorem Becomes.isLive_eq_false {w w' : Workspace} (h : w.Becomes w') {number : Nat} {m m' : Member}
    (hm : w.members[number]? = some m) (hm' : w'.members[number]? = some m') {c : ClusterId}
    (hold : c.id < m.tree.nextClusterId) (hgone : m.tree.isLive c = false) :
    m'.tree.isLive c = false := by
  obtain ⟨m'', hm'', -, hb⟩ := h.members number m hm
  obtain rfl := Option.some.inj (hm'.symm.trans hm'')
  rw [Bool.eq_false_iff, Ne, Tree.isLive_iff] at hgone ⊢
  intro hmem
  rcases hb.alive c hmem with hmem | hnew
  · exact hgone hmem
  · exact Nat.lt_irrefl _ (Nat.lt_of_lt_of_le hold hnew)

end Workspace

end NestedGraph
