import NestedGraph.Proofs.Lookup
import NestedGraph.Graph

/-! # Checks — what a check that passed has found

    Operations check first.  One that succeeds went through all of its
    checks, so what they looked for is there: the cluster is alive, the
    handle resolves, the child hangs on the vertex. -/

namespace NestedGraph

namespace Tree

variable {t : Tree} {c child : ClusterId} {v : LocalVertex} {e : LocalEdge} {b : Branch}

/-! ## Clusters and handles -/

theorem of_require (h : t.require c = .ok b) : t.find? c = some b := by
  rw [require] at h
  split at h
  · obtain rfl := Except.ok.inj h
    assumption
  · exact nomatch h

theorem require_of_find? (h : t.find? c = some b) : t.require c = .ok b := by
  rw [require, h]

theorem of_requireVertex (h : t.requireVertex c v = .ok b) :
    t.find? c = some b ∧ b.cluster.storage.hasVertex v = true := by
  obtain ⟨d, hd, h⟩ := of_bind_eq_ok h
  split at h
  · rename_i hv
    obtain rfl := Except.ok.inj h
    exact ⟨of_require hd, hv⟩
  · exact nomatch h

theorem requireVertex_of_find? (h : t.find? c = some b)
    (hv : b.cluster.storage.hasVertex v = true) : t.requireVertex c v = .ok b := by
  rw [requireVertex, require_of_find? h]
  exact if_pos hv

theorem of_requireEdge (h : t.requireEdge c e = .ok b) :
    t.find? c = some b ∧ ∃ l, b.cluster.storage.link? e = some l := by
  obtain ⟨d, hd, h⟩ := of_bind_eq_ok h
  split at h
  · rename_i he
    obtain rfl := Except.ok.inj h
    exact ⟨of_require hd, SlotStore.contains_iff.mp he⟩
  · exact nomatch h

theorem requireEdge_of_find? (h : t.find? c = some b)
    (he : ∃ l, b.cluster.storage.link? e = some l) : t.requireEdge c e = .ok b := by
  rw [requireEdge, require_of_find? h]
  exact if_pos (SlotStore.contains_iff.mpr he)

/-! ## Children -/

theorem of_vertexOfChild (hd : t.Distinct) {cv : LocalVertex}
    (h : t.vertexOfChild c child = .ok cv) : (cv, child) ∈ t.children c := by
  obtain ⟨p, -, h⟩ := of_bind_eq_ok h
  obtain ⟨-, -, h⟩ := of_bind_eq_ok h
  split at h
  · rename_i q w hplace
    split at h
    · exact nomatch h
    · rename_i hq
      split at h
      · obtain rfl := Except.ok.inj h
        rw [← hd.place?_eq_some_iff, hplace, not_not.mp hq]
      · exact nomatch h
  · exact nomatch h

theorem Sound.vertexOfChild (hs : t.Sound) {inner : Branch} {cv : LocalVertex}
    (hb : t.find? b.cluster.id = some b) (hi : t.find? inner.cluster.id = some inner)
    (hchild : (cv, inner.cluster.id) ∈ b.node.entries) :
    t.vertexOfChild b.cluster.id inner.cluster.id = .ok cv := by
  have hheld : b.cluster.storage.hasVertex cv = true :=
    (hs.nodes _ (node_mem_of_find? hb)).held _ hchild
  have hplace : t.place? inner.cluster.id = some (b.cluster.id, cv) :=
    hs.distinct.place?_eq_some_iff.mpr ((children_of_find? hb).symm ▸ hchild)
  rw [Tree.vertexOfChild, require_of_find? hb, require_of_find? hi, hplace]
  show (if b.cluster.id ≠ b.cluster.id then _ else if b.cluster.storage.hasVertex cv then _ else _)
    = Except.ok cv
  rw [if_neg (not_not.mpr rfl), if_pos hheld]
  rfl

end Tree

namespace Graph

variable {g : Graph} {c : ClusterId} {a b : LocalVertex}

/-! ## Ends of a new edge -/

theorem of_requireOrdinary {v : LocalVertex} {global : GlobalVertex} {u : Unit}
    (h : g.requireOrdinary c v global = .ok u) : g.tree.isClusterVertex c v = false := by
  rw [requireOrdinary] at h
  split at h
  · exact nomatch h
  · rename_i hv
    exact Bool.eq_false_iff.mpr hv

theorem of_requireRepresentative {branch : Branch} {global : GlobalVertex} {v : LocalVertex}
    (h : requireRepresentative branch global = .ok v) : branch.representative? global = some v := by
  rw [requireRepresentative] at h
  split at h
  · obtain rfl := Except.ok.inj h
    assumption
  · exact nomatch h

/-- Two vertices that may be connected are different, and neither stands for
    a cluster. -/
theorem of_edgeEnds {branch : Branch} {source target : GlobalVertex}
    (h : g.edgeEnds c a b = .ok (branch, source, target)) :
    a ≠ b ∧ g.tree.find? c = some branch ∧ branch.cluster.storage.global? a = some source
      ∧ branch.cluster.storage.global? b = some target
      ∧ g.tree.isClusterVertex c a = false ∧ g.tree.isClusterVertex c b = false := by
  rw [edgeEnds] at h
  dsimp only at h
  split at h
  · exact nomatch h
  · rename_i hne
    obtain ⟨d, hd, h⟩ := of_bind_eq_ok h
    split at h
    · rename_i source' target' hsource htarget
      obtain ⟨_, ha, h⟩ := of_bind_eq_ok h
      obtain ⟨_, hb, h⟩ := of_bind_eq_ok h
      obtain ⟨rfl, heq⟩ := Prod.mk.inj (Except.ok.inj h)
      obtain ⟨rfl, rfl⟩ := Prod.mk.inj heq
      exact ⟨hne, (Tree.of_requireVertex hd).1, hsource, htarget, of_requireOrdinary ha,
        of_requireOrdinary hb⟩
    · exact nomatch h

end Graph

end NestedGraph
