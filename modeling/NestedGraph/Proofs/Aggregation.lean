import NestedGraph.Proofs.Contents
import NestedGraph.Proofs.Whereabouts

/-! # Aggregation — one edge between two vertices

    Within a cluster, all global edges between the same two vertices are
    carried by ONE edge, in whichever direction they run.  Whatever adds
    global edges looks for that edge first, and whatever takes them away
    drops it with the last of them, so an edge between two vertices says
    that something runs between them, and to find one of its edges is to
    find all. -/

namespace NestedGraph

namespace Tree

variable {t : Tree} {c : ClusterId} {e k : LocalEdge} {a b : LocalVertex}

/-- The edge runs between the two vertices, in either direction. -/
def Connects (t : Tree) (c : ClusterId) (e : LocalEdge) (a b : LocalVertex) : Prop :=
  t.endpoints? c e = some (a, b) ∨ t.endpoints? c e = some (b, a)

/-- The edges of a cluster gather what runs between its vertices. -/
structure Aggregates (t : Tree) (c : ClusterId) : Prop where
  /-- An edge has two ends, which are different vertices of the cluster. -/
  ends : ∀ e ∈ t.edges c, ∃ a b, t.endpoints? c e = some (a, b) ∧ a ≠ b
    ∧ a ∈ t.vertices c ∧ b ∈ t.vertices c
  resolves : ∀ e a b, t.endpoints? c e = some (a, b) → e ∈ t.edges c
  single : ∀ e k a b, t.Connects c e a b → t.Connects c k a b → e = k
  filled : ∀ e ∈ t.edges c, t.carried c e ≠ []
  /-- The one edge between two vertices is the one that is found. -/
  found : ∀ e a b, t.edgeBetween? c a b = some e ↔ t.Connects c e a b

theorem Distinct.endpoints?_of_mem (hd : t.Distinct) {n : Node} (hn : n ∈ t.nodes) (e : LocalEdge) :
    t.endpoints? n.id e = n.storage.endpoints? e := by
  rw [endpoints?, hd.storage?_of_mem hn]
  rfl

/-- An edge connects the vertices that its link joins. -/
theorem Distinct.connects_iff (hd : t.Distinct) {n : Node} (hn : n ∈ t.nodes) :
    t.Connects n.id e a b ↔ ∃ l, n.storage.link? e = some l ∧ l.ends = s(a, b) := by
  have hends : ∀ x y, t.endpoints? n.id e = some (x, y)
      ↔ ∃ l, n.storage.link? e = some l ∧ l.first = x ∧ l.second = y := by
    intro x y
    rw [hd.endpoints?_of_mem hn, Storage.endpoints?, Option.map_eq_some_iff]
    simp only [Prod.mk.injEq]
  rw [Connects, hends, hends, ← exists_or]
  refine exists_congr (fun l => ?_)
  rw [← and_or_left, Link.ends, Sym2.eq_iff]

theorem exists_node_of_endpoints? {p : LocalVertex × LocalVertex} (h : t.endpoints? c e = some p) :
    ∃ n ∈ t.nodes, n.id = c := by
  obtain ⟨s, hs, -⟩ := Option.bind_eq_some_iff.mp h
  obtain ⟨n, hn, rfl, -⟩ := exists_node_of_storage? hs
  exact ⟨n, hn, rfl⟩

theorem Connects.exists_node (h : t.Connects c e a b) : ∃ n ∈ t.nodes, n.id = c := by
  rcases h with h | h
  · exact exists_node_of_endpoints? h
  · exact exists_node_of_endpoints? h

theorem exists_node_of_edges (h : e ∈ t.edges c) : ∃ n ∈ t.nodes, n.id = c := by
  rw [edges] at h
  split at h
  · rename_i s hs
    obtain ⟨n, hn, rfl, -⟩ := exists_node_of_storage? hs
    exact ⟨n, hn, rfl⟩
  · exact absurd h List.not_mem_nil

theorem Distinct.mem_edges (hd : t.Distinct) {n : Node} (hn : n ∈ t.nodes) :
    e ∈ t.edges n.id ↔ ∃ l, n.storage.link? e = some l := by
  rw [hd.edges_of_mem hn]
  exact SlotStore.mem_handles

/-- The edges of a sound tree gather what runs between its vertices. -/
theorem Sound.aggregates (hs : t.Sound) (c : ClusterId) : t.Aggregates c := by
  have hd := hs.distinct
  constructor
  case ends =>
    intro e he
    obtain ⟨n, hn, rfl⟩ := exists_node_of_edges he
    obtain ⟨l, hl⟩ := (hd.mem_edges hn).mp he
    obtain ⟨hfirst, hsecond⟩ := (hs.nodes n hn).storage.live e l hl
    refine ⟨l.first, l.second, ?_, (hs.nodes n hn).storage.apart e l hl,
      (hd.mem_vertices hn).mpr hfirst, (hd.mem_vertices hn).mpr hsecond⟩
    rw [hd.endpoints?_of_mem hn, Storage.endpoints?, hl]
    rfl
  case resolves =>
    intro e a b h
    obtain ⟨n, hn, rfl⟩ := exists_node_of_endpoints? h
    obtain ⟨l, hl, -⟩ := (hd.connects_iff hn).mp (Or.inl h)
    exact (hd.mem_edges hn).mpr ⟨l, hl⟩
  case single =>
    intro e k a b he hk
    obtain ⟨n, hn, rfl⟩ := he.exists_node
    obtain ⟨l, hl, hends⟩ := (hd.connects_iff hn).mp he
    obtain ⟨m, hm, hends'⟩ := (hd.connects_iff hn).mp hk
    exact (hs.nodes n hn).storage.single e l k m hl hm (hends.trans hends'.symm)
  case filled =>
    intro e he
    obtain ⟨n, hn, rfl⟩ := exists_node_of_edges he
    obtain ⟨l, hl⟩ := (hd.mem_edges hn).mp he
    rw [hd.carried_of_mem hn, Storage.carried_of_link? hl]
    exact fun hnil => (hs.nodes n hn).storage.filled e l hl (List.map_eq_nil_iff.mp hnil)
  case found =>
    intro e a b
    constructor
    · intro h
      obtain ⟨s, hstorage, -⟩ := Option.bind_eq_some_iff.mp h
      obtain ⟨n, hn, rfl, -⟩ := exists_node_of_storage? hstorage
      rw [hd.edgeBetween?_of_mem hn] at h
      exact (hd.connects_iff hn).mpr ((hs.nodes n hn).storage.edgeBetween?_eq_some.mp h)
    · intro h
      obtain ⟨n, hn, rfl⟩ := h.exists_node
      rw [hd.edgeBetween?_of_mem hn]
      exact (hs.nodes n hn).storage.edgeBetween?_eq_some.mpr ((hd.connects_iff hn).mp h)

end Tree

namespace Workspace

/-- **AGGREGATION**: whatever was done, in every cluster two vertices are
    joined by one edge at most, whatever its direction; an edge joins two
    different live vertices of the cluster, and carries something. -/
theorem aggregates_run (operations : List Operation) {m : Member}
    (hm : m ∈ (empty.run operations).members) (c : ClusterId) : m.tree.Aggregates c :=
  ((sound_run operations).trees m hm).aggregates c

/-- A vertex goes into the child that its neighbour has an edge to already:
    both global edges end up on the one edge between neighbour and child. -/
theorem aggregates_moveIn :
    let operations := [Operation.newGraph (.declared []) (.startingAt 100),
      .change 0 (.addCluster Tree.rootId), .change 0 (.addVertex Tree.rootId),
      .change 0 (.addVertex Tree.rootId), .change 0 (.addEdge Tree.rootId ⟨1, 0⟩ ⟨2, 0⟩),
      .change 0 (.addVertex ⟨1⟩), .change 0 (.connect Tree.rootId ⟨105⟩ ⟨103⟩),
      .change 0 (.moveIn Tree.rootId ⟨1, 0⟩ ⟨1⟩)]
    ∃ m ∈ (empty.run operations).members, m.tree.Aggregates Tree.rootId
      ∧ m.tree.edges Tree.rootId = [⟨1, 0⟩]
      ∧ (m.tree.carried Tree.rootId ⟨1, 0⟩).map GlobalEdge.id = [106, 104] := by
  intro operations
  have hfacts : ∃ m ∈ (empty.run operations).members, m.tree.edges Tree.rootId = [⟨1, 0⟩]
      ∧ (m.tree.carried Tree.rootId ⟨1, 0⟩).map GlobalEdge.id = [106, 104] := by
    decide +kernel
  obtain ⟨m, hm, hedges, hcarried⟩ := hfacts
  exact ⟨m, hm, aggregates_run operations hm Tree.rootId, hedges, hcarried⟩

end Workspace

end NestedGraph
