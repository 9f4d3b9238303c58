import NestedGraph.Proofs.Placement
import NestedGraph.Proofs.Moves

/-! # Rehanging — a vertex goes over to another cluster

    Both moves hand a vertex over from one cluster to another, with the
    cluster that hangs on it.  What a vertex leads to and what stands on it
    stays, except on the way between the two clusters: there it depends on
    which of the vertices lead to the new place. -/

namespace NestedGraph

namespace Tree

/-- Vertex `w` of one cluster went over to another, where it is `nw` now. -/
structure Handover (t t' : Tree) (giver taker giver' taker' : Node) (w nw : LocalVertex) :
    Prop where
  others : ∃ rest, t.nodes = giver ::ₘ taker ::ₘ rest ∧ t'.nodes = giver' ::ₘ taker' ::ₘ rest
  giverId : giver'.id = giver.id
  takerId : taker'.id = taker.id
  giverEntries : ∀ x d, (x, d) ∈ giver'.entries ↔ (x, d) ∈ giver.entries ∧ x ≠ w
  takerEntries : ∀ x d, (x, d) ∈ taker'.entries ↔
    (x, d) ∈ taker.entries ∨ x = nw ∧ (w, d) ∈ giver.entries
  giverVertex : ∀ u, giver'.storage.vertex? u = if u = w then none else giver.storage.vertex? u
  takerVertex : ∀ u, taker'.storage.vertex? u
    = if u = nw then giver.storage.vertex? w else taker.storage.vertex? u
  live : ∃ r, giver.storage.vertex? w = some r
  fresh : taker.storage.vertex? nw = none
  held : ∀ entry ∈ taker.entries, taker.storage.hasVertex entry.1 = true

/-- Where a vertex is after another one went over. -/
def rehung (p q : ClusterId) (w nw : LocalVertex) (place : ClusterId × LocalVertex) :
    ClusterId × LocalVertex :=
  if place = (p, w) then (q, nw) else place

theorem rehung_self {p q : ClusterId} {w nw : LocalVertex} : rehung p q w nw (p, w) = (q, nw) :=
  if_pos rfl

theorem rehung_of_ne {p q : ClusterId} {w nw : LocalVertex} {place : ClusterId × LocalVertex}
    (h : place ≠ (p, w)) : rehung p q w nw place = place := if_neg h

namespace Handover

variable {t t' : Tree} {giver taker giver' taker' : Node} {w nw : LocalVertex}
  (h : t.Handover t' giver taker giver' taker' w nw)
include h

theorem giver_mem : giver ∈ t.nodes ∧ giver' ∈ t'.nodes := by
  obtain ⟨rest, hnodes, hnodes'⟩ := h.others
  rw [hnodes, hnodes']
  exact ⟨Multiset.mem_cons_self .., Multiset.mem_cons_self ..⟩

theorem taker_mem : taker ∈ t.nodes ∧ taker' ∈ t'.nodes := by
  obtain ⟨rest, hnodes, hnodes'⟩ := h.others
  rw [hnodes, hnodes']
  exact ⟨Multiset.mem_cons_of_mem (Multiset.mem_cons_self ..),
    Multiset.mem_cons_of_mem (Multiset.mem_cons_self ..)⟩

theorem taker_ne (hd : t.Distinct) : taker.id ≠ giver.id := by
  obtain ⟨rest, hnodes, -⟩ := h.others
  exact hd.id_ne_of_cons hnodes (Multiset.mem_cons_self ..)

/-- Nothing hangs on the new vertex before. -/
theorem notMem_taker (d : ClusterId) : (nw, d) ∉ taker.entries := by
  intro he
  obtain ⟨r, hr⟩ := Storage.hasVertex_iff.mp (h.held _ he)
  rw [h.fresh] at hr
  exact nomatch hr

/-- A node other than the two stays. -/
theorem mem_cases {n : Node} (hn : n ∈ t.nodes) : n = giver ∨ n = taker ∨ n ∈ t'.nodes := by
  obtain ⟨rest, hnodes, hnodes'⟩ := h.others
  rw [hnodes, Multiset.mem_cons, Multiset.mem_cons] at hn
  rcases hn with rfl | rfl | hn
  · exact Or.inl rfl
  · exact Or.inr (Or.inl rfl)
  · exact Or.inr (Or.inr (hnodes' ▸ Multiset.mem_cons_of_mem (Multiset.mem_cons_of_mem hn)))

/-- A cluster hangs where it hung, or on the new vertex. -/
theorem exists_entry (hd : t.Distinct) {n : Node} (hn : n ∈ t.nodes) {x : LocalVertex}
    {d : ClusterId} (he : (x, d) ∈ n.entries) :
    ∃ n' ∈ t'.nodes, ∃ x', (n'.id, x') = rehung giver.id taker.id w nw (n.id, x)
      ∧ (x', d) ∈ n'.entries := by
  by_cases hplace : (n.id, x) = (giver.id, w)
  · obtain ⟨hid, rfl⟩ := Prod.mk.inj hplace
    obtain rfl := hd.eq_of_id hn h.giver_mem.1 hid
    rw [rehung_self]
    exact ⟨taker', h.taker_mem.2, nw, by rw [h.takerId], (h.takerEntries nw d).mpr (Or.inr ⟨rfl, he⟩)⟩
  · rw [rehung_of_ne hplace]
    rcases h.mem_cases hn with rfl | rfl | hn'
    · refine ⟨giver', h.giver_mem.2, x, by rw [h.giverId], (h.giverEntries x d).mpr ⟨he, ?_⟩⟩
      rintro rfl
      exact hplace rfl
    · exact ⟨taker', h.taker_mem.2, x, by rw [h.takerId], (h.takerEntries x d).mpr (Or.inl he)⟩
    · exact ⟨n, hn', x, rfl, he⟩

/-- A vertex is where it was, or it is the new vertex. -/
theorem exists_ordinary (hd : t.Distinct) {n : Node} (hn : n ∈ t.nodes) {u : LocalVertex}
    {g : GlobalVertex} (ho : n.Ordinary u g) :
    ∃ n' ∈ t'.nodes, ∃ u', (n'.id, u') = rehung giver.id taker.id w nw (n.id, u)
      ∧ n'.Ordinary u' g := by
  obtain ⟨hg, hkeys⟩ := ho
  have hkeys : ∀ d, (u, d) ∉ n.entries := fun d he => hkeys (List.mem_map.mpr ⟨_, he, rfl⟩)
  by_cases hplace : (n.id, u) = (giver.id, w)
  · -- It is the vertex that goes over.
    obtain ⟨hid, rfl⟩ := Prod.mk.inj hplace
    obtain rfl := hd.eq_of_id hn h.giver_mem.1 hid
    rw [rehung_self]
    refine ⟨taker', h.taker_mem.2, nw, by rw [h.takerId], ?_, fun hmem => ?_⟩
    · rw [Storage.global?, h.takerVertex, if_pos rfl]
      exact hg
    · obtain ⟨⟨_, d⟩, he, rfl⟩ := List.mem_map.mp hmem
      rcases (h.takerEntries _ d).mp he with he | ⟨-, he⟩
      · exact h.notMem_taker d he
      · exact hkeys d he
  · -- Any other keeps its place: in the giver, in the taker or in a cluster beside them.
    rw [rehung_of_ne hplace]
    rcases h.mem_cases hn with rfl | rfl | hn'
    · refine ⟨giver', h.giver_mem.2, u, by rw [h.giverId], ?_, fun hmem => ?_⟩
      · rw [Storage.global?, h.giverVertex, if_neg (fun hu => hplace (by rw [hu]))]
        exact hg
      · obtain ⟨⟨_, d⟩, he, rfl⟩ := List.mem_map.mp hmem
        exact hkeys d ((h.giverEntries _ d).mp he).1
    · have hne : u ≠ nw := by
        rintro rfl
        rw [Storage.global?, h.fresh] at hg
        cases hg
      refine ⟨taker', h.taker_mem.2, u, by rw [h.takerId], ?_, fun hmem => ?_⟩
      · rw [Storage.global?, h.takerVertex, if_neg hne]
        exact hg
      · obtain ⟨⟨_, d⟩, he, rfl⟩ := List.mem_map.mp hmem
        rcases (h.takerEntries _ d).mp he with he | ⟨hu, -⟩
        · exact hkeys d he
        · exact hne hu
    · exact ⟨n, hn', u, rfl, hg, fun hmem => by
        obtain ⟨⟨_, d⟩, he, rfl⟩ := List.mem_map.mp hmem
        exact hkeys d he⟩

/-! ## Leading -/

/-- A way that does not pass the vertex stays. -/
theorem leads (hd : t.Distinct) {c o : ClusterId} {v u : LocalVertex} (hl : t.Leads c v o u)
    (hpass : (giver.id, w) ∈ t.path o → (giver.id, w) ∈ t.path c) : t'.Leads c v o u := by
  induction hl with
  | here c v => exact .here c v
  | @inside n v x u d o hn he hl ih =>
      have hpath := hd.path_child hn he
      have hmem : (n.id, v) ∈ t.path o := by
        rcases (Leads.inside hn he hl).mem_path hd with heq | hmem
        · refine absurd hl (hd.not_leads_back hn he x u ∘ ?_)
          rw [(Prod.mk.inj heq).1]
          exact id
        · exact hmem
      have hne : (n.id, v) ≠ (giver.id, w) := by
        intro heq
        have hself := hpass (heq ▸ hmem)
        rw [(Prod.mk.inj heq).1] at hself
        exact absurd (hd.length_path_lt hself) (Nat.lt_irrefl _)
      obtain ⟨n', hn', x', hplace, he'⟩ := h.exists_entry hd hn he
      rw [rehung_of_ne hne] at hplace
      obtain ⟨hid, rfl⟩ := Prod.mk.inj hplace
      rw [← hid]
      refine .inside hn' he' (ih (fun hin => ?_))
      rw [hpath]
      exact List.mem_cons_of_mem _ (hpass hin)

/-- The new vertex leads to all that the vertex led to. -/
theorem leads_moved (hd : t.Distinct) {o : ClusterId} {u : LocalVertex}
    (hl : t.Leads giver.id w o u) {o' : ClusterId} {u' : LocalVertex}
    (hplace : (o', u') = rehung giver.id taker.id w nw (o, u)) : t'.Leads taker.id nw o' u' := by
  generalize hp : giver.id = p at hl
  cases hl with
  | here =>
      rw [hp, rehung_self] at hplace
      obtain ⟨rfl, rfl⟩ := Prod.mk.inj hplace
      exact .here _ _
  | @inside n _ x _ d _ hn he hl =>
      have hne : (o, u) ≠ (giver.id, w) := by
        rintro heq
        refine hd.not_leads_back hn he x u ?_
        rw [← hp, ← (Prod.mk.inj heq).1]
        exact hl
      rw [rehung_of_ne hne] at hplace
      obtain ⟨rfl, rfl⟩ := Prod.mk.inj hplace
      obtain ⟨n', hn', x', hplace', he'⟩ := h.exists_entry hd hn he
      rw [← hp, rehung_self] at hplace'
      obtain ⟨hid, rfl⟩ := Prod.mk.inj hplace'
      rw [← hid]
      refine .inside hn' he' (h.leads hd hl (fun _ => ?_))
      rw [hd.path_child hn he, hp]
      exact List.mem_cons_self ..

/-! ## Standing -/

/-- On the new vertex stands what stood on the vertex. -/
theorem stands_moved (hd : t.Distinct) {g : GlobalVertex} (hs : t.Stands giver.id w g) :
    t'.Stands taker.id nw g := by
  obtain ⟨n, hn, u, hl, ho⟩ := hs
  obtain ⟨n', hn', u', hplace, ho'⟩ := h.exists_ordinary hd hn ho
  exact ⟨n', hn', u', h.leads_moved hd hl hplace, ho'⟩

/-- On any other vertex stands what stood there, if the vertices around
    that led to the vertex lead to the new one. -/
theorem stands (hd : t.Distinct) {c : ClusterId} {v : LocalVertex} {g : GlobalVertex}
    (hs : t.Stands c v g) (hne : (c, v) ≠ (giver.id, w))
    (habove : (c, v) ∈ t.path giver.id → t.Stands giver.id w g → t'.Leads c v taker.id nw) :
    t'.Stands c v g := by
  obtain ⟨n, hn, u, hl, ho⟩ := hs
  by_cases hthrough : t.Leads giver.id w n.id u
  · have hmoved : t.Stands giver.id w g := ⟨n, hn, u, hthrough, ho⟩
    rcases hl.comparable hd hthrough with heq | hmem | hmem
    · exact absurd heq hne
    · -- The vertex that goes over is below, and takes along what it stands for.
      obtain ⟨n', hn', u', hl', ho'⟩ := h.stands_moved hd hmoved
      exact ⟨n', hn', u', (habove hmem hmoved).trans hl', ho'⟩
    · -- It is above: all goes over in one piece, and nothing in it hangs differently.
      have hplace : (n.id, u) ≠ (giver.id, w) := by
        intro heq
        obtain ⟨hid, rfl⟩ := Prod.mk.inj heq
        rcases hl.mem_path hd with heq' | hmem'
        · exact hne (heq'.trans heq)
        · rw [hid] at hmem'
          exact absurd (hd.length_path_lt hmem') (Nat.lt_asymm (hd.length_path_lt hmem))
      obtain ⟨n', hn', u', hplace', ho'⟩ := h.exists_ordinary hd hn ho
      rw [rehung_of_ne hplace] at hplace'
      obtain ⟨hid, rfl⟩ := Prod.mk.inj hplace'
      refine ⟨n', hn', u', ?_, ho'⟩
      rw [hid]
      exact h.leads hd hl (fun _ => hmem)
  · -- What stands here does not pass the vertex at all.
    have hplace : (n.id, u) ≠ (giver.id, w) := by
      intro heq
      obtain ⟨hid, rfl⟩ := Prod.mk.inj heq
      exact hthrough (hid ▸ .here _ _)
    obtain ⟨n', hn', u', hplace', ho'⟩ := h.exists_ordinary hd hn ho
    rw [rehung_of_ne hplace] at hplace'
    obtain ⟨hid, rfl⟩ := Prod.mk.inj hplace'
    refine ⟨n', hn', u', ?_, ho'⟩
    rw [hid]
    exact h.leads hd hl (fun hmem => absurd (leads_of_mem_path hd hmem u') hthrough)

/-! ## Order -/

/-- The name of the vertex goes from one cluster to the other. -/
theorem exists_name : ∃ g, giver.storage.holds = (w, g) ::ₘ giver'.storage.holds
    ∧ taker'.storage.holds = (nw, g) ::ₘ taker.storage.holds := by
  obtain ⟨r, hr⟩ := h.live
  have hgiver : giver.storage.vertices.table = (w, r) ::ₘ giver'.storage.vertices.table := by
    refine SlotStore.table_eq_cons ((h.giverVertex w).trans (if_pos rfl)) (fun k => ?_)
    have hk := h.giverVertex k
    split
    · rename_i heq
      rw [heq]
      exact hr
    · rename_i hne
      rw [if_neg hne] at hk
      exact hk.symm
  have htaker : taker'.storage.vertices.table = (nw, r) ::ₘ taker.storage.vertices.table := by
    refine SlotStore.table_eq_cons h.fresh (fun k => ?_)
    rw [← hr]
    exact h.takerVertex k
  refine ⟨r.global, ?_, ?_⟩
  · rw [Storage.holds, hgiver, Multiset.map_cons]
    rfl
  · rw [Storage.holds, htaker, Multiset.map_cons]
    rfl

/-- The names of vertices are the same. -/
theorem holds : giver'.storage.holds.map Prod.snd + taker'.storage.holds.map Prod.snd
    = giver.storage.holds.map Prod.snd + taker.storage.holds.map Prod.snd := by
  obtain ⟨g, hgiver, htaker⟩ := h.exists_name
  rw [hgiver, htaker, Multiset.map_cons, Multiset.map_cons, Multiset.cons_add, Multiset.add_cons]

/-- A handover keeps the names of the tree if the two clusters carry the same
    edges as before. -/
theorem names (hcarries : giver'.storage.carries.map Prod.snd + taker'.storage.carries.map Prod.snd
      = giver.storage.carries.map Prod.snd + taker.storage.carries.map Prod.snd) :
    t'.nodes.bind (fun n => n.storage.names) = t.nodes.bind (fun n => n.storage.names) := by
  obtain ⟨rest, hnodes, hnodes'⟩ := h.others
  have hnames : ∀ s : Storage, s.names
      = (s.holds.map Prod.snd).map GlobalVertex.id + (s.carries.map Prod.snd).map GlobalEdge.id := by
    intro s
    rw [Multiset.map_map, Multiset.map_map]
    rfl
  have hpair : giver'.storage.names + taker'.storage.names
      = giver.storage.names + taker.storage.names := by
    have hvertices := congrArg (Multiset.map GlobalVertex.id) h.holds
    have hedges := congrArg (Multiset.map GlobalEdge.id) hcarries
    rw [Multiset.map_add, Multiset.map_add] at hvertices hedges
    rw [hnames, hnames, hnames, hnames, add_add_add_comm, hvertices, hedges, add_add_add_comm]
  simp only [hnodes, hnodes', Multiset.cons_bind, ← add_assoc, hpair]

/-- A handover keeps order if the two clusters carry the same edges as
    before, between what these stand on now, and if the vertices around lead
    to the new vertex. -/
theorem orderly {count : UInt64} (ho : t.Orderly count) (hs : t'.Sound)
    (hcarries : giver'.storage.carries.map Prod.snd + taker'.storage.carries.map Prod.snd
      = giver.storage.carries.map Prod.snd + taker.storage.carries.map Prod.snd)
    (habove : ∀ c v, c ≠ taker.id → (c, v) ∈ t.path giver.id → t'.Leads c v taker.id nw)
    (hgiver : ∀ z g, (z, g) ∈ giver'.storage.carries → t'.Joins giver.id z g)
    (htaker : ∀ z g, (z, g) ∈ taker'.storage.carries → t'.Joins taker.id z g) :
    t'.Orderly count := by
  have hd := ho.sound.distinct
  obtain ⟨rest, hnodes, hnodes'⟩ := h.others
  refine ⟨hs, ho.named.of_le (le_of_eq (h.names hcarries)) (UInt64.le_refl _), fun n hn z g hz => ?_⟩
  rw [hnodes', Multiset.mem_cons, Multiset.mem_cons] at hn
  rcases hn with rfl | rfl | hn
  · rw [h.giverId]
    exact hgiver z g hz
  · rw [h.takerId]
    exact htaker z g hz
  · have hn0 : n ∈ t.nodes :=
      hnodes ▸ Multiset.mem_cons_of_mem (Multiset.mem_cons_of_mem hn)
    have hgiver : n.id ≠ giver.id := hd.id_ne_of_cons hnodes (Multiset.mem_cons_of_mem hn)
    have htaker : n.id ≠ taker.id :=
      hd.id_ne_of_cons (hnodes.trans (Multiset.cons_swap ..)) (Multiset.mem_cons_of_mem hn)
    have hstands : ∀ {x : LocalVertex} {name : GlobalVertex}, t.Stands n.id x name →
        t'.Stands n.id x name := fun hst =>
      h.stands hd hst (fun heq => hgiver (Prod.mk.inj heq).1) (fun hmem _ => habove _ _ htaker hmem)
    obtain ⟨x, y, hxy, hx, hy⟩ := ho.placed n hn0 z g hz
    exact ⟨x, y, hxy, hstands hx, hstands hy⟩

end Handover

end Tree

end NestedGraph
