import NestedGraph.Proofs.Alike
import NestedGraph.Proofs.Order

/-! # Whereabouts — where a name is, and what it is looked up as

    In a tree in order every id is in one place: it is that of one vertex
    of one cluster, or that of one global edge on one edge of one cluster.
    So a lookup in any cluster can give one answer only, and it gives that
    answer exactly when the cluster has the place inside it. -/

namespace NestedGraph

/-! ## Edges in one storage -/

theorem EdgeRecord.carriedAs?_isSome_iff {r : EdgeRecord} {k : GlobalEdge} :
    (r.carriedAs? k).isSome = true ↔ ∃ g ∈ r.globals, g.id = k.id := by
  rw [carriedAs?, List.find?_isSome]
  simp [globals, GlobalEdge.same]

namespace Storage

variable {s : Storage} {e : LocalEdge} {g k : GlobalEdge}

theorem mem_carried : g ∈ s.carried e ↔ ∃ l, s.link? e = some l ∧ g ∈ l.record.globals := by
  rw [carried, edgeRecord?]
  cases s.link? e <;> simp

theorem of_edgeOf? (h : s.edgeOf? k = some e) : ∃ g ∈ s.carried e, g.id = k.id := by
  obtain ⟨⟨e', l⟩, hfind, rfl⟩ := Option.map_eq_some_iff.mp h
  have hl : s.link? e' = some l := SlotStore.mem_entries.mp (List.mem_of_find?_eq_some hfind)
  obtain ⟨g, hg, hid⟩ := EdgeRecord.carriedAs?_isSome_iff.mp
    (List.find?_some (p := fun entry : LocalEdge × Link =>
      (entry.2.record.carriedAs? k).isSome) hfind)
  exact ⟨g, mem_carried.mpr ⟨l, hl, hg⟩, hid⟩

theorem exists_edgeOf? (hg : g ∈ s.carried e) (hid : g.id = k.id) : ∃ e', s.edgeOf? k = some e' := by
  obtain ⟨l, hl, hg⟩ := mem_carried.mp hg
  have hsome : (s.edges.entries.find? (fun entry => (entry.2.record.carriedAs? k).isSome)).isSome
      = true := by
    rw [List.find?_isSome]
    exact ⟨(e, l), SlotStore.mem_entries.mpr hl,
      EdgeRecord.carriedAs?_isSome_iff.mpr ⟨g, hg, hid⟩⟩
  obtain ⟨entry, hentry⟩ := Option.isSome_iff_exists.mp hsome
  exact ⟨entry.1, by rw [edgeOf?, hentry]; rfl⟩

/-- What an edge carries, the cluster carries between the ends of the edge. -/
theorem mem_carries_of_link? {l : Link} (hl : s.link? e = some l) (hg : g ∈ l.record.globals) :
    (l.ends, g) ∈ s.carries := by
  obtain ⟨x, hx, rfl⟩ := List.mem_map.mp hg
  exact mem_carries.mpr ⟨x, mem_load.mpr ⟨e, l, hl, rfl, hx⟩, rfl⟩

/-- What a cluster carries is on its edges. -/
theorem exists_mem_carried (h : ∃ z, (z, g) ∈ s.carries) : ∃ e, g ∈ s.carried e := by
  obtain ⟨z, hz⟩ := h
  obtain ⟨x, hx, rfl⟩ := mem_carries.mp hz
  obtain ⟨e, l, hl, -, hx⟩ := mem_load.mp hx
  exact ⟨e, mem_carried.mpr ⟨l, hl, List.mem_map_of_mem hx⟩⟩

/-- The ids on one edge are among those of the cluster. -/
theorem nodup_ids_of_link? {l : Link} (hs : s.names.Nodup) (hl : s.link? e = some l) :
    (l.record.globals.map GlobalEdge.id).Nodup := by
  have hids : ((l.record.globals.map GlobalEdge.id : List UInt64) : Multiset UInt64)
      = l.load.map (fun entry => entry.2.global.id) := by
    simp [Link.load, EdgeRecord.globals, Function.comp_def]
  have hle : ((l.record.globals.map GlobalEdge.id : List UInt64) : Multiset UInt64) ≤ s.names := by
    rw [hids, names, carries, Multiset.map_map, load_removeEdge hl, Multiset.map_add]
    exact (Multiset.le_add_right ..).trans (Multiset.le_add_left ..)
  exact Multiset.coe_nodup.mp (Multiset.nodup_of_le hle hs)

end Storage

namespace Branch

variable {b : Branch} {o : ClusterId} {e : LocalEdge} {g k : GlobalEdge} {n : Node}

theorem of_edgeOwner? (h : b.edgeOwner? k = some (o, e)) :
    ∃ n ∈ b.nodes, n.id = o ∧ ∃ g ∈ n.storage.carried e, g.id = k.id := by
  obtain ⟨c, hc, heq⟩ := List.exists_of_findSome?_eq_some h
  obtain ⟨n, hn, rfl⟩ := mem_clusters.mp hc
  obtain ⟨e', he', heq⟩ := Option.map_eq_some_iff.mp heq
  obtain ⟨rfl, rfl⟩ := Prod.mk.inj heq
  exact ⟨n, hn, rfl, Storage.of_edgeOf? he'⟩

theorem exists_edgeOwner? (hn : n ∈ b.nodes) (hg : g ∈ n.storage.carried e) (hid : g.id = k.id) :
    ∃ o e', b.edgeOwner? k = some (o, e') := by
  obtain ⟨e', he'⟩ := Storage.exists_edgeOf? hg hid
  cases ho : b.edgeOwner? k with
  | some place => exact ⟨place.1, place.2, rfl⟩
  | none =>
      have hnone := List.findSome?_eq_none_iff.mp ho n.cluster (mem_clusters.mpr ⟨n, hn, rfl⟩)
      rw [show n.cluster.storage.edgeOf? k = some e' from he'] at hnone
      exact nomatch hnone

end Branch

namespace Tree

variable {t : Tree} {count : UInt64} {a c o : ClusterId} {u v w : LocalVertex} {e e' : LocalEdge}
  {g : GlobalVertex} {k l : GlobalEdge}

/-! ## Places -/

/-- Somewhere a name can be. -/
inductive Place where
  | vertex (c : ClusterId) (v : LocalVertex)
  /-- On an edge, as the global edge at a position. -/
  | edge (c : ClusterId) (e : LocalEdge) (position : Nat)
deriving DecidableEq

/-- The id in a place. -/
def idAt? (t : Tree) : Place → Option UInt64
  | .vertex c v => (t.global? c v).map GlobalVertex.id
  | .edge c e position => (t.carried c e)[position]?.map GlobalEdge.id

theorem exists_node_of_carried (h : k ∈ t.carried c e) :
    ∃ n ∈ t.nodes, n.id = c ∧ k ∈ n.storage.carried e := by
  rw [carried] at h
  cases hs : t.storage? c with
  | none =>
      rw [hs] at h
      exact absurd h List.not_mem_nil
  | some s =>
      rw [hs] at h
      obtain ⟨n, hn, hid, rfl⟩ := exists_node_of_storage? hs
      exact ⟨n, hn, hid, h⟩

theorem mem_ids_of_carried (h : k ∈ t.carried c e) : c ∈ t.ids := by
  obtain ⟨n, hn, rfl, -⟩ := exists_node_of_carried h
  exact Multiset.mem_map_of_mem Node.id hn

theorem Distinct.carried_of_mem (hd : t.Distinct) {n : Node} (hn : n ∈ t.nodes) (e : LocalEdge) :
    t.carried n.id e = n.storage.carried e := by
  rw [carried, hd.storage?_of_mem hn]

/-- A name is that of one vertex. -/
theorem Orderly.eq_of_vertices (h : t.Orderly count) (hv : t.global? c v = some g)
    (hu : t.global? o u = some g) : o = c ∧ u = v := by
  obtain ⟨n, hn, rfl, hnv⟩ := exists_node_of_global? hv
  obtain ⟨m, hm, rfl, hmu⟩ := exists_node_of_global? hu
  obtain ⟨heq, huv⟩ := h.named.eq_of_global? hm hn hmu hnv
  exact ⟨congrArg Node.id heq, huv⟩

/-- An id is on one edge. -/
theorem Orderly.eq_of_carried (h : t.Orderly count) (hk : k ∈ t.carried c e)
    (hl : l ∈ t.carried o e') (hid : l.id = k.id) : o = c ∧ e' = e ∧ l = k := by
  obtain ⟨n, hn, rfl, hnk⟩ := exists_node_of_carried hk
  obtain ⟨m, hm, rfl, hml⟩ := exists_node_of_carried hl
  obtain ⟨link, hlink, hgk⟩ := Storage.mem_carried.mp hnk
  obtain ⟨link', hlink', hgl⟩ := Storage.mem_carried.mp hml
  obtain ⟨rfl, hends, rfl⟩ := h.named.eq_of_mem_carries hm hn
    (Storage.mem_carries_of_link? hlink' hgl) (Storage.mem_carries_of_link? hlink hgk) hid
  exact ⟨rfl, (h.sound.nodes m hm).storage.single e' link' e link hlink' hlink hends, rfl⟩

theorem Orderly.nodup_ids_carried (h : t.Orderly count) (c : ClusterId) (e : LocalEdge) :
    ((t.carried c e).map GlobalEdge.id).Nodup := by
  cases hnil : t.carried c e with
  | nil => exact List.nodup_nil
  | cons k rest =>
      obtain ⟨n, hn, rfl, hk⟩ := exists_node_of_carried (hnil ▸ List.mem_cons_self ..)
      obtain ⟨link, hlink, -⟩ := Storage.mem_carried.mp hk
      have hcarried : n.storage.carried e = link.record.globals := by
        rw [Storage.carried, Storage.edgeRecord?, hlink]
        rfl
      rw [← hnil, h.sound.distinct.carried_of_mem hn, hcarried]
      exact Storage.nodup_ids_of_link? (h.named.nodup_node hn) hlink

/-- No two positions on an edge have one id. -/
theorem Orderly.eq_of_positions (h : t.Orderly count) {i j : Nat} (hk : (t.carried c e)[i]? = some k)
    (hl : (t.carried c e)[j]? = some l) (hid : l.id = k.id) : j = i := by
  have hi : ((t.carried c e).map GlobalEdge.id)[i]? = some k.id := by simp [hk]
  have hj : ((t.carried c e).map GlobalEdge.id)[j]? = some k.id := by simp [hl, hid]
  exact (List.getElem?_inj (List.getElem?_eq_some_iff.mp hj).1 (h.nodup_ids_carried c e)).mp
    (hj.trans hi.symm)

/-- A vertex and a global edge have different ids. -/
theorem Orderly.id_ne_of_carried (h : t.Orderly count) (hv : t.global? c v = some g)
    (hk : k ∈ t.carried o e) : g.id ≠ k.id := by
  intro hid
  obtain ⟨n, hn, rfl, hnv⟩ := exists_node_of_global? hv
  obtain ⟨m, hm, rfl, hmk⟩ := exists_node_of_carried hk
  obtain ⟨link, hlink, hmk⟩ := Storage.mem_carried.mp hmk
  have hcarries := Storage.mem_carries_of_link? hlink hmk
  obtain rfl := h.named.eq_of_mem_names hn hm (Storage.mem_names.mpr (Or.inl ⟨v, g, hnv, rfl⟩))
    (Storage.mem_names.mpr (Or.inr ⟨link.ends, k, hcarries, hid.symm⟩))
  have hnames := h.named.nodup_node hn
  rw [Storage.names, Multiset.nodup_add] at hnames
  refine Multiset.disjoint_left.mp hnames.2.2
    (Multiset.mem_map.mpr ⟨(v, g), Storage.mem_holds.mpr hnv, rfl⟩) ?_
  exact Multiset.mem_map.mpr ⟨_, hcarries, hid.symm⟩

/-- In a tree in order an id is in one place. -/
theorem Orderly.eq_of_idAt? (h : t.Orderly count) {p q : Place} {id : UInt64}
    (hp : t.idAt? p = some id) (hq : t.idAt? q = some id) : p = q := by
  cases p with
  | vertex c v =>
    obtain ⟨g, hg, rfl⟩ := Option.map_eq_some_iff.mp hp
    cases q with
    | vertex o u =>
      obtain ⟨g', hg', hid⟩ := Option.map_eq_some_iff.mp hq
      obtain rfl : g' = g := congrArg GlobalVertex.mk hid
      obtain ⟨rfl, rfl⟩ := h.eq_of_vertices hg hg'
      rfl
    | edge o e j =>
      obtain ⟨k, hk, hid⟩ := Option.map_eq_some_iff.mp hq
      exact absurd hid.symm (h.id_ne_of_carried hg (List.mem_of_getElem? hk))
  | edge c e i =>
    obtain ⟨k, hk, rfl⟩ := Option.map_eq_some_iff.mp hp
    cases q with
    | vertex o u =>
      obtain ⟨g, hg, hid⟩ := Option.map_eq_some_iff.mp hq
      exact absurd hid (h.id_ne_of_carried hg (List.mem_of_getElem? hk))
    | edge o e' j =>
      obtain ⟨l, hl, hid⟩ := Option.map_eq_some_iff.mp hq
      obtain ⟨rfl, rfl, -⟩ := h.eq_of_carried (List.mem_of_getElem? hk) (List.mem_of_getElem? hl) hid
      rw [h.eq_of_positions hk hl hid]

/-- The ids of a tree are those in its places. -/
theorem Distinct.mem_names_iff_idAt? (hd : t.Distinct) {id : UInt64} :
    id ∈ t.names ↔ ∃ p, t.idAt? p = some id := by
  rw [mem_names_iff]
  constructor
  · rintro ⟨n, hn, hid⟩
    rcases Storage.mem_names.mp hid with ⟨v, g, hg, rfl⟩ | ⟨z, k, hk, rfl⟩
    · refine ⟨.vertex n.id v, ?_⟩
      rw [idAt?, hd.global?_of_mem hn, hg]
      rfl
    · obtain ⟨e, he⟩ := Storage.exists_mem_carried ⟨z, hk⟩
      obtain ⟨i, hi⟩ := List.mem_iff_getElem?.mp he
      refine ⟨.edge n.id e i, ?_⟩
      rw [idAt?, hd.carried_of_mem hn, hi]
      rfl
  · rintro ⟨p, hp⟩
    cases p with
    | vertex c v =>
      obtain ⟨g, hg, rfl⟩ := Option.map_eq_some_iff.mp hp
      obtain ⟨n, hn, rfl, hnv⟩ := exists_node_of_global? hg
      exact ⟨n, hn, Storage.mem_names.mpr (Or.inl ⟨v, g, hnv, rfl⟩)⟩
    | edge c e i =>
      obtain ⟨k, hk, rfl⟩ := Option.map_eq_some_iff.mp hp
      obtain ⟨n, hn, rfl, hnk⟩ := exists_node_of_carried (List.mem_of_getElem? hk)
      obtain ⟨link, hlink, hnk⟩ := Storage.mem_carried.mp hnk
      exact ⟨n, hn, Storage.mem_names.mpr
        (Or.inr ⟨link.ends, k, Storage.mem_carries_of_link? hlink hnk, rfl⟩)⟩

/-! ## Lookups -/

theorem Orderly.localVertex?_own (h : t.Orderly count) :
    t.localVertex? a g false = some u ↔ t.global? a u = some g := by
  constructor
  · intro hfound
    obtain ⟨b, hb, hu⟩ := Option.bind_eq_some_iff.mp hfound
    obtain rfl := id_of_find? hb
    exact (h.sound.distinct.global?_of_mem (node_mem_of_find? hb) u).trans
      (Storage.global?_of_vertexOf? hu)
  · intro hu
    obtain ⟨n, hn, rfl, hnu⟩ := exists_node_of_global? hu
    obtain ⟨b, hb, rfl⟩ := h.sound.distinct.find?_of_mem hn
    obtain ⟨w, hw⟩ := Storage.exists_vertexOf? hnu
    obtain ⟨-, rfl⟩ := h.named.eq_of_global? hn hn hnu (Storage.global?_of_vertexOf? hw)
    rw [localVertex?, hb]
    exact hw

/-- A recursive lookup finds the vertex that leads to the name. -/
theorem Orderly.localVertex?_recursive (h : t.Orderly count) :
    t.localVertex? a g true = some w
      ↔ a ∈ t.ids ∧ ∃ o u, t.Leads a w o u ∧ t.global? o u = some g := by
  have hs := h.sound
  constructor
  · intro hw
    obtain ⟨b, hb, hw⟩ := Option.bind_eq_some_iff.mp hw
    exact ⟨mem_ids_iff.mpr ⟨b, hb⟩,
      (hs.mem_travelling hb).mp (hs.mem_travelling_of_representative? hb hw)⟩
  · rintro ⟨ha, o, u, hl, hu⟩
    obtain ⟨b, hb⟩ := mem_ids_iff.mp ha
    -- Something is found, and as the name has one place it leads there.
    obtain ⟨w', hw'⟩ := exists_representative? ((hs.mem_globals_iff hb).mpr ⟨w, o, u, hl, hu⟩)
    obtain ⟨o', u', hl', hu'⟩ :=
      (hs.mem_travelling hb).mp (hs.mem_travelling_of_representative? hb hw')
    obtain ⟨rfl, rfl⟩ := h.eq_of_vertices hu hu'
    obtain rfl := hl.unique hs.distinct hl'
    rw [localVertex?, hb]
    exact hw'

theorem Orderly.localEdge?_eq_some (h : t.Orderly count) :
    t.localEdge? a k = some e ↔ ∃ l ∈ t.carried a e, l.id = k.id := by
  constructor
  · intro he
    obtain ⟨s, hs, he⟩ := Option.bind_eq_some_iff.mp he
    obtain ⟨n, hn, rfl, rfl⟩ := exists_node_of_storage? hs
    rw [h.sound.distinct.carried_of_mem hn]
    exact Storage.of_edgeOf? he
  · rintro ⟨l, hl, hid⟩
    obtain ⟨n, hn, rfl, hnl⟩ := exists_node_of_carried hl
    obtain ⟨e', he'⟩ := Storage.exists_edgeOf? hnl hid
    obtain ⟨l', hl', hid'⟩ := Storage.of_edgeOf? he'
    rw [← h.sound.distinct.carried_of_mem hn] at hl'
    obtain ⟨-, rfl, -⟩ := h.eq_of_carried hl hl' (hid'.trans hid.symm)
    rw [localEdge?, h.sound.distinct.storage?_of_mem hn]
    exact he'

/-- The owner of a global edge is the one cluster inside that carries it. -/
theorem Orderly.edgeOwner?_eq_some (h : t.Orderly count) :
    t.edgeOwner? a k = some (c, e)
      ↔ a ∈ t.ids ∧ t.isAncestor a c = true ∧ ∃ l ∈ t.carried c e, l.id = k.id := by
  have hd := h.sound.distinct
  constructor
  · intro howner
    obtain ⟨b, hb, howner⟩ := Option.bind_eq_some_iff.mp howner
    obtain ⟨n, hn, rfl, l, hl, hid⟩ := Branch.of_edgeOwner? howner
    have hle := nodes_le_of_find? hb
    obtain ⟨w, hw⟩ := exists_leads_of_mem_nodes hle hn ⟨0, 0⟩
    obtain rfl := id_of_find? hb
    refine ⟨mem_ids_iff.mpr ⟨b, hb⟩, hw.isAncestor hd, l, ?_, hid⟩
    rw [hd.carried_of_mem (Multiset.mem_of_le hle hn)]
    exact hl
  · rintro ⟨ha, hin, l, hl, hid⟩
    obtain ⟨b, hb⟩ := mem_ids_iff.mp ha
    obtain ⟨n, hn, rfl, hnl⟩ := exists_node_of_carried hl
    obtain ⟨w, hw⟩ := hd.exists_leads hin ⟨0, 0⟩
    obtain ⟨o, e', howner⟩ := Branch.exists_edgeOwner? (hw.mem_nodes h.sound hb hn rfl) hnl hid
    obtain ⟨m, hm, rfl, l', hl', hid'⟩ := Branch.of_edgeOwner? howner
    rw [← hd.carried_of_mem (Multiset.mem_of_le (nodes_le_of_find? hb) hm)] at hl'
    obtain ⟨heq, rfl, -⟩ := h.eq_of_carried hl hl' (hid'.trans hid.symm)
    rw [edgeOwner?, hb, ← heq]
    exact howner

/-! ## Translation -/

/-- A cluster around a live one is live. -/
theorem Distinct.mem_ids_of_isAncestor (hd : t.Distinct) (hc : c ∈ t.ids)
    (h : t.isAncestor a c = true) : a ∈ t.ids := by
  obtain ⟨v, hl⟩ := hd.exists_leads h ⟨0, 0⟩
  cases hl with
  | here => exact hc
  | inside hn _ _ => exact Multiset.mem_map_of_mem Node.id hn

/-- In every cluster, a name is looked up as what stands there for the place
    that the name has, and an id without a place inside as nothing. -/
structure Translates (t : Tree) : Prop where
  owner : ∀ a c v g, t.global? c v = some g →
    t.vertexOwner? a g = if t.isAncestor a c then some (c, v) else none
  own : ∀ a c v g, t.global? c v = some g →
    t.localVertex? a g false = if a = c then some v else none
  here : ∀ c v g, t.global? c v = some g → t.localVertex? c g true = some v
  /-- Further up, it is the vertex on which the child that is on the way
      down hangs. -/
  above : ∀ a c v g, t.global? c v = some g → a ≠ c → t.isAncestor a c = true →
    ∃ w d, (w, d) ∈ t.children a ∧ t.isAncestor d c = true ∧ t.localVertex? a g true = some w
  beside : ∀ a c v g, t.global? c v = some g → t.isAncestor a c = false →
    t.localVertex? a g true = none
  localEdge : ∀ a c e k, k ∈ t.carried c e →
    t.localEdge? a k = if a = c then some e else none
  edgeOwner : ∀ a c e k, k ∈ t.carried c e →
    t.edgeOwner? a k = if t.isAncestor a c then some (c, e) else none
  noVertex : ∀ a g, (∀ c v, t.isAncestor a c = true → t.global? c v ≠ some g) →
    t.vertexOwner? a g = none ∧ ∀ recursive, t.localVertex? a g recursive = none
  noEdge : ∀ a k, (∀ c e, t.isAncestor a c = true → ∀ l ∈ t.carried c e, l.id ≠ k.id) →
    t.edgeOwner? a k = none ∧ t.localEdge? a k = none

/-- What is looked up is found where `p` says so, and nothing is elsewhere. -/
theorem eq_ite_of_eq_some {α : Type} {found : Option α} {x : α} {p : Prop} [Decidable p]
    (hp : p → found = some x) (honly : ∀ y, found = some y → p) :
    found = if p then some x else none := by
  split
  · rename_i h
    exact hp h
  · rename_i h
    exact Option.eq_none_iff_forall_ne_some.mpr (fun y hy => h (honly y hy))

section Orderly

variable (h : t.Orderly count)
include h

theorem Orderly.vertexOwner?_of_global? (hv : t.global? c v = some g) :
    t.vertexOwner? a g = if t.isAncestor a c then some (c, v) else none := by
  refine eq_ite_of_eq_some (fun hin => ?_) ?_
  · have ha := h.sound.distinct.mem_ids_of_isAncestor (mem_ids_of_global? hv) hin
    exact h.vertexOwner?_eq_some.mpr ⟨ha, hin, hv⟩
  · rintro ⟨o, u⟩ howner
    obtain ⟨-, hin, hu⟩ := h.vertexOwner?_eq_some.mp howner
    obtain ⟨rfl, rfl⟩ := h.eq_of_vertices hv hu
    exact hin

theorem Orderly.localVertex?_of_global? (hv : t.global? c v = some g) :
    t.localVertex? a g false = if a = c then some v else none := by
  refine eq_ite_of_eq_some (fun heq => h.localVertex?_own.mpr (heq ▸ hv)) (fun u hu => ?_)
  exact (h.eq_of_vertices hv (h.localVertex?_own.mp hu)).1

/-- From further up, what is found is a vertex on which a child hangs. -/
theorem Orderly.exists_localVertex?_above (hv : t.global? c v = some g) (hne : a ≠ c)
    (hin : t.isAncestor a c = true) :
    ∃ w d, (w, d) ∈ t.children a ∧ t.isAncestor d c = true ∧ t.localVertex? a g true = some w := by
  have hd := h.sound.distinct
  have ha := hd.mem_ids_of_isAncestor (mem_ids_of_global? hv) hin
  obtain ⟨w, hl⟩ := hd.exists_leads hin v
  have hw := h.localVertex?_recursive.mpr ⟨ha, c, v, hl, hv⟩
  cases hl with
  | here => exact absurd rfl hne
  | @inside n _ x _ d _ hn he hl =>
    exact ⟨w, d, (hd.children_of_mem hn).symm ▸ he, hl.isAncestor hd, hw⟩

theorem Orderly.localVertex?_beside (hv : t.global? c v = some g)
    (hout : t.isAncestor a c = false) : t.localVertex? a g true = none := by
  refine Option.eq_none_iff_forall_ne_some.mpr (fun w hw => ?_)
  obtain ⟨-, o, u, hl, hu⟩ := h.localVertex?_recursive.mp hw
  obtain ⟨rfl, rfl⟩ := h.eq_of_vertices hv hu
  exact Bool.false_ne_true (hout.symm.trans (hl.isAncestor h.sound.distinct))

theorem Orderly.localEdge?_of_carried (hk : k ∈ t.carried c e) :
    t.localEdge? a k = if a = c then some e else none := by
  refine eq_ite_of_eq_some (fun heq => h.localEdge?_eq_some.mpr ⟨k, heq ▸ hk, rfl⟩)
    (fun e' he' => ?_)
  obtain ⟨l, hl, hid⟩ := h.localEdge?_eq_some.mp he'
  exact (h.eq_of_carried hk hl hid).1

theorem Orderly.edgeOwner?_of_carried (hk : k ∈ t.carried c e) :
    t.edgeOwner? a k = if t.isAncestor a c then some (c, e) else none := by
  refine eq_ite_of_eq_some (fun hin => ?_) ?_
  · have ha := h.sound.distinct.mem_ids_of_isAncestor (mem_ids_of_carried hk) hin
    exact h.edgeOwner?_eq_some.mpr ⟨ha, hin, k, hk, rfl⟩
  · rintro ⟨o, e'⟩ howner
    obtain ⟨-, hin, l, hl, hid⟩ := h.edgeOwner?_eq_some.mp howner
    obtain ⟨rfl, -, -⟩ := h.eq_of_carried hk hl hid
    exact hin

/-- No lookup finds a name that is not inside. -/
theorem Orderly.vertex_unfound
    (hnone : ∀ c v, t.isAncestor a c = true → t.global? c v ≠ some g) :
    t.vertexOwner? a g = none ∧ ∀ recursive, t.localVertex? a g recursive = none := by
  constructor
  · refine Option.eq_none_iff_forall_ne_some.mpr ?_
    rintro ⟨o, u⟩ howner
    obtain ⟨-, hin, hu⟩ := h.vertexOwner?_eq_some.mp howner
    exact hnone o u hin hu
  · intro recursive
    refine Option.eq_none_iff_forall_ne_some.mpr (fun w hw => ?_)
    cases recursive with
    | false => exact hnone a w (isAncestor_self t a) (h.localVertex?_own.mp hw)
    | true =>
      obtain ⟨-, o, u, hl, hu⟩ := h.localVertex?_recursive.mp hw
      exact hnone o u (hl.isAncestor h.sound.distinct) hu

theorem Orderly.edge_unfound
    (hnone : ∀ c e, t.isAncestor a c = true → ∀ l ∈ t.carried c e, l.id ≠ k.id) :
    t.edgeOwner? a k = none ∧ t.localEdge? a k = none := by
  constructor
  · refine Option.eq_none_iff_forall_ne_some.mpr ?_
    rintro ⟨o, e⟩ howner
    obtain ⟨-, hin, l, hl, hid⟩ := h.edgeOwner?_eq_some.mp howner
    exact hnone o e hin l hl hid
  · refine Option.eq_none_iff_forall_ne_some.mpr (fun e he => ?_)
    obtain ⟨l, hl, hid⟩ := h.localEdge?_eq_some.mp he
    exact hnone a e (isAncestor_self t a) l hl hid

theorem Orderly.translates : t.Translates where
  owner _ _ _ _ := h.vertexOwner?_of_global?
  own _ _ _ _ := h.localVertex?_of_global?
  here c v _ hv := h.localVertex?_recursive.mpr ⟨mem_ids_of_global? hv, c, v, .here c v, hv⟩
  above _ _ _ _ := h.exists_localVertex?_above
  beside _ _ _ _ := h.localVertex?_beside
  localEdge _ _ _ _ := h.localEdge?_of_carried
  edgeOwner _ _ _ _ := h.edgeOwner?_of_carried
  noVertex _ _ := h.vertex_unfound
  noEdge _ _ := h.edge_unfound

end Orderly

end Tree

namespace Workspace

variable {operations : List Operation} {m : Member}

/-- **ONE PLACE FOR EACH ID**: whatever well-behaved callers did, with any
    number of trees, the ids in one tree are pairwise distinct, each is in
    exactly one place, and none is reserved. -/
theorem distinctIds_run (h : empty.WellBehaved operations) (hm : m ∈ (empty.run operations).members) :
    m.tree.names.Nodup
      ∧ (∀ id, id ∈ m.tree.names ↔ ∃ p, m.tree.idAt? p = some id)
      ∧ (∀ p q id, m.tree.idAt? p = some id → m.tree.idAt? q = some id → p = q)
      ∧ ∀ id ∈ m.tree.names, 9 < id := by
  have hw := ordered_empty.run h
  have ho := hw.trees m hm _ (List.getElem?_eq_getElem (hw.sound.sources m hm))
  refine ⟨ho.named.nodup, ?_, ?_, ?_⟩
  · intro id
    exact ho.sound.distinct.mem_names_iff_idAt?
  · intro p q id hp hq
    exact ho.eq_of_idAt? hp hq
  · intro id hid
    exact (ho.named.bound id hid).1

/-- A duplicate, and a copy into a tree that shares the source of ids. -/
theorem distinctIds_copies :
    let operations := [Operation.newGraph (.declared []) .fresh,
      .change 0 (.addCluster Tree.rootId), .change 0 (.addVertex Tree.rootId),
      .change 0 (.addVertexNamed ⟨1⟩ ⟨40⟩), .change 0 (.connect Tree.rootId ⟨12⟩ ⟨40⟩),
      .change 0 (.moveIn Tree.rootId ⟨1, 0⟩ ⟨1⟩), .duplicate 0 pure,
      .change 1 (.addVertex Tree.rootId), .newGraph (.sharedWith 0) (.sharedWith 0),
      .copyInto 0 ⟨1⟩ 2 Tree.rootId pure, .change 2 (.addVertex Tree.rootId)]
    empty.WellBehaved operations ∧ ∃ m ∈ (empty.run operations).members[2]?,
      m.tree.names = [40, 12, 42, 41] ∧ m.tree.names.Nodup
        ∧ ∃ p, m.tree.idAt? p = some 42 ∧ ∀ q, m.tree.idAt? q = some 42 → q = p := by
  intro operations
  have h : empty.WellBehaved operations := by decide +kernel
  have hrun : ∃ m ∈ (empty.run operations).members[2]?, m.tree.names = [40, 12, 42, 41] := by
    decide +kernel
  obtain ⟨m, hm, hnames⟩ := hrun
  obtain ⟨hnodup, hplaces, hone, -⟩ := distinctIds_run h (List.mem_of_getElem? hm)
  obtain ⟨p, hp⟩ := (hplaces 42).mp (by rw [hnames]; decide)
  exact ⟨h, m, hm, hnames, hnodup, p, hp, fun q hq => hone q p 42 hq hp⟩

/-- **LOOKUPS AGREE WITH WHAT IS STORED**, in every cluster, whatever
    well-behaved callers did. -/
theorem translates_run (h : empty.WellBehaved operations) (hm : m ∈ (empty.run operations).members) :
    m.tree.Translates := by
  have hw := ordered_empty.run h
  exact (hw.trees m hm _ (List.getElem?_eq_getElem (hw.sound.sources m hm))).translates

/-- A vertex two levels down is found from the root, and not from a cluster
    beside it. -/
theorem translates_nested :
    let operations := [Operation.newGraph (.declared []) .fresh,
      .change 0 (.addCluster Tree.rootId), .change 0 (.addCluster ⟨1⟩),
      .change 0 (.addCluster Tree.rootId), .change 0 (.addVertexNamed ⟨2⟩ ⟨40⟩)]
    empty.WellBehaved operations ∧ ∃ m ∈ (empty.run operations).members[0]?,
      m.tree.vertexOwner? Tree.rootId ⟨40⟩ = some (⟨2⟩, ⟨0, 0⟩)
        ∧ m.tree.localVertex? ⟨3⟩ ⟨40⟩ true = none := by
  intro operations
  have h : empty.WellBehaved operations := by decide +kernel
  have hrun : ∃ m ∈ (empty.run operations).members[0]?, m.tree.global? ⟨2⟩ ⟨0, 0⟩ = some ⟨40⟩
      ∧ m.tree.isAncestor Tree.rootId ⟨2⟩ = true ∧ m.tree.isAncestor ⟨3⟩ ⟨2⟩ = false := by
    decide +kernel
  obtain ⟨m, hm, hname, hin, hout⟩ := hrun
  have ht := translates_run h (List.mem_of_getElem? hm)
  refine ⟨h, m, hm, ?_, ht.beside _ _ _ _ hname hout⟩
  rw [ht.owner _ _ _ _ hname, if_pos hin]

end Workspace

end NestedGraph
