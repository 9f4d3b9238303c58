import NestedGraph.Proofs.Hierarchy
import NestedGraph.Proofs.Placement

/-! # Alike — trees that differ by handles

    Two trees AGREE up to new handles for some vertices when all that can
    be asked about them has the same answers: which clusters there are and
    where they hang, which vertices, where each name is, what is kept for a
    vertex, and what the edge between two vertices carries.  Handles of
    edges, and the order in which an edge carries what it does, may differ. -/

namespace NestedGraph

/-- The second node has other handles for its vertices. -/
structure Node.Alike (f : LocalVertex → LocalVertex) (n n' : Node) : Prop where
  id : n'.id = n.id
  entries : ∀ w d, (w, d) ∈ n'.entries ↔ ∃ u, (u, d) ∈ n.entries ∧ f u = w
  vertex : ∀ w r, n'.storage.vertex? w = some r ↔ ∃ u, n.storage.vertex? u = some r ∧ f u = w
  apart : ∀ u w, n.storage.hasVertex u = true → n.storage.hasVertex w = true → f u = f w → u = w
  load : n'.storage.load = n.storage.load.map (fun entry => (entry.1.map f, entry.2))

namespace Tree

variable {t t' : Tree} {count count' : UInt64} {c d o : ClusterId} {u w : LocalVertex}
  {f : ClusterId → LocalVertex → LocalVertex} {g : GlobalVertex} {n : Node}

/-- The global edges, with their objects, that the edge between two vertices
    of a cluster carries. -/
def aggregated (t : Tree) (c : ClusterId) (a b : LocalVertex) : List CarriedEdge :=
  match t.edgeBetween? c a b with
  | some e =>
      match t.edgeRecord c e with
      | .ok r => r.carried
      | .error _ => []
  | none => []

/-- The second tree has other handles for vertices, and is the same apart
    from that. -/
structure Agrees (t t' : Tree) (f : ClusterId → LocalVertex → LocalVertex) : Prop where
  live : ∀ c, t'.isLive c = t.isLive c
  parent : ∀ c, t'.parent? c = t.parent? c
  owner : ∀ c g, t'.vertexOwner? c g
    = (t.vertexOwner? c g).map (fun place => (place.1, f place.1 place.2))
  vertices : ∀ c w, w ∈ t'.vertices c ↔ ∃ u ∈ t.vertices c, f c u = w
  /-- No two vertices have one handle. -/
  apart : ∀ c, ∀ a ∈ t.vertices c, ∀ b ∈ t.vertices c, f c a = f c b → a = b
  children : ∀ c w d, (w, d) ∈ t'.children c ↔ ∃ u, (u, d) ∈ t.children c ∧ f c u = w
  record : ∀ c, ∀ u ∈ t.vertices c, t'.vertexRecord c (f c u) = t.vertexRecord c u
  edges : ∀ c, ∀ a ∈ t.vertices c, ∀ b ∈ t.vertices c,
    (t'.aggregated c (f c a) (f c b)).Perm (t.aggregated c a b)

/-- The second tree has other handles in its nodes. -/
structure Alike (t t' : Tree) (f : ClusterId → LocalVertex → LocalVertex) : Prop where
  ids : t'.ids = t.ids
  nodes : ∀ n ∈ t.nodes, ∃ n' ∈ t'.nodes, n.Alike (f n.id) n'

/-! ## What a node tells -/

theorem Distinct.mem_vertices (hd : t.Distinct) (hn : n ∈ t.nodes) :
    u ∈ t.vertices n.id ↔ n.storage.hasVertex u = true := by
  rw [hd.vertices_of_mem hn, Storage.hasVertex_iff]
  exact SlotStore.mem_handles

theorem exists_node_of_vertices (h : u ∈ t.vertices c) : ∃ n ∈ t.nodes, n.id = c := by
  rw [vertices] at h
  split at h
  · rename_i s hs
    obtain ⟨n, hn, hid, -⟩ := exists_node_of_storage? hs
    exact ⟨n, hn, hid⟩
  · exact absurd h List.not_mem_nil

theorem Distinct.vertexRecord_of_mem (hd : t.Distinct) (hn : n ∈ t.nodes) {r : VertexRecord}
    (hr : n.storage.vertex? u = some r) : t.vertexRecord n.id u = .ok r := by
  obtain ⟨b, hb, rfl⟩ := hd.find?_of_mem hn
  exact vertexRecord_of_find? hb hr

theorem Distinct.edgeBetween?_of_mem (hd : t.Distinct) (hn : n ∈ t.nodes) (a b : LocalVertex) :
    t.edgeBetween? n.id a b = n.storage.edgeBetween? a b := by
  rw [edgeBetween?, hd.storage?_of_mem hn]
  rfl

/-- Between two vertices is what a cluster carries there. -/
theorem Sound.coe_aggregated (hs : t.Sound) (hn : n ∈ t.nodes) (a b : LocalVertex) :
    (t.aggregated n.id a b : Multiset CarriedEdge)
      = (n.storage.load.filter (fun entry => entry.1 = s(a, b))).map Prod.snd := by
  have hstored := (hs.nodes n hn).storage
  rw [aggregated, hs.distinct.edgeBetween?_of_mem hn]
  cases he : n.storage.edgeBetween? a b with
  | none =>
      refine (Multiset.map_eq_zero.mpr (Multiset.filter_eq_nil.mpr ?_)).symm
      rintro ⟨z, x⟩ hx hz
      obtain ⟨e, l, hl, hends, -⟩ := Storage.mem_load.mp hx
      exact Storage.edgeBetween?_of_none hstored.listed he hl (hends.symm.trans hz)
  | some e =>
      obtain ⟨l, hl, hends⟩ := Storage.edgeBetween?_of_some hstored.listed he
      have hrecord : t.edgeRecord n.id e = .ok l.record := by
        obtain ⟨b, hb, rfl⟩ := hs.distinct.find?_of_mem hn
        exact edgeRecord_of_find? hb hl
      dsimp only
      rw [hrecord, ← hends, hstored.filter_load hl, Link.load, Multiset.map_map]
      exact (Multiset.map_id' _).symm

/-! ## Owners -/

theorem Distinct.isAncestor_iff (hd : t.Distinct) (ho : o ∈ t.ids) :
    t.isAncestor c o = true ↔ t.links.Inside c o := by
  constructor
  · intro h
    obtain ⟨v, hl⟩ := hd.exists_leads h ⟨0, 0⟩
    generalize (⟨0, 0⟩ : LocalVertex) = u at hl
    induction hl with
    | here => exact .refl
    | @inside n v w u d o hn he hl ih =>
        exact (ih ho (hl.isAncestor hd)).head
          (hd.around_iff.mpr ⟨v, (hd.children_of_mem hn).symm ▸ he⟩)
  · intro h
    induction h with
    | refl => exact isAncestor_self t _
    | @tail d o _ hlast ih =>
        obtain ⟨v, hv⟩ := hd.around_iff.mp hlast
        obtain ⟨n, hn, rfl, he⟩ := exists_node_of_children hv
        have hmem := of_decide_eq_true (ih (Multiset.mem_map_of_mem Node.id hn))
        refine decide_eq_true (List.mem_cons_of_mem _ ?_)
        rw [hd.path_child hn he]
        exact hmem

/-- The owner of a name is the one cluster inside that stores it. -/
theorem Orderly.vertexOwner?_eq_some (h : t.Orderly count) :
    t.vertexOwner? c g = some (o, u)
      ↔ c ∈ t.ids ∧ t.isAncestor c o = true ∧ t.global? o u = some g := by
  have hd := h.sound.distinct
  constructor
  · intro howner
    obtain ⟨b, hb, howner⟩ := Option.bind_eq_some_iff.mp howner
    obtain ⟨n, hn, rfl, hu⟩ := Branch.of_vertexOwner? howner
    have hle := nodes_le_of_find? hb
    obtain ⟨w, hl⟩ := exists_leads_of_mem_nodes hle hn u
    obtain rfl := id_of_find? hb
    refine ⟨mem_ids_iff.mpr ⟨b, hb⟩, hl.isAncestor hd, ?_⟩
    rw [hd.global?_of_mem (Multiset.mem_of_le hle hn)]
    exact hu
  · rintro ⟨hc, hin, hu⟩
    obtain ⟨b, hb⟩ := mem_ids_iff.mp hc
    obtain ⟨w, hl⟩ := hd.exists_leads hin u
    have hmem : g ∈ b.globals := (h.sound.mem_globals_iff hb).mpr ⟨w, o, u, hl, hu⟩
    obtain ⟨o', u', howner⟩ := Branch.exists_vertexOwner? hmem
    obtain ⟨n, hn, rfl, hu'⟩ := Branch.of_vertexOwner? howner
    obtain ⟨m, hm, rfl, hname⟩ := exists_node_of_global? hu
    obtain ⟨rfl, rfl⟩ := h.named.eq_of_global? hm (Multiset.mem_of_le (nodes_le_of_find? hb) hn)
      hname hu'
    rw [vertexOwner?, hb]
    exact howner

/-! ## Trees that are alike -/

namespace Alike

variable (h : t.Alike t' f)
include h

/-- What is in a node afterwards was in a node with the same id. -/
theorem exists_alike (hd : t'.Distinct) {n' : Node} (hn' : n' ∈ t'.nodes) :
    ∃ n ∈ t.nodes, n.Alike (f n.id) n' := by
  have hid : n'.id ∈ t.ids := h.ids ▸ Multiset.mem_map_of_mem Node.id hn'
  obtain ⟨n, hn, hid⟩ := Multiset.mem_map.mp hid
  obtain ⟨m, hm, halike⟩ := h.nodes n hn
  obtain rfl := hd.eq_of_id hm hn' (halike.id.trans hid)
  exact ⟨n, hn, halike⟩

theorem children (hd : t.Distinct) (hd' : t'.Distinct) (c : ClusterId) (w : LocalVertex)
    (d : ClusterId) : (w, d) ∈ t'.children c ↔ ∃ u, (u, d) ∈ t.children c ∧ f c u = w := by
  constructor
  · intro hw
    obtain ⟨n', hn', rfl, he⟩ := exists_node_of_children hw
    obtain ⟨n, hn, halike⟩ := h.exists_alike hd' hn'
    rw [halike.id, hd.children_of_mem hn]
    exact (halike.entries w d).mp he
  · rintro ⟨u, hu, rfl⟩
    obtain ⟨n, hn, rfl, he⟩ := exists_node_of_children hu
    obtain ⟨n', hn', halike⟩ := h.nodes n hn
    rw [← halike.id, hd'.children_of_mem hn', halike.id]
    exact (halike.entries _ d).mpr ⟨u, he, rfl⟩

theorem parent (hd : t.Distinct) (hd' : t'.Distinct) (c : ClusterId) : t'.parent? c = t.parent? c := by
  refine Option.ext (fun p => ?_)
  show t'.links.Around p c ↔ t.links.Around p c
  rw [hd.around_iff, hd'.around_iff]
  constructor
  · rintro ⟨w, hw⟩
    obtain ⟨u, hu, -⟩ := (h.children hd hd' p w c).mp hw
    exact ⟨u, hu⟩
  · rintro ⟨u, hu⟩
    exact ⟨_, (h.children hd hd' p _ c).mpr ⟨u, hu, rfl⟩⟩

theorem global? (hd : t.Distinct) (hd' : t'.Distinct) (o : ClusterId) (w : LocalVertex)
    (g : GlobalVertex) : t'.global? o w = some g ↔ ∃ u, t.global? o u = some g ∧ f o u = w := by
  constructor
  · intro hw
    obtain ⟨n', hn', rfl, hname⟩ := exists_node_of_global? hw
    obtain ⟨n, hn, halike⟩ := h.exists_alike hd' hn'
    obtain ⟨r, hr, rfl⟩ := Option.map_eq_some_iff.mp hname
    obtain ⟨u, hu, hf⟩ := (halike.vertex w r).mp hr
    refine ⟨u, ?_, halike.id ▸ hf⟩
    rw [halike.id, hd.global?_of_mem hn, Storage.global?, hu]
    rfl
  · rintro ⟨u, hu, rfl⟩
    obtain ⟨n, hn, rfl, hname⟩ := exists_node_of_global? hu
    obtain ⟨n', hn', halike⟩ := h.nodes n hn
    obtain ⟨r, hr, rfl⟩ := Option.map_eq_some_iff.mp hname
    rw [← halike.id, hd'.global?_of_mem hn', halike.id, Storage.global?,
      (halike.vertex _ r).mpr ⟨u, hr, rfl⟩]
    rfl

theorem owner (ho : t.Orderly count) (ho' : t'.Orderly count') (c : ClusterId) (g : GlobalVertex) :
    t'.vertexOwner? c g = (t.vertexOwner? c g).map (fun place => (place.1, f place.1 place.2)) := by
  have hd := ho.sound.distinct
  have hd' := ho'.sound.distinct
  have haround : t'.links.Around = t.links.Around := by
    funext p d
    show (t'.parent? d = some p) = (t.parent? d = some p)
    rw [h.parent hd hd' d]
  have hin : ∀ {o x}, t.global? o x = some g → (t'.isAncestor c o = true ↔ t.isAncestor c o = true) := by
    intro o x hx
    have hlive : o ∈ t.ids := mem_ids_of_global? hx
    rw [hd.isAncestor_iff hlive, hd'.isAncestor_iff (h.ids ▸ hlive), Links.Inside, haround]
    rfl
  refine Option.ext ?_
  rintro ⟨o, w⟩
  rw [Option.map_eq_some_iff, ho'.vertexOwner?_eq_some, h.ids, h.global? hd hd']
  constructor
  · rintro ⟨hc, ha, u, hu, rfl⟩
    exact ⟨(o, u), ho.vertexOwner?_eq_some.mpr ⟨hc, (hin hu).mp ha, hu⟩, rfl⟩
  · rintro ⟨⟨o', u⟩, howner, heq⟩
    obtain ⟨rfl, rfl⟩ := Prod.mk.inj heq
    obtain ⟨hc, ha, hu⟩ := ho.vertexOwner?_eq_some.mp howner
    exact ⟨hc, (hin hu).mpr ha, u, hu, rfl⟩

theorem edges (hs : t.Sound) (hs' : t'.Sound) {a b : LocalVertex} (ha : a ∈ t.vertices c)
    (hb : b ∈ t.vertices c) : (t'.aggregated c (f c a) (f c b)).Perm (t.aggregated c a b) := by
  obtain ⟨n, hn, rfl⟩ := exists_node_of_vertices ha
  obtain ⟨n', hn', halike⟩ := h.nodes n hn
  rw [hs.distinct.mem_vertices hn] at ha hb
  rw [← Multiset.coe_eq_coe, hs.coe_aggregated hn, ← halike.id, hs'.coe_aggregated hn', halike.id,
    halike.load, Multiset.filter_map, Multiset.map_map]
  refine Multiset.map_congr (Multiset.filter_congr ?_) (fun _ _ => rfl)
  rintro ⟨z, x⟩ hx
  obtain ⟨e, l, hl, rfl, -⟩ := Storage.mem_load.mp hx
  obtain ⟨h1, h2⟩ := (hs.nodes n hn).storage.live e l hl
  show s(f n.id l.first, f n.id l.second) = s(f n.id a, f n.id b) ↔ s(l.first, l.second) = s(a, b)
  rw [Sym2.eq_iff, Sym2.eq_iff]
  constructor
  · rintro (⟨hfirst, hsecond⟩ | ⟨hfirst, hsecond⟩)
    · exact Or.inl ⟨halike.apart _ _ h1 ha hfirst, halike.apart _ _ h2 hb hsecond⟩
    · exact Or.inr ⟨halike.apart _ _ h1 hb hfirst, halike.apart _ _ h2 ha hsecond⟩
  · rintro (⟨rfl, rfl⟩ | ⟨rfl, rfl⟩)
    · exact Or.inl ⟨rfl, rfl⟩
    · exact Or.inr ⟨rfl, rfl⟩

/-- Trees in order that have the same nodes but for handles agree. -/
theorem agrees (ho : t.Orderly count) (ho' : t'.Orderly count') : t.Agrees t' f := by
  have hd := ho.sound.distinct
  have hd' := ho'.sound.distinct
  refine ⟨fun c => ?_, h.parent hd hd', h.owner ho ho', fun c w => ?_, fun c a ha b hb => ?_,
    h.children hd hd', fun c u hu => ?_, fun c a ha b hb => h.edges ho.sound ho'.sound ha hb⟩
  · rw [Bool.eq_iff_iff, isLive_iff, isLive_iff, h.ids]
  · constructor
    · intro hw
      obtain ⟨n', hn', rfl⟩ := exists_node_of_vertices hw
      obtain ⟨n, hn, halike⟩ := h.exists_alike hd' hn'
      obtain ⟨r, hr⟩ := Storage.hasVertex_iff.mp ((hd'.mem_vertices hn').mp hw)
      obtain ⟨u, hu, hf⟩ := (halike.vertex w r).mp hr
      rw [halike.id]
      exact ⟨u, (hd.mem_vertices hn).mpr (Storage.hasVertex_iff.mpr ⟨r, hu⟩), hf⟩
    · rintro ⟨u, hu, rfl⟩
      obtain ⟨n, hn, rfl⟩ := exists_node_of_vertices hu
      obtain ⟨n', hn', halike⟩ := h.nodes n hn
      obtain ⟨r, hr⟩ := Storage.hasVertex_iff.mp ((hd.mem_vertices hn).mp hu)
      rw [← halike.id, hd'.mem_vertices hn', halike.id]
      exact Storage.hasVertex_iff.mpr ⟨r, (halike.vertex _ r).mpr ⟨u, hr, rfl⟩⟩
  · obtain ⟨n, hn, rfl⟩ := exists_node_of_vertices ha
    obtain ⟨n', -, halike⟩ := h.nodes n hn
    exact halike.apart a b ((hd.mem_vertices hn).mp ha) ((hd.mem_vertices hn).mp hb)
  · obtain ⟨n, hn, rfl⟩ := exists_node_of_vertices hu
    obtain ⟨n', hn', halike⟩ := h.nodes n hn
    obtain ⟨r, hr⟩ := Storage.hasVertex_iff.mp ((hd.mem_vertices hn).mp hu)
    rw [hd.vertexRecord_of_mem hn hr, ← halike.id]
    exact hd'.vertexRecord_of_mem hn' ((halike.vertex _ r).mpr ⟨u, hr, by rw [halike.id]⟩)

end Alike

end Tree

end NestedGraph
