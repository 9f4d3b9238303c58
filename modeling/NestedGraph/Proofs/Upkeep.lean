import NestedGraph.Proofs.Placement
import NestedGraph.Proofs.Evolution

/-! # Upkeep — changes that keep a tree in order

    Attributes do not matter to the order of a tree, and neither does an
    edge that goes.  A vertex that comes takes a new name along, and an
    edge that comes is put where its endpoints stand.  A vertex that goes
    takes its own edges along and those around its cluster that end in
    it, which are all there are, because the tree was placed. -/

namespace NestedGraph

namespace EdgeRecord

theorem globals_changeFirst (p : GlobalEdge → Bool) {f : CarriedEdge → CarriedEdge}
    (hf : ∀ x, (f x).global = x.global) (carried : List CarriedEdge) :
    (changeFirst p f carried).map CarriedEdge.global = carried.map CarriedEdge.global := by
  induction carried with
  | nil => rfl
  | cons x rest ih =>
      rw [changeFirst]
      split
      · rw [List.map_cons, List.map_cons, hf]
      · rw [List.map_cons, List.map_cons, ih]

theorem globals_modifyCarried (r : EdgeRecord) (global : Option GlobalEdge)
    {f : CarriedEdge → CarriedEdge} (hf : ∀ x, (f x).global = x.global) :
    (r.modifyCarried global f).globals = r.globals := by
  cases global with
  | none => exact globals_changeFirst _ hf r.carried
  | some global => exact globals_changeFirst _ hf r.carried

end EdgeRecord

namespace Tree

variable {t t' : Tree} {count count' : UInt64} {c : ClusterId} {v : LocalVertex}

/-! ## Attributes -/

/-- Order does not depend on attributes. -/
theorem Orderly.restyled (h : t.Orderly count) (hs : t'.Sound) (hr : t.Restyled t') :
    t'.Orderly count := h.lighter hs hr.lighter

theorem Distinct.restyled_mapCluster (hd : t.Distinct) (c : ClusterId) {f : Cluster → Cluster}
    (hid : ∀ k : Cluster, (f k).id = k.id) (hst : ∀ k : Cluster, (f k).storage = k.storage) :
    t.Restyled (t.mapCluster c f) := by
  refine ⟨Node.changeAt c f, hd.nodes_mapCluster c hid, fun n _ => ?_⟩
  refine Node.changeAt_cases c (.refl n) (fun _ => ⟨hid _, rfl, ?_, ?_⟩)
  · exact congrArg Storage.holds (hst n.cluster)
  · exact congrArg Storage.carries (hst n.cluster)

theorem Distinct.restyled_mapStorage (hd : t.Distinct) (c : ClusterId) {f : Storage → Storage}
    (h : ∀ s : Storage, (f s).holds = s.holds ∧ (f s).carries = s.carries) :
    t.Restyled (t.mapStorage c f) := by
  refine ⟨Node.changeAt c (fun k => { k with storage := f k.storage }),
    hd.nodes_mapCluster c (f := fun k => { k with storage := f k.storage }) (fun _ => rfl),
    fun n _ => ?_⟩
  exact Node.changeAt_cases c (.refl n) (fun _ => ⟨rfl, rfl, (h n.storage).1, (h n.storage).2⟩)

theorem Distinct.restyled_mark (hd : t.Distinct) (c : ClusterId) : t.Restyled (t.mark c) :=
  hd.restyled_mapCluster c (Cluster.id_mark t.config) (Cluster.storage_mark t.config)

theorem Distinct.restyled_markUpTo (hd : t.Distinct) (c last : ClusterId) :
    t.Restyled (t.markUpTo c last) := by
  rw [Tree.markUpTo]
  generalize t.wayUp c last = cs
  induction cs generalizing t with
  | nil => exact .refl t
  | cons d rest ih => exact (hd.restyled_mark d).trans (ih (hd.mark d))

theorem Orderly.mark (h : t.Orderly count) (c : ClusterId) : (t.mark c).Orderly count :=
  h.restyled (h.sound.mark c) (h.sound.distinct.restyled_mark c)

theorem Orderly.markUpTo (h : t.Orderly count) (c last : ClusterId) :
    (t.markUpTo c last).Orderly count :=
  h.restyled (h.sound.markUpTo c last) (h.sound.distinct.restyled_markUpTo c last)

theorem Distinct.restyled_modifyVertex (hd : t.Distinct) (c : ClusterId) (v : LocalVertex)
    {f : VertexRecord → VertexRecord} (hf : ∀ r, (f r).global = r.global) :
    t.Restyled (t.modifyVertex c v f) :=
  hd.restyled_mapStorage c (fun s =>
    ⟨Storage.holds_modifyVertex s v hf, Storage.carries_of_edges rfl⟩)

theorem Distinct.restyled_modifyEdge (hd : t.Distinct) (c : ClusterId) (e : LocalEdge)
    {f : EdgeRecord → EdgeRecord} (hf : ∀ r, (f r).globals = r.globals) :
    t.Restyled (t.modifyEdge c e f) :=
  hd.restyled_mapStorage c (fun s =>
    ⟨Storage.holds_of_vertices rfl, Storage.carries_modifyEdge s e hf⟩)

section Attributes

variable {type : AttributeType} {key : AttributeKey}

theorem Distinct.restyled_setProperty (hd : t.Distinct) {value : Value}
    (hset : t.setProperty type c key value = .ok t') : t.Restyled t' := by
  obtain ⟨place, -, hset⟩ := of_bind_eq_ok hset
  split at hset
  · obtain ⟨r, -, hset⟩ := of_bind_eq_ok hset
    obtain ⟨properties, -, hset⟩ := of_bind_eq_ok hset
    obtain rfl := Except.ok.inj hset
    exact hd.restyled_modifyVertex _ _ (fun _ => rfl)
  · obtain ⟨r, -, hset⟩ := of_bind_eq_ok hset
    obtain ⟨properties, -, hset⟩ := of_bind_eq_ok hset
    obtain rfl := Except.ok.inj hset
    exact hd.restyled_modifyEdge _ _ (fun _ => rfl)

theorem Distinct.restyled_setClusterProperty (hd : t.Distinct) {value : Value}
    (hset : t.setClusterProperty type c value = .ok t') : t.Restyled t' := by
  obtain ⟨b, -, hset⟩ := of_bind_eq_ok hset
  obtain ⟨properties, -, hset⟩ := of_bind_eq_ok hset
  obtain rfl := Except.ok.inj hset
  exact hd.restyled_mapCluster c (f := fun k => { k with properties := properties })
    (fun _ => rfl) (fun _ => rfl)

theorem Distinct.restyled_setSubclusterProperty (hd : t.Distinct) {value : Value}
    (hset : t.setSubclusterProperty type c v value = .ok t') : t.Restyled t' := by
  obtain ⟨child, -, hset⟩ := of_bind_eq_ok hset
  exact hd.restyled_setClusterProperty hset

theorem Distinct.restyled_setChanged (hd : t.Distinct) (hset : t.setChanged c = .ok t') :
    t.Restyled t' := by
  obtain ⟨b, -, hset⟩ := of_bind_eq_ok hset
  obtain rfl := Except.ok.inj hset
  exact hd.restyled_mark c

theorem Distinct.restyled_setCopyMode (hd : t.Distinct) {on : Bool}
    (hset : t.setCopyMode c on = .ok t') : t.Restyled t' := by
  obtain ⟨b, -, hset⟩ := of_bind_eq_ok hset
  obtain rfl := Except.ok.inj hset
  exact hd.restyled_mapCluster c (f := fun k => { k with copyMode := on })
    (fun _ => rfl) (fun _ => rfl)

theorem Distinct.restyled_writeObject (hd : t.Distinct) {object : Option TypedObject}
    (hset : t.writeObject type c key object = .ok t') : t.Restyled t' := by
  obtain ⟨place, -, hset⟩ := of_bind_eq_ok hset
  split at hset
  · obtain ⟨r, -, hset⟩ := of_bind_eq_ok hset
    obtain ⟨objects, -, hset⟩ := of_bind_eq_ok hset
    obtain rfl := Except.ok.inj hset
    exact hd.restyled_modifyVertex _ _ (fun _ => rfl)
  · rename_i owner e global
    obtain ⟨r, -, hset⟩ := of_bind_eq_ok hset
    obtain ⟨x, -, hset⟩ := of_bind_eq_ok hset
    obtain ⟨objects, -, hset⟩ := of_bind_eq_ok hset
    obtain rfl := Except.ok.inj hset
    exact hd.restyled_modifyEdge _ _ (fun r => r.globals_modifyCarried global (fun _ => rfl))

theorem Distinct.restyled_numberVertices (hd : t.Distinct) (c : ClusterId) (k : Nat)
    (vs : List LocalVertex) : t.Restyled (t.numberVertices c k vs) := by
  induction vs generalizing t k with
  | nil => exact .refl t
  | cons v rest ih =>
      have hone : t.Restyled (t.numberVertices c k [v]) :=
        hd.restyled_modifyVertex c v (fun _ => rfl)
      exact hone.trans (ih (hd.mapStorage c _) (k + 1))

theorem Distinct.restyled_numberEdges (hd : t.Distinct) (c : ClusterId) (k : Nat)
    (es : List LocalEdge) : t.Restyled (t.numberEdges c k es) := by
  induction es generalizing t k with
  | nil => exact .refl t
  | cons e rest ih =>
      have hone : t.Restyled (t.numberEdges c k [e]) :=
        hd.restyled_modifyEdge c e (fun _ => rfl)
      exact hone.trans (ih (hd.mapStorage c _) (k + 1))

theorem Distinct.numberVertices (hd : t.Distinct) (c : ClusterId) (k : Nat)
    (vs : List LocalVertex) : (t.numberVertices c k vs).Distinct := by
  induction vs generalizing t k with
  | nil => exact hd
  | cons v rest ih => exact ih (hd.mapStorage c _) (k + 1)

theorem Distinct.restyled_renumber (hd : t.Distinct) (hset : t.renumber c = .ok t') :
    t.Restyled t' := by
  obtain ⟨b, -, hset⟩ := of_bind_eq_ok hset
  obtain rfl := Except.ok.inj hset
  exact (hd.restyled_numberVertices c 0 _).trans
    ((hd.numberVertices c 0 _).restyled_numberEdges c 0 _)

end Attributes

/-! ## Edges that go -/

section Edges

theorem Distinct.lighter_mapStorage (hd : t.Distinct) (c : ClusterId) {f : Storage → Storage}
    (h : ∀ n ∈ t.nodes, n.id = c →
      (f n.storage).holds = n.storage.holds ∧ (f n.storage).carries ≤ n.storage.carries) :
    t.Lighter (t.mapStorage c f) := by
  refine ⟨Node.changeAt c (fun k => { k with storage := f k.storage }),
    hd.nodes_mapCluster c (f := fun k => { k with storage := f k.storage }) (fun _ => rfl),
    fun n hn => ?_⟩
  exact Node.changeAt_cases c (.refl n) (fun hc => ⟨rfl, rfl, (h n hn hc).1, (h n hn hc).2⟩)

theorem Distinct.lighter_removeEdge (hd : t.Distinct) (c : ClusterId) (e : LocalEdge) :
    t.Lighter (t.mapStorage c (fun s => s.removeEdge e)) := by
  refine hd.lighter_mapStorage c (fun n _ _ => ⟨Storage.holds_of_vertices rfl, ?_⟩)
  cases he : n.storage.link? e with
  | none => exact le_of_eq (Storage.carries_of_edges (SlotStore.erase_of_dead he))
  | some l =>
      rw [Storage.carries, Storage.carries, Storage.load_removeEdge he]
      exact Multiset.map_le_map (Multiset.le_add_left ..)

theorem Sound.lighter_withdraw (hs : t.Sound) (p : GlobalEdge → Bool) (c : ClusterId)
    (e : LocalEdge) : t.Lighter (t.mapStorage c (fun s => s.withdraw p e)) := by
  refine hs.distinct.lighter_mapStorage c (fun n hn _ => ?_)
  refine ⟨Storage.holds_of_vertices (Storage.vertices_withdraw ..), ?_⟩
  cases he : n.storage.link? e with
  | none => rw [Storage.withdraw_of_dead p he]
  | some l =>
      exact Storage.carries_of_load_filter (Storage.load_withdraw (hs.nodes n hn).storage p he)

theorem Orderly.removeEdge (h : t.Orderly count) {e : LocalEdge} {result : Tree × List Removal}
    (hrun : t.removeEdge c e = .ok result) : result.1.Orderly count := by
  obtain ⟨b, hb, hrun⟩ := of_bind_eq_ok hrun
  obtain rfl := Except.ok.inj hrun
  have hstep : (t.mapStorage c (fun s => s.removeEdge e)).Sound :=
    (h.sound.becomes_mapStorage c (fun n hn _ => ⟨(h.sound.nodes n hn).storage.removeEdge e,
      (h.sound.nodes n hn).fits.removeEdge e, fun v hv => hv⟩)).sound
  exact (h.lighter hstep (h.sound.distinct.lighter_removeEdge c e)).mark c

theorem Orderly.removeGlobalEdge (h : t.Orderly count) {global : GlobalEdge}
    (hrun : t.removeGlobalEdge c global = .ok t') : t'.Orderly count := by
  rw [Tree.removeGlobalEdge] at hrun
  split at hrun
  · cases hrun
  · rename_i owner e _
    obtain rfl := Except.ok.inj hrun
    let p : GlobalEdge → Bool := fun other => other.same global
    have hstep : (t.mapStorage owner (fun s => s.withdraw p e)).Sound := by
      refine (h.sound.becomes_mapStorage owner (fun n hn _ => ?_)).sound
      refine ⟨(h.sound.nodes n hn).storage.withdraw p e, (h.sound.nodes n hn).fits.withdraw p e,
        fun v hv => ?_⟩
      rwa [Storage.hasVertex, Storage.vertices_withdraw]
    exact (h.lighter hstep (h.sound.lighter_withdraw p owner e)).markUpTo owner c

end Edges

/-! ## Edges above a cluster -/

theorem Sound.lighter_withdrawSteps (hs : t.Sound) (p : GlobalEdge → Bool)
    (steps : List (ClusterId × LocalVertex)) {n : Node} (hn : n ∈ t.nodes) :
    n.Lighter (n.withdrawSteps t.config p steps) := by
  have hleft := (hs.nodes n hn).withdrawSteps p steps
  exact ⟨hleft.id, hleft.entries, Storage.holds_of_vertices hleft.vertices,
    Storage.carries_of_load_filter hleft.load⟩

theorem Sound.lighter_withdrawAbove (hs : t.Sound) (p : GlobalEdge → Bool) (c : ClusterId) :
    t.Lighter (t.withdrawAbove p c) :=
  ⟨_, nodes_withdrawAbove hs.distinct p c, fun _ hn => hs.lighter_withdrawSteps p (t.path c) hn⟩

/-- What matches is no longer carried on the way up. -/
theorem Sound.of_mem_withdrawAbove (hs : t.Sound) {p : GlobalEdge → Bool} {c : ClusterId} {n' : Node}
    (hn' : n' ∈ (t.withdrawAbove p c).nodes) :
    ∃ n ∈ t.nodes, n.Lighter n' ∧ ∀ z g, (z, g) ∈ n'.storage.carries →
      ∀ a ∈ z, (n.id, a) ∈ t.path c → ¬ p g = true := by
  rw [nodes_withdrawAbove hs.distinct] at hn'
  obtain ⟨n, hn, rfl⟩ := Multiset.mem_map.mp hn'
  refine ⟨n, hn, hs.lighter_withdrawSteps p (t.path c) hn, fun z g hz a ha hstep hp => ?_⟩
  obtain ⟨x, hx, rfl⟩ := Storage.mem_carries.mp hz
  rw [((hs.nodes n hn).withdrawSteps p (t.path c)).load, Multiset.mem_filter] at hx
  exact hx.2 _ hstep rfl ⟨ha, hp⟩

end Tree

/-! ## Vertices that go -/

namespace Node

variable {config : Config} {n : Node}

theorem names_cut_le (hn : n.Sound config) (v : LocalVertex) :
    (n.cut v).storage.names ≤ n.storage.names := by
  have hholds : (n.cut v).storage.holds ≤ n.storage.holds := by
    rw [storage_cut]
    cases hv : n.storage.vertex? v with
    | none => exact le_of_eq (Storage.holds_removeVertex_of_dead hv)
    | some r =>
        rw [Storage.holds_removeVertex hv]
        exact Multiset.le_cons_self ..
  have hcarries : (n.cut v).storage.carries ≤ n.storage.carries :=
    Storage.carries_of_load_filter (Storage.load_removeVertex hn.storage.listed v)
  exact add_le_add (Multiset.map_le_map hholds) (Multiset.map_le_map hcarries)

theorem of_mem_carries_cut (hn : n.Sound config) {v : LocalVertex} {z : Sym2 LocalVertex}
    {g : GlobalEdge} (hz : (z, g) ∈ (n.cut v).storage.carries) :
    (z, g) ∈ n.storage.carries ∧ v ∉ z := by
  obtain ⟨x, hx, rfl⟩ := Storage.mem_carries.mp hz
  rw [storage_cut, Storage.load_removeVertex hn.storage.listed, Multiset.mem_filter] at hx
  exact ⟨Storage.mem_carries.mpr ⟨x, hx.1, rfl⟩, hx.2⟩

theorem Ordinary.cut {u v : LocalVertex} {g : GlobalVertex} (h : n.Ordinary u g) (hu : u ≠ v) :
    (n.cut v).Ordinary u g := by
  obtain ⟨hg, hkeys⟩ := h
  refine ⟨?_, fun hmem => hkeys ?_⟩
  · rw [storage_cut, Storage.global?, Storage.vertex?_removeVertex, if_neg hu]
    exact hg
  · obtain ⟨⟨w, d⟩, he, rfl⟩ := List.mem_map.mp hmem
    exact List.mem_map.mpr ⟨(w, d), (mem_entries_cut.mp he).1, rfl⟩

end Node

namespace Tree

variable {t : Tree} {count : UInt64} {c : ClusterId} {v : LocalVertex} {b : Branch}

theorem Sound.nodes_cutAt (hs : t.Sound) (hb : t.find? b.cluster.id = some b) (v : LocalVertex) :
    ∃ rest, t.nodes = b.node ::ₘ (nestedNodes (b.inside.branchAt? v) + rest)
      ∧ (t.cutAt b.cluster.id v).nodes = b.node.cut v ::ₘ rest := by
  obtain ⟨rest, hrest⟩ := nodes_cons_of_mem (node_mem_of_find? hb)
  obtain ⟨rest', rfl, hcut⟩ := hs.distinct.nodes_cutAt hrest
    (hs.nodes _ (node_mem_of_find? hb)).keys v hb
  exact ⟨rest', hrest, hcut⟩

/-- A cluster that is left after a cut is the one that was cut, or another one as
    it was. -/
theorem Sound.cut_or_other (hs : t.Sound) {n' : Node} (hn' : n' ∈ (t.cutAt c v).nodes) :
    (∃ b, t.find? c = some b ∧ n' = b.node.cut v) ∨ (n' ∈ t.nodes ∧ n'.id ≠ c) := by
  by_cases hc : c ∈ t.ids
  · obtain ⟨b, hb⟩ := mem_ids_iff.mp hc
    obtain rfl := id_of_find? hb
    obtain ⟨rest, hnodes, hcut⟩ := hs.nodes_cutAt hb v
    rw [hcut, Multiset.mem_cons] at hn'
    rcases hn' with rfl | hn'
    · exact Or.inl ⟨b, hb, rfl⟩
    · have hmem : n' ∈ t.nodes := by
        rw [hnodes]
        exact Multiset.mem_cons_of_mem (Multiset.mem_add.mpr (Or.inr hn'))
      exact Or.inr ⟨hmem, (hs.cutAt b.cluster.id v).distinct.id_ne_of_cons hcut hn'⟩
  · have hsame : t.cutAt c v = t := update_of_dead _ hc
    rw [hsame] at hn'
    exact Or.inr ⟨hn', fun heq => hc (heq ▸ Multiset.mem_map_of_mem Node.id hn')⟩

/-- An inner place that a vertex leads to is in the branch on it. -/
theorem Sound.mem_nested (hs : t.Sound) (hb : t.find? c = some b) {o : ClusterId} {u : LocalVertex}
    (h : t.Leads c v o u) (hne : o ≠ c) {n : Node} (hn : n ∈ t.nodes) (hid : n.id = o) :
    n ∈ nestedNodes (b.inside.branchAt? v) := by
  cases h with
  | here => exact absurd rfl hne
  | inside hm he hl =>
      obtain rfl := hs.distinct.node_of_find? hm hb
      obtain ⟨d, hd, rfl⟩ := Forest.branchAt?_of_mem_entries (hs.nodes _ hm).keys he
      rw [hd]
      exact hl.mem_nodes hs (hs.distinct.find?_of_branchAt? hb hd) hn hid

/-- An edge of a name that travels with a vertex is at that vertex, at one on
    the way up from it, or in the branch on it. -/
theorem Orderly.carried_at (h : t.Orderly count) (hb : t.find? c = some b) {n : Node}
    (hn : n ∈ t.nodes) {a : LocalVertex} {g : GlobalVertex} (ha : t.Stands n.id a g)
    (hg : g ∈ b.travelling v) :
    (n.id, a) = (c, v) ∨ (n.id, a) ∈ t.path c ∨ n ∈ nestedNodes (b.inside.branchAt? v) := by
  obtain ⟨m, hm, u, hl, ho⟩ := ha
  obtain ⟨o, w, hl', hw⟩ := (h.sound.mem_travelling hb).mp hg
  obtain ⟨k, hk, rfl, hname⟩ := exists_node_of_global? hw
  obtain ⟨rfl, rfl⟩ := h.named.eq_of_global? hm hk ho.1 hname
  rcases hl.comparable h.sound.distinct hl' with heq | hmem | hmem
  · exact Or.inl heq
  · exact Or.inr (Or.inl hmem)
  · refine Or.inr (Or.inr (h.sound.mem_nested hb (leads_of_mem_path h.sound.distinct hmem a) ?_ hn
      rfl))
    intro hid
    rw [hid] at hmem
    exact absurd (h.sound.distinct.length_path_lt hmem) (Nat.lt_irrefl _)

/-- What is left when a vertex is taken out was there before, and neither
    at that vertex nor in the branch on it. -/
theorem Sound.of_mem_nodes_cutAt (hs : t.Sound) (hb : t.find? b.cluster.id = some b) {n' : Node}
    (hn' : n' ∈ (t.cutAt b.cluster.id v).nodes) :
    ∃ n ∈ t.nodes, n.id = n'.id ∧ n ∉ nestedNodes (b.inside.branchAt? v)
      ∧ (∀ entry ∈ n'.entries, entry ∈ n.entries)
      ∧ ∀ z g, (z, g) ∈ n'.storage.carries → (z, g) ∈ n.storage.carries
        ∧ ∀ a ∈ z, (n.id, a) ≠ (b.cluster.id, v) := by
  obtain ⟨rest, hnodes, hcut⟩ := hs.nodes_cutAt hb v
  have hnode := node_mem_of_find? hb
  have hnodup : t.nodes.Nodup := Multiset.Nodup.of_map Node.id hs.distinct
  rw [hnodes, Multiset.nodup_cons, Multiset.mem_add, not_or, Multiset.nodup_add] at hnodup
  obtain ⟨⟨hself, hrest⟩, -, -, hdisj⟩ := hnodup
  rw [hcut, Multiset.mem_cons] at hn'
  rcases hn' with rfl | hn'
  · refine ⟨b.node, hnode, rfl, hself, fun entry he => (Node.mem_entries_cut.mp he).1,
      fun z g hz => ?_⟩
    obtain ⟨hz, hv⟩ := Node.of_mem_carries_cut (hs.nodes _ hnode) hz
    exact ⟨hz, fun a ha heq => hv ((Prod.mk.inj heq).2 ▸ ha)⟩
  · have hn : n' ∈ t.nodes := by
      rw [hnodes]
      exact Multiset.mem_cons_of_mem (Multiset.mem_add.mpr (Or.inr hn'))
    refine ⟨n', hn, rfl, fun hin => Multiset.disjoint_left.mp hdisj hin hn', fun _ he => he,
      fun z g hz => ⟨hz, fun a _ heq => ?_⟩⟩
    obtain rfl := hs.distinct.eq_of_id hn hnode (Prod.mk.inj heq).1
    exact hrest hn'

/-- What does not travel with a vertex stays when it is taken out. -/
theorem Sound.exists_ordinary_cutAt (hs : t.Sound) (hb : t.find? b.cluster.id = some b) {n : Node}
    (hn : n ∈ t.nodes) {u : LocalVertex} {g : GlobalVertex} (ho : n.Ordinary u g)
    (hg : g ∉ b.travelling v) :
    ∃ n' ∈ (t.cutAt b.cluster.id v).nodes, n'.id = n.id ∧ n'.Ordinary u g := by
  obtain ⟨rest, hnodes, hcut⟩ := hs.nodes_cutAt hb v
  rw [Branch.travelling, List.mem_append, not_or] at hg
  rw [hnodes, Multiset.mem_cons, Multiset.mem_add] at hn
  rw [hcut]
  rcases hn with rfl | hn | hn
  · refine ⟨_, Multiset.mem_cons_self .., rfl, ho.cut ?_⟩
    rintro rfl
    exact hg.1 (Option.mem_toList.mpr ho.1)
  · refine absurd ?_ hg.2
    cases hv : b.inside.branchAt? v with
    | none =>
        rw [hv] at hn
        exact absurd hn (Multiset.notMem_zero n)
    | some d =>
        rw [hv] at hn
        exact Branch.mem_globals.mpr ⟨n, hn, u, ho.1⟩
  · exact ⟨n, Multiset.mem_cons_of_mem hn, rfl, ho⟩

/-- The way up from where a vertex is taken out stays. -/
theorem Sound.path_cutAt (hs : t.Sound) (hb : t.find? b.cluster.id = some b) (v : LocalVertex) :
    (t.cutAt b.cluster.id v).path b.cluster.id = t.path b.cluster.id := by
  refine hs.distinct.path_of_entries (hs.cutAt ..).distinct (root_cutAt ..) (fun n' hn' => ?_) ?_
  · obtain ⟨n, hn, hid, -, hentries, -⟩ := hs.of_mem_nodes_cutAt hb hn'
    exact ⟨n, hn, hid, hentries⟩
  · obtain ⟨rest, -, hcut⟩ := hs.nodes_cutAt hb v
    rw [ids, hcut, Multiset.map_cons]
    exact Multiset.mem_cons_self ..

/-- What travels with a vertex that is taken out is not carried any more,
    unless it is on the way up. -/
theorem Orderly.not_touches_of_cutAt (h : t.Orderly count) (hb : t.find? b.cluster.id = some b)
    {n : Node} (hn : n ∈ t.nodes) (hout : n ∉ nestedNodes (b.inside.branchAt? v))
    {z : Sym2 LocalVertex} {g : GlobalEdge} (hz : (z, g) ∈ n.storage.carries)
    (hat : ∀ a ∈ z, (n.id, a) ≠ (b.cluster.id, v))
    (habove : ∀ a ∈ z, (n.id, a) ∈ t.path b.cluster.id → ¬ g.touches (b.travelling v) = true) :
    ¬ g.touches (b.travelling v) = true := by
  obtain ⟨x, y, rfl, hx, hy⟩ := h.placed n hn z g hz
  have hnone : ∀ a ∈ s(x, y), ∀ name, t.Stands n.id a name → name ∈ b.travelling v →
      ¬ g.touches (b.travelling v) = true := by
    intro a ha name hstands hmem
    rcases h.carried_at hb hn hstands hmem with heq | hpath | hin
    · exact absurd heq (hat a ha)
    · exact habove a ha hpath
    · exact absurd hin hout
  intro htouch
  rcases GlobalEdge.touches_eq_true.mp htouch with hmem | hmem
  · exact hnone x (Sym2.mem_mk_left x y) _ hx hmem htouch
  · exact hnone y (Sym2.mem_mk_right x y) _ hy hmem htouch

/-- A vertex that is cut off, and edges above that go, bring no name. -/
theorem Sound.names_cutAt_le (hs : t.Sound) (hb : t.find? b.cluster.id = some b) (v : LocalVertex)
    (p : GlobalEdge → Bool) :
    ((t.cutAt b.cluster.id v).withdrawAbove p b.cluster.id).nodes.bind (fun n => n.storage.names)
      ≤ t.nodes.bind (fun n => n.storage.names) := by
  obtain ⟨rest, hnodes, hcutNodes⟩ := hs.nodes_cutAt hb v
  refine ((hs.cutAt b.cluster.id v).lighter_withdrawAbove p b.cluster.id).names_le.trans ?_
  rw [hcutNodes, hnodes, Multiset.cons_bind, Multiset.cons_bind, Multiset.add_bind]
  exact add_le_add (Node.names_cut_le (hs.nodes _ (node_mem_of_find? hb)) v)
    (Multiset.le_add_left ..)

theorem Sound.names_discard_le (hs : t.Sound) (c : ClusterId) (v : LocalVertex) :
    (t.discard c v).1.nodes.bind (fun n => n.storage.names)
      ≤ t.nodes.bind (fun n => n.storage.names) := by
  rw [Tree.discard]
  split
  · exact le_refl _
  · rename_i b hb
    obtain rfl := id_of_find? hb
    have habove := (hs.cutAt b.cluster.id v).withdrawAbove (GlobalEdge.touches (b.travelling v))
      b.cluster.id
    exact (habove.distinct.restyled_mark b.cluster.id).lighter.names_le.trans
      (hs.names_cutAt_le hb v _)

/-- Order is kept when a vertex goes with all that hangs on it. -/
theorem Orderly.discard (h : t.Orderly count) (c : ClusterId) (v : LocalVertex) :
    (t.discard c v).1.Orderly count := by
  rw [Tree.discard]
  split
  · exact h
  rename_i b hb
  obtain rfl := id_of_find? hb
  let p := GlobalEdge.touches (b.travelling v)
  have hcut := h.sound.cutAt b.cluster.id v
  obtain ⟨f, hf, hlight⟩ := hcut.lighter_withdrawAbove p b.cluster.id
  refine Orderly.mark (h.shrink (hcut.withdrawAbove p b.cluster.id) (b.travelling v) ?_ ?_ ?_) _
  · intro n2 hn2
    obtain ⟨n1, hn1, hlight, hgone⟩ := hcut.of_mem_withdrawAbove hn2
    obtain ⟨n, hn, hid, hout, hentries, hcarries⟩ := h.sound.of_mem_nodes_cutAt hb hn1
    refine ⟨n, hn, hid.trans hlight.id.symm, fun entry he => hentries entry (hlight.entries ▸ he),
      fun z g hz => ?_⟩
    obtain ⟨hz0, hat⟩ := hcarries z g (Multiset.mem_of_le hlight.carries hz)
    refine ⟨hz0, h.not_touches_of_cutAt hb hn hout hz0 hat (fun a ha hmem => ?_)⟩
    rw [hid, ← h.sound.path_cutAt hb v] at hmem
    exact hgone z g hz a ha hmem
  · intro n hn u g ho hg
    obtain ⟨n1, hn1, hid, ho1⟩ := h.sound.exists_ordinary_cutAt hb hn ho hg
    exact ⟨f n1, hf ▸ Multiset.mem_map_of_mem f hn1, (hlight n1 hn1).id.trans hid,
      (hlight n1 hn1).ordinary ho1⟩
  · exact h.sound.names_cutAt_le hb v p

theorem Orderly.discardAll (h : t.Orderly count) (c : ClusterId) (vs : List LocalVertex) :
    (t.discardAll c vs).1.Orderly count := by
  induction vs generalizing t with
  | nil => exact h
  | cons v rest ih => exact ih (h.discard c v)

section Removals

variable {child : ClusterId} {result : Tree × List Removal}

theorem Orderly.removeCluster (h : t.Orderly count)
    (hrun : t.removeCluster c child = .ok result) : result.1.Orderly count := by
  obtain ⟨w, -, hrun⟩ := of_bind_eq_ok hrun
  obtain rfl := Except.ok.inj hrun
  exact h.discard c w

theorem Orderly.removeClusterOn (h : t.Orderly count)
    (hrun : t.removeClusterOn c v = .ok result) : result.1.Orderly count := by
  obtain ⟨child, -, hrun⟩ := of_bind_eq_ok hrun
  exact h.removeCluster hrun

theorem Orderly.removeClusters (h : t.Orderly count)
    (hrun : t.removeClusters c = .ok result) : result.1.Orderly count := by
  obtain ⟨b, -, hrun⟩ := of_bind_eq_ok hrun
  obtain rfl := Except.ok.inj hrun
  exact h.discardAll c _

theorem Orderly.removeVertex (h : t.Orderly count)
    (hrun : t.removeVertex c v = .ok result) : result.1.Orderly count := by
  obtain ⟨b, -, hrun⟩ := of_bind_eq_ok hrun
  obtain rfl := Except.ok.inj hrun
  exact h.discard c v

theorem Orderly.removeGlobalVertex (h : t.Orderly count) {global : GlobalVertex}
    (hrun : t.removeGlobalVertex c global = .ok result) : result.1.Orderly count := by
  rw [Tree.removeGlobalVertex] at hrun
  split at hrun
  · cases hrun
  · rename_i owner w _
    obtain rfl := Except.ok.inj hrun
    exact (h.discard owner w).markUpTo owner c

end Removals

end Tree

/-! ## Commands that only write -/

/-- The command writes attributes or flags, and nothing else. -/
def Command.restyles : Command → Bool
  | .setChanged _ => true
  | .clearChanged _ => true
  | .setCopyMode .. => true
  | .setProperty .. => true
  | .setClusterProperty .. => true
  | .setSubclusterProperty .. => true
  | .setObject .. => true
  | .clearObject .. => true
  | .renumber _ => true
  | _ => false

/-- Such a command leaves the source alone, and answers with nothing that came
    or went. -/
theorem Graph.of_restyles {g h : Graph} {command : Command} {reply : Reply}
    (hd : g.tree.Distinct) (hc : command.restyles = true)
    (hp : g.perform command = .ok (h, reply)) :
    ∃ t, g.tree.Restyled t ∧ h = { g with tree := t }
      ∧ (reply = .done ∨ ∃ serial, reply = .serial serial) := by
  cases command with
  | setChanged c =>
      obtain ⟨t, ht, rfl, rfl⟩ := of_quietly hp
      exact ⟨t, hd.restyled_setChanged ht, rfl, Or.inl rfl⟩
  | clearChanged c =>
      obtain ⟨t, ht, rfl, rfl⟩ := of_quietly hp
      exact ⟨t, hd.restyled_setClusterProperty ht, rfl, Or.inl rfl⟩
  | setCopyMode c on =>
      obtain ⟨t, ht, rfl, rfl⟩ := of_quietly hp
      exact ⟨t, hd.restyled_setCopyMode ht, rfl, Or.inl rfl⟩
  | setProperty type c key value =>
      obtain ⟨t, ht, rfl, rfl⟩ := of_quietly hp
      exact ⟨t, hd.restyled_setProperty ht, rfl, Or.inl rfl⟩
  | setClusterProperty type c value =>
      obtain ⟨t, ht, rfl, rfl⟩ := of_quietly hp
      exact ⟨t, hd.restyled_setClusterProperty ht, rfl, Or.inl rfl⟩
  | setSubclusterProperty type c v value =>
      obtain ⟨t, ht, rfl, rfl⟩ := of_quietly hp
      exact ⟨t, hd.restyled_setSubclusterProperty ht, rfl, Or.inl rfl⟩
  | setObject c key object =>
      obtain ⟨t, ht, heq⟩ := of_map_eq_ok hp
      obtain ⟨rfl, rfl⟩ := Prod.mk.inj heq
      exact ⟨t, hd.restyled_writeObject ht, rfl, Or.inr ⟨_, rfl⟩⟩
  | clearObject type c key =>
      obtain ⟨t, ht, rfl, rfl⟩ := of_quietly hp
      exact ⟨t, hd.restyled_writeObject ht, rfl, Or.inl rfl⟩
  | renumber c =>
      obtain ⟨t, ht, rfl, rfl⟩ := of_quietly hp
      exact ⟨t, hd.restyled_renumber ht, rfl, Or.inl rfl⟩
  | _ => exact absurd hc Bool.false_ne_true

end NestedGraph
