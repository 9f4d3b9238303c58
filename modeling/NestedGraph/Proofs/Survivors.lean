import NestedGraph.Proofs.Handles
import NestedGraph.Proofs.Mirror

/-! # Survivors — attributes through changes of structure

    What is in a tree after a structural command STEMS from what was there
    before, or is new.  Vertices stem from vertices with all their
    attributes, and what an edge carries from what an edge carried; the
    edge itself is the same one unless a move put it there.  As every name
    is in one place, what has a name before and afterwards stems from
    itself, so its attributes are untouched. -/

namespace NestedGraph

/-! ## Clusters -/

namespace Node

variable {config : Config} {known : List UInt64} {admitted : Prop} {gone : LocalVertex → Prop}
  {n n' : Node}

/-- What is in a cluster was in it before, or it is new and has an id that is
    not known.  A new vertex has a handle that was dead; of its id nothing is
    said if the caller chose a name that is not admitted. -/
structure Stems (config : Config) (known : List UInt64) (admitted : Prop) (n n' : Node) :
    Prop where
  id : n'.id = n.id
  style : n.cluster.SameStyle config n'.cluster
  vertices : ∀ v r, n'.storage.vertex? v = some r →
    n.storage.vertex? v = some r
      ∨ n.storage.vertex? v = none ∧ (admitted → r.global.id ∉ known)
  edges : ∀ e l x, n'.storage.link? e = some l → x ∈ l.record.carried →
    (∃ m, n.storage.link? e = some m ∧ x ∈ m.record.carried
      ∧ l.record.properties = m.record.properties) ∨ x.global.id ∉ known

theorem Stems.refl (n : Node) : n.Stems config known admitted n :=
  ⟨rfl, .refl _, fun _ _ hr => Or.inl hr, fun _ l _ hl hx => Or.inl ⟨l, hl, hx, rfl⟩⟩

theorem Stems.mark (h : n.Stems config known admitted n') :
    n.Stems config known admitted (n'.mark config) := by
  refine ⟨(id_mark ..).trans h.id, h.style.trans (Cluster.sameStyle_mark ..), ?_, ?_⟩
  · rw [storage_mark]
    exact h.vertices
  · rw [storage_mark]
    exact h.edges

theorem Thinned.stems (h : n.Thinned config gone n') : n.Stems config known admitted n' := by
  refine ⟨h.id, h.style, fun v r hr => ?_, fun e l x hl hx => ?_⟩
  · by_cases hv : gone v
    · exact nomatch (h.lost v hv).symm.trans hr
    · exact Or.inl ((h.kept v hv).symm.trans hr)
  · obtain ⟨m, hm, -, -, hprops, hcarried⟩ := h.edges.back e l hl
    exact Or.inl ⟨m, hm, hcarried x hx, hprops⟩

theorem stems_receive (hn : n.storage.vertices.Tidy) {r : VertexRecord}
    (hr : admitted → r.global.id ∉ known) (nested : Option Branch) :
    n.Stems config known admitted (n.receive r nested) := by
  refine ⟨rfl, Cluster.sameStyle_of_eq rfl rfl, fun v r' hr' => ?_,
    fun _ l _ hl hx => Or.inl ⟨l, hl, hx, rfl⟩⟩
  rw [storage_receive, Storage.vertex?_addVertex hn] at hr'
  split at hr'
  · rename_i heq
    obtain rfl := Option.some.inj hr'
    rw [heq]
    exact Or.inr ⟨SlotStore.get?_nextHandle hn, hr⟩
  · exact Or.inl hr'

/-- An edge that something is put onto keeps its properties. -/
theorem stems_attach (hn : n.storage.Listed) (a b : LocalVertex) (properties : List Value)
    {y : CarriedEdge} (hy : y.global.id ∉ known) :
    n.Stems config known admitted (n.mapStorage (fun s => s.attach a b properties [y])) := by
  refine ⟨rfl, Cluster.sameStyle_of_eq rfl rfl, fun v r hr => ?_, fun e l x hl hx => ?_⟩
  · rw [storage_mapStorage, Storage.vertex?, Storage.vertices_attach] at hr
    exact Or.inl hr
  · have hnew : x ∈ [y] → x.global.id ∉ known := by
      intro hmem
      rwa [List.mem_singleton.mp hmem]
    rw [storage_mapStorage, Storage.attach] at hl
    split at hl
    · rename_i k _
      rw [Storage.link?_modifyEdge] at hl
      split at hl
      · rename_i heq
        obtain ⟨m, hm, rfl⟩ := Option.map_eq_some_iff.mp hl
        rcases List.mem_append.mp hx with hx | hx
        · exact Or.inl ⟨m, heq ▸ hm, hx, rfl⟩
        · exact Or.inr (hnew hx)
      · exact Or.inl ⟨l, hl, hx, rfl⟩
    · rw [Storage.link?_addEdge hn] at hl
      split at hl
      · obtain rfl := Option.some.inj hl
        exact Or.inr (hnew hx)
      · exact Or.inl ⟨l, hl, hx, rfl⟩

end Node

/-! ## Trees -/

namespace Tree

variable {t t' : Tree} {count : UInt64} {moved : Bool} {admitted : Prop} {c : ClusterId}
  {v : LocalVertex} {gone : ClusterId → LocalVertex → Prop}

/-- Where what is in a tree comes from.  When a vertex was moved, what an edge
    carries may stem from an edge with other properties. -/
structure Stems (t t' : Tree) (moved : Bool) (admitted : Prop) : Prop where
  clusters : ∀ n' ∈ t'.nodes, n'.id ∈ t.ids →
    ∃ n ∈ t.nodes, n'.id = n.id ∧ n.cluster.SameStyle t.config n'.cluster
  vertices : ∀ n' ∈ t'.nodes, ∀ v r, n'.storage.vertex? v = some r →
    (∃ n ∈ t.nodes, ∃ u, n.storage.vertex? u = some r)
      ∨ v ∉ t.vertices n'.id ∧ (admitted → r.global.id ∉ t.names)
  edges : ∀ n' ∈ t'.nodes, ∀ e l x, n'.storage.link? e = some l → x ∈ l.record.carried →
    (∃ n ∈ t.nodes, ∃ k m, n.storage.link? k = some m ∧ x ∈ m.record.carried
      ∧ (moved = false → l.record.properties = m.record.properties)) ∨ x.global.id ∉ t.names

/-- Where no vertex moves, it is enough to look at one cluster after the
    other; a new one is empty. -/
theorem stems_of_nodes (hd : t.Distinct) (h : ∀ n' ∈ t'.nodes,
    (∃ n ∈ t.nodes, n.Stems t.config t.names admitted n') ∨ n'.id ∉ t.ids ∧ n'.storage = .empty) :
    t.Stems t' false admitted := by
  refine ⟨fun n' hn' hlive => ?_, fun n' hn' v r hr => ?_, fun n' hn' e l x hl hx => ?_⟩
  · rcases h n' hn' with ⟨n, hn, hstem⟩ | ⟨hfresh, -⟩
    · exact ⟨n, hn, hstem.id, hstem.style⟩
    · exact absurd hlive hfresh
  · rcases h n' hn' with ⟨n, hn, hstem⟩ | ⟨-, hempty⟩
    · rcases hstem.vertices v r hr with hold | ⟨hnone, hnew⟩
      · exact Or.inl ⟨n, hn, v, hold⟩
      · refine Or.inr ⟨fun hlive => ?_, hnew⟩
        rw [hstem.id, hd.mem_vertices hn, Storage.hasVertex_iff] at hlive
        obtain ⟨r', hr'⟩ := hlive
        exact nomatch hnone.symm.trans hr'
    · rw [hempty] at hr
      exact nomatch (SlotStore.get?_empty v).symm.trans hr
  · rcases h n' hn' with ⟨n, hn, hstem⟩ | ⟨-, hempty⟩
    · rcases hstem.edges e l x hl hx with ⟨m, hm, hxm, hprops⟩ | hnew
      · exact Or.inl ⟨n, hn, e, m, hm, hxm, fun _ => hprops⟩
      · exact Or.inr hnew
    · rw [hempty] at hl
      exact nomatch (SlotStore.get?_empty e).symm.trans hl

theorem Stems.refl (hd : t.Distinct) : t.Stems t false admitted :=
  stems_of_nodes hd (fun n hn => Or.inl ⟨n, hn, .refl n⟩)

theorem Thinned.stems (h : t.Thinned t' gone) (hd : t.Distinct) : t.Stems t' false admitted := by
  refine stems_of_nodes hd (fun n' hn' => ?_)
  obtain ⟨n, hn, hthin⟩ := h n' hn'
  exact Or.inl ⟨n, hn, hthin.stems⟩

/-- One cluster changes and is marked, and empty ones may come. -/
theorem stems_of_mark (hd : t.Distinct) (hd' : t'.Distinct) (hconfig : t'.config = t.config)
    {n m : Node} {fresh rest : Multiset Node} (hnodes : t.nodes = n ::ₘ rest)
    (hnodes' : t'.nodes = m ::ₘ (fresh + rest)) (hstem : n.Stems t.config t.names admitted m)
    (hfresh : ∀ k ∈ fresh, k.id ∉ t.ids ∧ k.storage = .empty) :
    t.Stems (t'.mark n.id) false admitted := by
  refine stems_of_nodes hd (fun n' hn' => ?_)
  rw [← hstem.id, hd'.nodes_mark hnodes', hconfig, Multiset.mem_cons, Multiset.mem_add] at hn'
  rcases hn' with rfl | hn' | hn'
  · exact Or.inl ⟨n, hnodes ▸ Multiset.mem_cons_self .., hstem.mark⟩
  · exact Or.inr (hfresh n' hn')
  · exact Or.inl ⟨n', hnodes ▸ Multiset.mem_cons_of_mem hn', .refl n'⟩

theorem Sound.stems_receive (hs : t.Sound) (hc : c ∈ t.ids) {r : VertexRecord}
    {nested : Option Branch} (hs' : (t.receive c r nested).Sound)
    (hr : admitted → r.global.id ∉ t.names)
    (hfresh : ∀ k ∈ nestedNodes nested, k.id ∉ t.ids ∧ k.storage = .empty) :
    t.Stems ((t.receive c r nested).mark c) false admitted := by
  obtain ⟨n, hn, rfl⟩ := Multiset.mem_map.mp hc
  obtain ⟨rest, hrest⟩ := nodes_cons_of_mem hn
  exact stems_of_mark hs.distinct hs'.distinct rfl hrest (hs.distinct.nodes_receive hrest r nested)
    (Node.stems_receive (hs.nodes n hn).storage.vertices hr nested) hfresh

/-! ### Moves -/

/-- A vertex that goes over takes its attributes along, and what is carried in
    the two clusters was carried there before. -/
theorem Handover.stems {giver taker giver' taker' : Node} {w nw : LocalVertex}
    (h : t.Handover t' giver taker giver' taker' w nw)
    (hgiver : giver.cluster.SameStyle t.config giver'.cluster)
    (htaker : taker.cluster.SameStyle t.config taker'.cluster)
    (hload : ∀ x, (∃ z, (z, x) ∈ giver'.storage.load ∨ (z, x) ∈ taker'.storage.load) →
      ∃ z, (z, x) ∈ giver.storage.load ∨ (z, x) ∈ taker.storage.load) :
    t.Stems t' true admitted := by
  obtain ⟨rest, hnodes, hnodes'⟩ := h.others
  have hothers : ∀ n ∈ rest, n ∈ t.nodes := fun n hn =>
    hnodes ▸ Multiset.mem_cons_of_mem (Multiset.mem_cons_of_mem hn)
  have hcarried : ∀ x, (∃ z, (z, x) ∈ giver'.storage.load ∨ (z, x) ∈ taker'.storage.load) →
      ∃ n ∈ t.nodes, ∃ k m, n.storage.link? k = some m ∧ x ∈ m.record.carried := by
    intro x hx
    obtain ⟨z, hz | hz⟩ := hload x hx
    · obtain ⟨k, m, hm, -, hxm⟩ := Storage.mem_load.mp hz
      exact ⟨giver, h.giver_mem.1, k, m, hm, hxm⟩
    · obtain ⟨k, m, hm, -, hxm⟩ := Storage.mem_load.mp hz
      exact ⟨taker, h.taker_mem.1, k, m, hm, hxm⟩
  constructor
  case clusters =>
    intro n' hn' _
    rw [hnodes', Multiset.mem_cons, Multiset.mem_cons] at hn'
    rcases hn' with rfl | rfl | hn'
    · exact ⟨giver, h.giver_mem.1, h.giverId, hgiver⟩
    · exact ⟨taker, h.taker_mem.1, h.takerId, htaker⟩
    · exact ⟨n', hothers n' hn', rfl, .refl _⟩
  case vertices =>
    intro n' hn' v r hr
    rw [hnodes', Multiset.mem_cons, Multiset.mem_cons] at hn'
    rcases hn' with rfl | rfl | hn'
    · rw [h.giverVertex] at hr
      split at hr
      · exact nomatch hr
      · exact Or.inl ⟨giver, h.giver_mem.1, v, hr⟩
    · rw [h.takerVertex] at hr
      split at hr
      · exact Or.inl ⟨giver, h.giver_mem.1, w, hr⟩
      · exact Or.inl ⟨taker, h.taker_mem.1, v, hr⟩
    · exact Or.inl ⟨n', hothers n' hn', v, hr⟩
  case edges =>
    -- Which edge it was does not matter here: a move regroups what edges carry.
    intro n' hn' e l x hl hx
    have hmem := Storage.mem_load.mpr ⟨e, l, hl, rfl, hx⟩
    refine Or.inl ?_
    have hstem : ∃ n ∈ t.nodes, ∃ k m, n.storage.link? k = some m ∧ x ∈ m.record.carried := by
      rw [hnodes', Multiset.mem_cons, Multiset.mem_cons] at hn'
      rcases hn' with rfl | rfl | hn'
      · exact hcarried x ⟨_, Or.inl hmem⟩
      · exact hcarried x ⟨_, Or.inr hmem⟩
      · exact ⟨n', hothers n' hn', e, l, hl, hx⟩
    obtain ⟨n, hn, k, m, hm, hxm⟩ := hstem
    exact ⟨n, hn, k, m, hm, hxm, fun h => nomatch h⟩

/-- A cluster of a move has other content, and is marked. -/
theorem sameStyle_moved (config : Config) {n m : Node}
    (hmode : m.cluster.copyMode = n.cluster.copyMode)
    (hprops : m.cluster.properties = n.cluster.properties) :
    n.cluster.SameStyle config (m.mark config).cluster :=
  (Cluster.sameStyle_of_eq hmode hprops).trans (Cluster.sameStyle_mark ..)

section Moves

variable {child : ClusterId} {result : Tree × LocalVertex}

theorem Sound.stems_moveIn (hs : t.Sound) (h : t.moveIn c v child = .ok result) :
    t.Stems result.1 true admitted := by
  obtain ⟨b, inner, cv, record, routes, hin, -, -, hroutes, heq, -⟩ := of_moveIn hs h
  rw [heq]
  refine (hin.handover hs routes).stems (sameStyle_moved _ rfl rfl) (sameStyle_moved _ rfl rfl)
    (fun x hx => ?_)
  obtain ⟨z, hz | hz⟩ := hx
  · rw [hin.load_lowered hs] at hz
    obtain ⟨entry, hentry, heq⟩ := Multiset.mem_map.mp hz
    obtain ⟨-, rfl⟩ := Prod.mk.inj heq
    exact ⟨entry.1, Or.inl (Multiset.mem_filter.mp hentry).1⟩
  · rw [hin.load_sunk hs (Branch.exists_target? hroutes), Multiset.mem_add] at hz
    rcases hz with hz | hz
    · exact ⟨z, Or.inr hz⟩
    · obtain ⟨y, hy, heq⟩ := Multiset.mem_map.mp hz
      obtain ⟨-, rfl⟩ := Prod.mk.inj heq
      obtain ⟨entry, hentry, rfl⟩ := Multiset.mem_map.mp hy
      exact ⟨entry.1, Or.inl (Multiset.mem_filter.mp hentry).1⟩

theorem Sound.stems_moveOut (hs : t.Sound) (h : t.moveOut c v = .ok result) :
    t.Stems result.1 true admitted := by
  obtain ⟨b, inner, cv, record, hout, -, heq, -⟩ := of_moveOut hs h
  rw [heq]
  refine (hout.handover hs).stems (sameStyle_moved _ rfl rfl) (sameStyle_moved _ rfl rfl)
    (fun x hx => ?_)
  obtain ⟨z, hz | hz⟩ := hx
  · rw [hout.load_drained hs] at hz
    exact ⟨z, Or.inl (Multiset.mem_filter.mp hz).1⟩
  · rw [hout.load_raised hs, Multiset.mem_add, Multiset.mem_add] at hz
    rcases hz with hz | hz | hz
    · exact ⟨z, Or.inr (Multiset.mem_filter.mp hz).1⟩
    · obtain ⟨entry, hentry, heq⟩ := Multiset.mem_map.mp hz
      obtain ⟨-, rfl⟩ := Prod.mk.inj heq
      exact ⟨entry.1, Or.inl (Multiset.mem_filter.mp hentry).1⟩
    · obtain ⟨entry, hentry, heq⟩ := Multiset.mem_map.mp hz
      obtain ⟨-, rfl⟩ := Prod.mk.inj heq
      exact ⟨entry.1, Or.inr (Multiset.mem_filter.mp hentry).1⟩

end Moves

/-- Even when the source overflows, the id that it gives out is not in the
    tree: it is a reserved one then. -/
theorem Named.next_notMem_names {ids : IdSource} (h : t.Named ids.count) : ids.next ∉ t.names := by
  intro hmem
  obtain ⟨hlow, hhigh⟩ := h.bound _ hmem
  rw [UInt64.lt_iff_toNat_lt] at hlow
  rw [UInt64.le_iff_toNat_le] at hhigh
  have hnext : ids.next.toNat = (ids.count.toNat + 1) % 2 ^ 64 := UInt64.toNat_add ids.count 1
  have hlt := ids.count.toNat_lt
  omega

end Tree

namespace Graph

variable {g h : Graph} {c : ClusterId} {a b : LocalVertex} {command : Command} {reply : Reply}
  {admitted : Prop}

theorem stems_putVertex (hs : g.tree.Sound) (hc : c ∈ g.tree.ids) {global : GlobalVertex}
    (hnew : admitted → global.id ∉ g.tree.names) :
    g.tree.Stems (g.putVertex c global) false admitted :=
  hs.stems_receive hc (hs.becomes_receive c (g.tree.config.fits_newVertex global)).sound hnew
    (fun k hk => absurd hk (Multiset.notMem_zero k))

theorem stems_putEdge (hs : g.tree.Sound) (hn : g.tree.Named g.ids.count) (hab : g.Between c a b)
    (hc : c ∈ g.tree.ids) {global : GlobalEdge} (hid : global.id = g.ids.next) :
    g.tree.Stems (g.putEdge c a b global).tree false admitted := by
  obtain ⟨n, hmem, rfl⟩ := Multiset.mem_map.mp hc
  obtain ⟨rest, hrest⟩ := Tree.nodes_cons_of_mem hmem
  have hnew : (g.tree.config.newCarried global).global.id ∉ g.tree.names := by
    show global.id ∉ g.tree.names
    rw [hid]
    exact hn.next_notMem_names
  have hnodes := hs.distinct.nodes_mapStorage hrest (fun s =>
    s.attach a b g.tree.config.edge.initialValues [g.tree.config.newCarried global])
  rw [← zero_add rest] at hnodes
  have hattached := becomes_attach hs hab global
  exact Tree.stems_of_mark hs.distinct hattached.sound.distinct rfl hrest hnodes
    (Node.stems_attach (hs.nodes n hmem).storage.listed a b _ hnew)
    (fun k hk => absurd hk (Multiset.notMem_zero k))

/-- What a structural command leaves stems from what was there, or is new. -/
theorem stems_perform (hs : g.tree.Sound) (hn : g.tree.Named g.ids.count)
    (hc : command.isStructural = true)
    (hname : admitted → ∀ c name, command = .addVertexNamed c name → g.Admits c name)
    (hp : g.perform command = .ok (h, reply)) :
    g.tree.Stems h.tree command.moves admitted := by
  cases hremoves : command.removes with
  | true =>
    -- Removals take away only, in every cluster, so nothing is new.
    have hmoves : command.moves = false := by
      cases command with
      | moveIn | moveInOn | moveOut => exact nomatch hremoves
      | _ => rfl
    rw [hmoves]
    exact (thinned_perform hs hremoves hp).stems hs.distinct
  | false =>
    cases command with
    | addCluster c =>
        obtain ⟨branch, hb, htree, -⟩ := of_perform_addCluster hp
        rw [htree]
        have hstems := hs.withNext.stems_receive (Tree.mem_ids_iff.mpr ⟨branch, hb⟩)
          (hs.receive_cluster c ⟨g.ids.next⟩) (fun _ : admitted => hn.next_notMem_names)
          (fun k hk => ?_)
        · exact ⟨hstems.clusters, hstems.vertices, hstems.edges⟩
        · -- The new child is empty, and its id was not given out yet.
          rw [Tree.nestedNodes_newCluster, Multiset.mem_singleton] at hk
          refine ⟨fun hlive => ?_, by rw [hk]; rfl⟩
          rw [hk] at hlive
          exact Nat.lt_irrefl _ (hs.bound _ hlive)
    | addVertex c =>
        obtain ⟨branch, hb, htree, -⟩ := of_perform_addVertex hp
        rw [htree]
        exact stems_putVertex hs (Tree.mem_ids_iff.mpr ⟨branch, hb⟩)
          (fun _ => hn.next_notMem_names)
    | addVertexNamed c name =>
        obtain ⟨branch, hb, v, -, ⟨-, htree⟩ | ⟨hnone, htree, -⟩⟩ := of_perform_addVertexNamed hp
        · rw [htree]
          exact .refl hs.distinct
        · rw [htree]
          have hout := (hs.vertexOwner?_eq_none_iff hb).mpr hnone
          exact stems_putVertex hs (Tree.mem_ids_iff.mpr ⟨branch, hb⟩)
            (fun h => (hname h c name rfl).resolve_left (not_not_intro hout))
    | addEdge c a b =>
        obtain ⟨branch, global, hb, hab, hid, htree, -⟩ := of_perform_addEdge hs hp
        rw [htree]
        exact stems_putEdge hs hn hab (Tree.mem_ids_iff.mpr ⟨branch, hb⟩) hid
    | connect c source target =>
        obtain ⟨holder, a, b, global, -, hb, hab, hid, htree, -⟩ := of_perform_connect hs hp
        rw [htree]
        exact stems_putEdge hs hn hab (Tree.mem_ids_iff.mpr ⟨holder, hb⟩) hid
    | moveIn c v child =>
        obtain ⟨r, hr, rfl, -⟩ := of_moving hp
        exact hs.stems_moveIn hr
    | moveInOn c v place =>
        obtain ⟨r, hr, rfl, -⟩ := of_moving hp
        obtain ⟨child, -, hr⟩ := of_bind_eq_ok hr
        exact hs.stems_moveIn hr
    | moveOut c v =>
        obtain ⟨r, hr, rfl, -⟩ := of_moving hp
        exact hs.stems_moveOut hr
    | removeCluster | removeClusterOn | removeClusters | removeVertex | removeGlobalVertex
    | removeEdge | removeGlobalEdge => exact nomatch hremoves
    | _ => exact nomatch hc

end Graph

namespace Tree

variable {t t' : Tree} {count : UInt64} {moved : Bool} {admitted : Prop}

/-! ## What is seen of a tree -/

/-- What is in both trees has the same attributes in both; when a vertex was
    moved, this is not said of what belongs to whole edges. -/
structure KeepsAttributes (t t' : Tree) (moved : Bool) (admitted : Prop) : Prop where
  config : t'.config = t.config
  mode : ∀ c, t.isLive c = true → t'.isLive c = true → t'.isCopyMode c = t.isCopyMode c
  clusters : ∀ c, t.isLive c = true → t'.isLive c = true → ∀ type, type ≠ changedFlag →
    t'.clusterProperty type c = t.clusterProperty type c
  /-- If a caller gave a name that is not admitted, there is another vertex of
      this name: the one that was just added. -/
  vertices : ∀ c v r c' v' r', t.vertexRecord c v = .ok r → t'.vertexRecord c' v' = .ok r' →
    r'.global = r.global → admitted ∨ v' ∈ t.vertices c' → r' = r
  edges : ∀ c e r x c' e' r' x', t.edgeRecord c e = .ok r → x ∈ r.carried →
    t'.edgeRecord c' e' = .ok r' → x' ∈ r'.carried → x'.global.id = x.global.id →
    x' = x ∧ (moved = false → r'.properties = r.properties)
  /-- The properties that are read by the name of a global edge. -/
  reads : moved = false → ∀ c c' global type, t.edgeOwner? c global ≠ none →
    t'.edgeOwner? c' global ≠ none →
    t'.property type c' (.globalEdge global) = t.property type c (.globalEdge global)

theorem exists_node_of_vertexRecord {c : ClusterId} {v : LocalVertex} {r : VertexRecord}
    (h : t.vertexRecord c v = .ok r) : ∃ n ∈ t.nodes, n.id = c ∧ n.storage.vertex? v = some r := by
  obtain ⟨b, hb, hr⟩ := of_vertexRecord h
  exact ⟨b.node, node_mem_of_find? hb, id_of_find? hb, hr⟩

theorem exists_node_of_edgeRecord {c : ClusterId} {e : LocalEdge} {r : EdgeRecord}
    (h : t.edgeRecord c e = .ok r) :
    ∃ n ∈ t.nodes, n.id = c ∧ ∃ l, n.storage.link? e = some l ∧ l.record = r := by
  obtain ⟨b, hb, hr⟩ := of_edgeRecord h
  exact ⟨b.node, node_mem_of_find? hb, id_of_find? hb, Option.map_eq_some_iff.mp hr⟩

/-- By the name of a global edge the properties are read of an edge that
    carries it. -/
theorem Distinct.exists_edgeRecord (hd : t.Distinct) {c : ClusterId} {global : GlobalEdge}
    (h : t.edgeOwner? c global ≠ none) :
    ∃ o e r, t.edgeRecord o e = .ok r ∧ (∃ x ∈ r.carried, x.global.id = global.id)
      ∧ ∀ type, t.property type c (.globalEdge global) = t.config.edge.read type r.properties := by
  obtain ⟨⟨o, e⟩, howner⟩ := Option.ne_none_iff_exists'.mp h
  obtain ⟨b, hb, hfound⟩ := Option.bind_eq_some_iff.mp howner
  obtain ⟨n, hn, rfl, g, hg, hid⟩ := Branch.of_edgeOwner? hfound
  obtain ⟨l, hl, hg⟩ := Storage.mem_carried.mp hg
  obtain ⟨x, hx, rfl⟩ := List.mem_map.mp hg
  obtain ⟨d, hfind, rfl⟩ := hd.find?_of_mem (Multiset.mem_of_le (nodes_le_of_find? hb) hn)
  have hrecord : t.edgeRecord d.node.id e = .ok l.record := edgeRecord_of_find? hfind hl
  have hresolve : t.resolve c (.globalEdge global) = .ok (.edge d.node.id e (some global)) := by
    rw [resolve, require_of_find? hb, ok_bind, hfound]
    rfl
  refine ⟨d.node.id, e, l.record, hrecord, ⟨x, hx, hid⟩, fun type => ?_⟩
  rw [property, hresolve, ok_bind]
  dsimp only
  rw [hrecord, ok_bind]

/-- A name is on one edge of one cluster, and once. -/
theorem Orderly.eq_of_carried_id (h : t.Orderly count) {n m : Node} (hn : n ∈ t.nodes)
    (hm : m ∈ t.nodes) {e k : LocalEdge} {l l' : Link} {x y : CarriedEdge}
    (hl : n.storage.link? e = some l) (hx : x ∈ l.record.carried)
    (hl' : m.storage.link? k = some l') (hy : y ∈ l'.record.carried)
    (hid : x.global.id = y.global.id) : l = l' ∧ x = y := by
  have hxn := Storage.mem_carries_of_link? hl (List.mem_map_of_mem hx)
  have hym := Storage.mem_carries_of_link? hl' (List.mem_map_of_mem hy)
  obtain ⟨rfl, hends, -⟩ := h.named.eq_of_mem_carries hn hm hxn hym hid
  obtain rfl := (h.sound.nodes n hn).storage.single e l k l' hl hl' hends
  obtain rfl := Option.some.inj (hl.symm.trans hl')
  have hnodup := Storage.nodup_ids_of_link? (h.named.nodup_node hn) hl
  rw [EdgeRecord.globals, List.map_map] at hnodup
  exact ⟨rfl, List.inj_on_of_nodup_map hnodup hx hy hid⟩

theorem Stems.sameStyle (h : t.Stems t' moved admitted) {c : ClusterId}
    (hlive : t.isLive c = true) (hlive' : t'.isLive c = true) : ∃ n ∈ t.nodes, ∃ n' ∈ t'.nodes,
      n.id = c ∧ n'.id = c ∧ n.cluster.SameStyle t.config n'.cluster := by
  obtain ⟨n', hn', rfl⟩ := Multiset.mem_map.mp (isLive_iff.mp hlive')
  obtain ⟨n, hn, hid, hstyle⟩ := h.clusters n' hn' (isLive_iff.mp hlive)
  exact ⟨n, hn, n', hn', hid.symm, rfl, hstyle⟩

/-- As every name is in one place, a vertex that was there stems from itself. -/
theorem Stems.eq_of_global (h : t.Stems t' moved admitted) (hnamed : t.Named count)
    {c c' : ClusterId} {v v' : LocalVertex} {r r' : VertexRecord}
    (hr : t.vertexRecord c v = .ok r) (hr' : t'.vertexRecord c' v' = .ok r')
    (hglobal : r'.global = r.global) (hold : admitted ∨ v' ∈ t.vertices c') : r' = r := by
  obtain ⟨n, hn, -, hv⟩ := exists_node_of_vertexRecord hr
  obtain ⟨n', hn', rfl, hv'⟩ := exists_node_of_vertexRecord hr'
  have hgn : n.storage.global? v = some r.global := by
    rw [Storage.global?, hv]
    rfl
  rcases h.vertices n' hn' v' r' hv' with ⟨m, hm, u, hu⟩ | ⟨hdead, hnew⟩
  · have hgm : m.storage.global? u = some r.global := by
      rw [Storage.global?, hu, ← hglobal]
      rfl
    obtain ⟨rfl, rfl⟩ := hnamed.eq_of_global? hm hn hgm hgn
    exact Option.some.inj (hu.symm.trans hv)
  · rcases hold with hadmitted | hlive
    · refine absurd (mem_names_iff.mpr ⟨n, hn, Storage.mem_names.mpr (Or.inl ?_)⟩)
        (hnew hadmitted)
      exact ⟨_, _, hgn, congrArg GlobalVertex.id hglobal.symm⟩
    · exact absurd hlive hdead

/-- And so does a global edge, with the edge that carries it. -/
theorem Stems.eq_of_carried_id (h : t.Stems t' moved admitted) (ho : t.Orderly count)
    {c c' : ClusterId} {e e' : LocalEdge} {r r' : EdgeRecord} {x x' : CarriedEdge}
    (hr : t.edgeRecord c e = .ok r) (hx : x ∈ r.carried)
    (hr' : t'.edgeRecord c' e' = .ok r') (hx' : x' ∈ r'.carried)
    (hid : x'.global.id = x.global.id) :
    x' = x ∧ (moved = false → r'.properties = r.properties) := by
  obtain ⟨n, hn, -, l, hl, rfl⟩ := exists_node_of_edgeRecord hr
  obtain ⟨n', hn', -, l', hl', rfl⟩ := exists_node_of_edgeRecord hr'
  rcases h.edges n' hn' e' l' x' hl' hx' with ⟨m, hm, k, lm, hlm, hxm, hprops⟩ | hnew
  · obtain ⟨rfl, rfl⟩ := ho.eq_of_carried_id hm hn hlm hxm hl hx hid
    exact ⟨rfl, hprops⟩
  · have hcarries := Storage.mem_carries_of_link? hl (List.mem_map_of_mem hx)
    refine absurd (mem_names_iff.mpr ⟨n, hn, Storage.mem_names.mpr (Or.inr ?_)⟩) hnew
    exact ⟨_, _, hcarries, hid.symm⟩

theorem Stems.keepsAttributes (h : t.Stems t' moved admitted) (ho : t.Orderly count)
    (hd' : t'.Distinct) (hconfig : t'.config = t.config) :
    t.KeepsAttributes t' moved admitted := by
  have hd := ho.sound.distinct
  constructor
  case config => exact hconfig
  case mode =>
    intro c hlive hlive'
    obtain ⟨n, hn, n', hn', rfl, hid, hstyle⟩ := h.sameStyle hlive hlive'
    rw [hd.isCopyMode_of_mem hn, ← hid, hd'.isCopyMode_of_mem hn', hstyle.mode]
  case clusters =>
    intro c hlive hlive' type hne
    obtain ⟨n, hn, n', hn', rfl, hid, hstyle⟩ := h.sameStyle hlive hlive'
    obtain ⟨b, hb, rfl⟩ := hd.find?_of_mem hn
    obtain ⟨b', hb', rfl⟩ := hd'.find?_of_mem hn'
    rw [hid] at hb'
    rw [clusterProperty_of_find? hb, clusterProperty_of_find? hb', hconfig]
    exact hstyle.properties type hne
  case vertices =>
    intro c v r c' v' r' hr hr' hglobal hold
    exact h.eq_of_global ho.named hr hr' hglobal hold
  case edges =>
    intro c e r x c' e' r' x' hr hx hr' hx' hid
    exact h.eq_of_carried_id ho hr hx hr' hx' hid
  case reads =>
    intro hmoved c c' global type hfound hfound'
    obtain ⟨o, e, r, hr, ⟨x, hx, hid⟩, hread⟩ := hd.exists_edgeRecord hfound
    obtain ⟨o', e', r', hr', ⟨x', hx', hid'⟩, hread'⟩ := hd'.exists_edgeRecord hfound'
    obtain ⟨-, hprops⟩ := h.eq_of_carried_id ho hr hx hr' hx' (hid'.trans hid.symm)
    rw [hread, hread', hprops hmoved, hconfig]

end Tree

namespace Workspace

/-! ## Along runs -/

/-- **SURVIVORS**: after well-behaved callers, whatever structural command
    succeeds leaves the attributes of what was there before and still is as
    they were: the properties and objects of vertices, the endpoints and
    objects of global edges, and the properties and copy mode of clusters, but
    for the change flag.  Unless the command moves a vertex, the properties of
    edges stay as well.  Of callers that give a name in use to a vertex all this
    is said but for that vertex. -/
theorem keepsAttributes_run {operations : List Operation} (h : empty.WellBehaved operations)
    {number : Nat} {command : Command} {reply : Reply} {w' : Workspace} {m m' : Member}
    (hc : command.isStructural = true)
    (hstep : (empty.run operations).step (.change number command) = (w', .ok reply))
    (hm : (empty.run operations).members[number]? = some m)
    (hm' : w'.members[number]? = some m') :
    m.tree.KeepsAttributes m'.tree command.moves
      ((empty.run operations).Admits (.change number command)) := by
  have hordered := ordered_empty.run h
  obtain ⟨k, ids, g', hk, hids, hp, rfl⟩ := exists_perform hordered.sound hstep hm'
  obtain rfl := Option.some.inj (hm.symm.trans hk)
  have ho := hordered.trees m (List.mem_of_getElem? hm) ids hids
  have hbecomes := Graph.becomes_perform (g := ⟨m.tree, ids⟩) ho.sound hp
  have hname : (empty.run operations).Admits (.change number command) →
      ∀ c name, command = .addVertexNamed c name → Graph.Admits ⟨m.tree, ids⟩ c name := by
    rintro hadmits c name rfl
    exact hadmits (number, c, name) rfl ⟨m.tree, ids⟩
      (graph?_eq_some.mpr ⟨m, ids, hm, hids, rfl⟩)
  have hstems := Graph.stems_perform (g := ⟨m.tree, ids⟩) ho.sound ho.named hc hname hp
  exact hstems.keepsAttributes ho hbecomes.sound.distinct hbecomes.config

/-- Of two global edges on one edge the first goes with the vertex that it
    ends at, further inside.  The second still has its object, and the edge
    its weight. -/
theorem keepsAttributes_removeVertex :
    let weight : AttributeType := ⟨"weight", .integer 0, 0⟩
    let marker : AttributeType := ⟨"marker", .unit, 0⟩
    let second : GlobalEdge := ⟨⟨13⟩, ⟨14⟩, 16⟩
    let operations := [Operation.newGraph (.declared [.edge weight, .object marker]) .fresh,
      .change 0 (.addCluster Tree.rootId), .change 0 (.addVertex ⟨1⟩), .change 0 (.addVertex ⟨1⟩),
      .change 0 (.addVertex Tree.rootId), .change 0 (.connect Tree.rootId ⟨12⟩ ⟨14⟩),
      .change 0 (.connect Tree.rootId ⟨13⟩ ⟨14⟩),
      .change 0 (.setProperty weight Tree.rootId (.globalEdge second) (.integer 5)),
      .placeObject 0 Tree.rootId (.globalEdge second) marker .unit]
    let w := empty.run operations
    let command := Command.removeVertex ⟨1⟩ ⟨0, 0⟩
    empty.WellBehaved operations
      ∧ ∃ m m', w.members[0]? = some m ∧ (w.step (.change 0 command)).1.members[0]? = some m'
        ∧ m.tree.KeepsAttributes m'.tree false (w.Admits (.change 0 command))
        ∧ m'.tree.property weight Tree.rootId (.globalEdge second) = .ok (.integer 5)
        ∧ m'.tree.objects marker Tree.rootId ⟨0, 0⟩
          = .ok [(second, some ⟨marker, 1, .unit⟩)] := by
  intro weight marker second operations w command
  have h : empty.WellBehaved operations := by decide +kernel
  let removed : List Removal := [.edge ⟨⟨12⟩, ⟨14⟩, 15⟩]
  have hreply : (w.step (.change 0 command)).2 = .ok (.removed removed) := by decide +kernel
  have hstep : w.step (.change 0 command)
      = ((w.step (.change 0 command)).1, .ok (.removed removed)) := by
    rw [← hreply]
  have hbefore : ∃ m ∈ w.members[0]?, (m.tree.carried Tree.rootId ⟨0, 0⟩).length = 2 := by
    decide +kernel
  have hafter : ∃ m' ∈ (w.step (.change 0 command)).1.members[0]?,
      m'.tree.property weight Tree.rootId (.globalEdge second) = .ok (.integer 5)
        ∧ m'.tree.objects marker Tree.rootId ⟨0, 0⟩
          = .ok [(second, some ⟨marker, 1, .unit⟩)] := by
    decide +kernel
  obtain ⟨m, hm, -⟩ := hbefore
  obtain ⟨m', hm', hreads⟩ := hafter
  exact ⟨h, m, m', hm, hm', keepsAttributes_run h rfl hstep hm hm', hreads⟩

end Workspace

end NestedGraph
