import NestedGraph.Proofs.Upkeep

/-! # Growth — names that come in

    A new vertex or edge takes a name along that the tree does not have
    yet: the next one of the source, or one of the caller's choice that is
    not in use.  An edge is put between the vertices that its endpoints
    stand on, be they vertices of the cluster or representatives. -/

namespace NestedGraph

/-- A source that does not start again gives out an id that is new. -/
theorem IdSource.count_lt_next {ids : IdSource} (h : ids.count ≤ ids.advance.count) :
    ids.count < ids.next := by
  refine UInt64.lt_of_le_of_ne h (fun heq => ?_)
  have hnat := congrArg UInt64.toNat heq
  rw [next, UInt64.toNat_add] at hnat
  have hlt := ids.count.toNat_lt
  have hone : UInt64.toNat 1 = 1 := rfl
  omega

theorem IdSource.le_raise (ids : IdSource) (count : UInt64) :
    ids.count ≤ (ids.raise count).count ∧ count ≤ (ids.raise count).count := by
  rw [UInt64.le_iff_toNat_le, UInt64.le_iff_toNat_le, toNat_count_raise]
  exact ⟨Nat.le_max_left .., Nat.le_max_right ..⟩

/-- A source starts above the reserved ids. -/
theorem IdSource.reserved_le_startingAt (count : UInt64) :
    lastReservedId ≤ (startingAt count).count := by
  have hle := ((⟨count⟩ : IdSource).le_raise (lastReservedId + 1)).2
  exact UInt64.le_trans (by decide) hle

/-! ## Vertices that come -/

namespace Node

variable {config : Config} {n : Node} {r : VertexRecord} {nested : Option Branch}

theorem Sound.ordinary_receive (hn : n.Sound config) {u : LocalVertex} {g : GlobalVertex}
    (h : n.Ordinary u g) : (n.receive r nested).Ordinary u g := by
  obtain ⟨hg, hkeys⟩ := h
  have hne : u ≠ n.storage.vertices.nextHandle := by
    rintro rfl
    rw [Storage.global?, Storage.vertex?, SlotStore.get?_nextHandle hn.storage.vertices] at hg
    cases hg
  refine ⟨?_, fun hmem => ?_⟩
  · rw [storage_receive, Storage.global?, Storage.vertex?_addVertex hn.storage.vertices, if_neg hne]
    exact hg
  · obtain ⟨⟨w, d⟩, he, rfl⟩ := List.mem_map.mp hmem
    rcases mem_entries_receive.mp he with he | ⟨_, -, heq, -⟩
    · exact hkeys (List.mem_map.mpr ⟨(w, d), he, rfl⟩)
    · exact hne heq

theorem carries_receive : (n.receive r nested).storage.carries = n.storage.carries :=
  Storage.carries_of_edges rfl

theorem Sound.names_receive (hn : n.Sound config) :
    (n.receive r nested).storage.names = r.global.id ::ₘ n.storage.names := by
  rw [Storage.names, Storage.names, carries_receive, storage_receive,
    Storage.holds_addVertex hn.storage.vertices, Multiset.map_cons, Multiset.cons_add]

end Node

theorem Storage.names_empty : empty.names = 0 := by
  rw [← coe_ids]
  rfl

theorem Storage.carries_empty : empty.carries = 0 := by
  rw [carries, load_empty, Multiset.map_zero]

theorem Storage.holds_attach (s : Storage) (a b : LocalVertex) (properties : List Value)
    (carried : List CarriedEdge) : (s.attach a b properties carried).holds = s.holds :=
  holds_of_vertices (vertices_attach ..)

/-- A global edge that is put onto an edge is carried between its ends. -/
theorem Storage.Sound.carries_attach {s : Storage} (hs : s.Sound) (a b : LocalVertex)
    (properties : List Value) (x : CarriedEdge) :
    (s.attach a b properties [x]).carries = (s(a, b), x.global) ::ₘ s.carries := by
  rw [carries, load_attach hs.listed, Multiset.map_add, add_comm]
  rfl

namespace Tree

variable {t : Tree} {count count' : UInt64} {c : ClusterId}

/-- The next id of a source is no name yet. -/
theorem Named.next_notMem {ids : IdSource} (h : t.Named ids.count)
    (hcount : ids.count ≤ ids.advance.count) : ids.next ∉ t.names := fun hmem =>
  UInt64.not_lt.mpr (h.bound _ hmem).2 (IdSource.count_lt_next hcount)

/-- A vertex that comes, alone or with a cluster without content, brings its
    name. -/
theorem Sound.names_receive (hs : t.Sound) (hc : c ∈ t.ids) (r : VertexRecord)
    {nested : Option Branch} (hempty : ∀ m ∈ nestedNodes nested, m.storage = .empty) :
    (t.receive c r nested).nodes.bind (fun n => n.storage.names)
      = r.global.id ::ₘ t.nodes.bind (fun n => n.storage.names) := by
  obtain ⟨n, hn, rfl⟩ := Multiset.mem_map.mp hc
  obtain ⟨rest, hrest⟩ := nodes_cons_of_mem hn
  have hnone : (nestedNodes nested).bind (fun m => m.storage.names) = 0 := by
    rw [Multiset.bind_congr (fun m hm => by rw [hempty m hm, Storage.names_empty]),
      Multiset.bind_zero]
  rw [hs.distinct.nodes_receive hrest, hrest, Multiset.cons_bind, Multiset.add_bind,
    Multiset.cons_bind, hnone, zero_add, (hs.nodes n hn).names_receive, Multiset.cons_add]

/-- Order is kept when a vertex with a new name comes, alone or with a cluster
    without content. -/
theorem Orderly.receive (h : t.Orderly count) (hc : c ∈ t.ids) {r : VertexRecord}
    {nested : Option Branch} (hs : (t.receive c r nested).Sound)
    (hempty : ∀ m ∈ nestedNodes nested, m.storage = .empty) (hnew : r.global.id ∉ t.names)
    (hlow : lastReservedId < r.global.id) (hhigh : r.global.id ≤ count') (hcount : count ≤ count') :
    (t.receive c r nested).Orderly count' := by
  obtain ⟨n, hn, rfl⟩ := Multiset.mem_map.mp hc
  obtain ⟨rest, hrest⟩ := nodes_cons_of_mem hn
  have hsound := h.sound.nodes n hn
  have hnodes := h.sound.distinct.nodes_receive hrest r nested
  refine h.grow hs (fun m hm => ?_) (fun m hm z g hz => Or.inl ?_) ?_ hnew hlow hhigh hcount
  · rw [hrest, Multiset.mem_cons] at hm
    rw [hnodes]
    rcases hm with rfl | hm
    · exact ⟨_, Multiset.mem_cons_self .., rfl,
        fun _ he => Node.mem_entries_receive.mpr (Or.inl he), fun _ _ ho => hsound.ordinary_receive ho⟩
    · exact ⟨m, Multiset.mem_cons_of_mem (Multiset.mem_add.mpr (Or.inr hm)), rfl, fun _ he => he,
        fun _ _ ho => ho⟩
  · rw [hnodes, Multiset.mem_cons, Multiset.mem_add] at hm
    rcases hm with rfl | hm | hm
    · exact ⟨n, hn, rfl, Node.carries_receive ▸ hz⟩
    · rw [hempty m hm, Storage.carries_empty] at hz
      exact absurd hz (Multiset.notMem_zero _)
    · exact ⟨m, hrest ▸ Multiset.mem_cons_of_mem hm, rfl, hz⟩
  · exact h.sound.names_receive hc r hempty

theorem Orderly.withNext (h : t.Orderly count) : t.withNext.Orderly count :=
  h.lighter h.sound.withNext ⟨id, (Multiset.map_id t.nodes).symm, fun n _ => .refl n⟩

/-! ## Edges that come -/

/-- An edge that comes brings its name. -/
theorem Sound.names_attach (hs : t.Sound) (hc : c ∈ t.ids) (a b : LocalVertex)
    (properties : List Value) (x : CarriedEdge) :
    (t.mapStorage c (fun s => s.attach a b properties [x])).nodes.bind (fun n => n.storage.names)
      = x.global.id ::ₘ t.nodes.bind (fun n => n.storage.names) := by
  obtain ⟨n, hn, rfl⟩ := Multiset.mem_map.mp hc
  obtain ⟨rest, hrest⟩ := nodes_cons_of_mem hn
  rw [hs.distinct.nodes_mapStorage hrest, hrest, Multiset.cons_bind, Multiset.cons_bind,
    Node.storage_mapStorage, Storage.names, Storage.names, Storage.holds_attach,
    (hs.nodes n hn).storage.carries_attach, Multiset.map_cons, Multiset.add_cons, Multiset.cons_add]

/-- Order is kept when an edge with a new name is put between the vertices
    that its endpoints stand on. -/
theorem Orderly.attach (h : t.Orderly count) (hc : c ∈ t.ids) {a b : LocalVertex}
    {properties : List Value} {x : CarriedEdge}
    (hs : (t.mapStorage c (fun s => s.attach a b properties [x])).Sound)
    (hjoins : t.Joins c s(a, b) x.global) (hnew : x.global.id ∉ t.names)
    (hlow : lastReservedId < x.global.id) (hhigh : x.global.id ≤ count') (hcount : count ≤ count') :
    (t.mapStorage c (fun s => s.attach a b properties [x])).Orderly count' := by
  obtain ⟨n, hn, rfl⟩ := Multiset.mem_map.mp hc
  obtain ⟨rest, hrest⟩ := nodes_cons_of_mem hn
  have hnodes := h.sound.distinct.nodes_mapStorage hrest (fun s => s.attach a b properties [x])
  refine h.grow hs (fun m hm => ?_) (fun m hm z g hz => ?_) ?_ hnew hlow hhigh hcount
  · rw [hrest, Multiset.mem_cons] at hm
    rw [hnodes]
    rcases hm with rfl | hm
    · refine ⟨_, Multiset.mem_cons_self .., rfl, fun _ he => he, fun u g ho => ⟨?_, ho.2⟩⟩
      rw [Node.storage_mapStorage, ← Storage.mem_holds, Storage.holds_attach, Storage.mem_holds]
      exact ho.1
    · exact ⟨m, Multiset.mem_cons_of_mem hm, rfl, fun _ he => he, fun _ _ ho => ho⟩
  · rw [hnodes, Multiset.mem_cons] at hm
    rcases hm with rfl | hm
    · rw [Node.storage_mapStorage, (h.sound.nodes n hn).storage.carries_attach,
        Multiset.mem_cons] at hz
      rcases hz with heq | hz
      · obtain ⟨rfl, rfl⟩ := Prod.mk.inj heq
        exact Or.inr hjoins
      · exact Or.inl ⟨n, hn, rfl, hz⟩
    · exact Or.inl ⟨m, hrest ▸ Multiset.mem_cons_of_mem hm, rfl, hz⟩
  · exact h.sound.names_attach hc a b properties x

end Tree

namespace Graph

variable {g h : Graph} {count' : UInt64} {c : ClusterId} {a b v : LocalVertex}
  {global name : GlobalVertex}

/-! ## Vertices and clusters of a graph -/

theorem orderly_putVertex (ho : g.tree.Orderly g.ids.count) {branch : Branch}
    (hb : g.tree.find? c = some branch) (hnew : global.id ∉ g.tree.names)
    (hlow : lastReservedId < global.id) (hhigh : global.id ≤ count') (hcount : g.ids.count ≤ count') :
    (g.putVertex c global).Orderly count' := by
  have hs := (ho.sound.becomes_receive c (g.tree.config.fits_newVertex global)).sound
  exact (ho.receive (Tree.mem_ids_iff.mpr ⟨branch, hb⟩) hs
    (fun m hm => absurd hm (Multiset.notMem_zero m)) hnew hlow hhigh hcount).mark c

theorem lastReservedId_lt_next (ho : g.tree.Orderly g.ids.count)
    (hcount : g.ids.count ≤ g.ids.advance.count) : lastReservedId < g.ids.next :=
  UInt64.lt_of_le_of_lt ho.named.reserved (IdSource.count_lt_next hcount)

theorem orderly_addVertex (ho : g.tree.Orderly g.ids.count) (hcount : g.ids.count ≤ h.ids.count)
    (hadd : g.addVertex c = .ok (h, v, global)) : h.tree.Orderly h.ids.count := by
  obtain ⟨branch, hb, rfl, -, rfl⟩ := of_addVertex hadd
  exact orderly_putVertex ho hb (ho.named.next_notMem hcount)
    (lastReservedId_lt_next ho hcount) (UInt64.le_refl _) hcount

theorem orderly_addCluster (ho : g.tree.Orderly g.ids.count) (hcount : g.ids.count ≤ h.ids.count)
    {child : ClusterId} (hadd : g.addCluster c = .ok (h, child, v)) :
    h.tree.Orderly h.ids.count := by
  obtain ⟨branch, hb, rfl, -, rfl⟩ := of_addCluster hadd
  refine Tree.Orderly.mark (ho.withNext.receive (Tree.mem_ids_iff.mpr ⟨branch, hb⟩)
    (ho.sound.receive_cluster c _) (fun m hm => ?_) (ho.named.next_notMem hcount)
    (lastReservedId_lt_next ho hcount) (UInt64.le_refl _) hcount) c
  rw [Tree.nestedNodes_newCluster, Multiset.mem_singleton] at hm
  rw [hm]
  rfl

/-! ## Edges of a graph -/

theorem orderly_putEdge (ho : g.tree.Orderly g.ids.count)
    (hcount : g.ids.count ≤ g.ids.advance.count) (hab : g.Between c a b) {e : GlobalEdge}
    {branch : Branch} (hb : g.tree.find? c = some branch) (hjoins : g.tree.Joins c s(a, b) e)
    (hid : e.id = g.ids.next) : (g.putEdge c a b e).tree.Orderly g.ids.advance.count := by
  have hs := (becomes_attach ho.sound hab e).sound
  refine Tree.Orderly.mark (ho.attach (Tree.mem_ids_iff.mpr ⟨branch, hb⟩) hs hjoins ?_ ?_ ?_ hcount) c
  · show e.id ∉ g.tree.names
    rw [hid]
    exact ho.named.next_notMem hcount
  · show lastReservedId < e.id
    rw [hid]
    exact lastReservedId_lt_next ho hcount
  · exact UInt64.le_of_eq hid

theorem orderly_addEdge (ho : g.tree.Orderly g.ids.count) (hcount : g.ids.count ≤ h.ids.count)
    {e : LocalEdge} {edge : GlobalEdge} (hadd : g.addEdge c a b = .ok (h, e, edge)) :
    h.tree.Orderly h.ids.count := by
  obtain ⟨branch, source, target, hends, hfind, hab, rfl, -, rfl⟩ := of_addEdge ho.sound hadd
  obtain ⟨-, -, hsource, htarget, ha, hb⟩ := of_edgeEnds hends
  refine orderly_putEdge ho hcount hab hfind ?_ rfl
  have hnode := Tree.node_mem_of_find? hfind
  obtain rfl := Tree.id_of_find? hfind
  have hstands : ∀ {u : LocalVertex} {name : GlobalVertex},
      branch.cluster.storage.global? u = some name →
      g.tree.isClusterVertex branch.cluster.id u = false →
      g.tree.Stands branch.cluster.id u name := by
    intro u name hname hu
    refine Tree.stands_here hnode ⟨hname, ?_⟩
    rw [← ho.sound.distinct.isClusterVertex_iff hnode, Bool.not_eq_true]
    exact hu
  exact ⟨a, b, rfl, hstands hsource ha, hstands htarget hb⟩

/-- What represents a vertex that stands for no cluster is what its name
    stands on. -/
theorem stands_of_representative? (ho : g.tree.Orderly g.ids.count) {holder branch : Branch}
    (hholder : g.tree.find? holder.cluster.id = some holder) (hbranch : g.tree.find? c = some branch)
    (hle : holder.nodes ≤ branch.nodes) (hrep : holder.representative? global = some a)
    (hord : g.requireOrdinaryGlobal c global = .ok ()) :
    g.tree.Stands holder.cluster.id a global := by
  obtain ⟨o, u, hl, hg⟩ := (ho.sound.mem_travelling hholder).mp
    (ho.sound.mem_travelling_of_representative? hholder hrep)
  obtain ⟨m, hm, rfl, hu⟩ := Tree.exists_node_of_global? hg
  refine ⟨m, hm, u, hl, hu, ?_⟩
  have hmem : global ∈ branch.globals :=
    Branch.mem_globals.mpr ⟨m, Multiset.mem_of_le hle (hl.mem_nodes ho.sound hholder hm rfl), u, hu⟩
  obtain ⟨owner, w, howner⟩ := Branch.exists_vertexOwner? hmem
  have hfind : g.tree.vertexOwner? c global = some (owner, w) := by
    rw [Tree.vertexOwner?, hbranch]
    exact howner
  obtain ⟨k, hk, rfl, hw⟩ := Branch.of_vertexOwner? howner
  obtain ⟨rfl, rfl⟩ := ho.named.eq_of_global? hm
    (Multiset.mem_of_le (Tree.nodes_le_of_find? hbranch) hk) hu hw
  rw [requireOrdinaryGlobal, hfind] at hord
  rw [← ho.sound.distinct.isClusterVertex_iff hm, Bool.not_eq_true]
  exact of_requireOrdinary hord

theorem orderly_connect (ho : g.tree.Orderly g.ids.count) (hcount : g.ids.count ≤ h.ids.count)
    {source target : GlobalVertex} {e : LocalEdge} {edge : GlobalEdge} {own : Bool}
    (hadd : g.connect c source target = .ok (h, e, edge, own)) : h.tree.Orderly h.ids.count := by
  obtain ⟨holder, a, b, hplace, hfind, hab, rfl, -, -, rfl⟩ := of_connect ho.sound hadd
  obtain ⟨-, -, hsource, htarget, hs, ht, branch, hbranch, hle⟩ := of_edgePlace ho.sound hplace
  exact orderly_putEdge ho hcount hab hfind
    ⟨a, b, rfl, stands_of_representative? ho hfind hbranch hle hsource hs,
      stands_of_representative? ho hfind hbranch hle htarget ht⟩ rfl

/-! ## Names of the caller's choice -/

/-- A name that the caller may give to a vertex of the cluster: that of a
    vertex inside it, or one that is not in use. -/
def Admits (g : Graph) (c : ClusterId) (name : GlobalVertex) : Prop :=
  g.tree.vertexOwner? c name ≠ none ∨ name.id ∉ g.tree.names

instance (g : Graph) (c : ClusterId) (name : GlobalVertex) : Decidable (g.Admits c name) :=
  inferInstanceAs (Decidable (_ ∨ _))

/-- A name that has an owner inside the cluster is left there.  Any other
    comes in, unless it is reserved. -/
theorem addVertexNamed_cases (hs : g.tree.Sound)
    (hadd : g.addVertexNamed c name = .ok (h, v, global)) :
    global = name
      ∧ (g.tree.vertexOwner? c name ≠ none ∧ h = g
        ∨ g.tree.vertexOwner? c name = none ∧ lastReservedId < name.id
          ∧ (∃ b, g.tree.find? c = some b) ∧ h = ⟨g.putVertex c name, g.ids.raise name.id⟩) := by
  obtain ⟨hname, hlow, branch, hb, ⟨hv, rfl⟩ | ⟨hnone, -, rfl⟩⟩ := of_addVertexNamed hadd
  · refine ⟨hname, Or.inl ⟨?_, rfl⟩⟩
    rw [Ne, hs.vertexOwner?_eq_none_iff hb, hv]
    exact Option.some_ne_none v
  · exact ⟨hname, Or.inr ⟨(hs.vertexOwner?_eq_none_iff hb).mpr hnone, hlow, ⟨branch, hb⟩, rfl⟩⟩

theorem orderly_addVertexNamed (ho : g.tree.Orderly g.ids.count) (hname : g.Admits c name)
    (hadd : g.addVertexNamed c name = .ok (h, v, global)) : h.tree.Orderly h.ids.count := by
  obtain ⟨-, ⟨-, rfl⟩ | ⟨hnone, hlow, ⟨b, hfind⟩, rfl⟩⟩ :=
    addVertexNamed_cases ho.sound hadd
  · exact ho
  · exact orderly_putVertex ho hfind (hname.resolve_left (not_not.mpr hnone)) hlow
      (IdSource.le_raise ..).2 (IdSource.le_raise ..).1

end Graph

end NestedGraph
