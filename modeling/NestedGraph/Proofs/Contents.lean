import Mathlib.Tactic.Abel
import NestedGraph.Proofs.Carriage
import NestedGraph.Proofs.Growth

/-! # Contents — what is in a tree

    A tree has in it its global edges, its ordinary vertices and its
    clusters, each as often as it is stored.  No change makes anything of
    this disappear, or appear, in silence: what is in the tree afterwards
    and what left it are together what was in it before and what came in. -/

namespace NestedGraph

/-! ## What an edge carries -/

namespace Storage

variable {s : Storage} {e : LocalEdge} {l : Link}

theorem carried_of_link? (hl : s.link? e = some l) : s.carried e = l.record.globals := by
  rw [carried, edgeRecord?, hl]
  rfl

theorem carried_of_dead (he : s.link? e = none) : s.carried e = [] := by
  rw [carried, edgeRecord?, he]
  rfl

theorem globals_load (l : Link) :
    l.load.map (fun entry => entry.2.global) = (l.record.globals : Multiset GlobalEdge) := by
  simp [Link.load, EdgeRecord.globals, Function.comp_def]

/-- An edge that goes takes along what it carries. -/
theorem carries_removeEdge (s : Storage) (e : LocalEdge) :
    (s.removeEdge e).carries.map Prod.snd + (s.carried e : Multiset GlobalEdge)
      = s.carries.map Prod.snd := by
  cases hl : s.link? e with
  | none =>
      rw [carried_of_dead hl, carries_of_edges (SlotStore.erase_of_dead hl)]
      exact add_zero _
  | some l =>
      rw [carried_of_link? hl, ← globals_load, carries, carries, load_removeEdge hl,
        Multiset.map_map, Multiset.map_map, Multiset.map_add, add_comm]
      rfl

/-- What matches is taken off an edge, and nothing else goes. -/
theorem Sound.carries_withdraw (hs : s.Sound) (p : GlobalEdge → Bool) (e : LocalEdge) :
    (s.withdraw p e).carries.map Prod.snd + ((s.carried e).filter p : Multiset GlobalEdge)
      = s.carries.map Prod.snd := by
  cases hl : s.link? e with
  | none =>
      rw [carried_of_dead hl, withdraw_of_dead p hl]
      exact add_zero _
  | some l =>
      have hgone : ((s.carried e).filter p : Multiset GlobalEdge)
          = (s.load.filter (fun entry => entry.1 = l.ends ∧ p entry.2.global = true)).map
              (fun entry => entry.2.global) := by
        have hpart : (l.record.globals.filter p : Multiset GlobalEdge)
            = (l.record.globals : Multiset GlobalEdge).filter (fun g => p g = true) := by simp
        rw [carried_of_link? hl, hpart, ← globals_load, Multiset.filter_map, ← hs.filter_load hl,
          Multiset.filter_filter]
        exact congrArg _ (Multiset.filter_congr (fun _ _ => and_comm))
      rw [hgone, carries, carries, load_withdraw hs p hl, Multiset.map_map, Multiset.map_map,
        add_comm]
      exact (Multiset.map_add ..).symm.trans (congrArg _ (Multiset.filter_add_not ..))

/-- What matches is taken off the edges at a vertex. -/
theorem Sound.carries_withdrawAt (hs : s.Sound) (p : GlobalEdge → Bool) (v : LocalVertex) :
    (s.withdrawAt p v).carries.map Prod.snd + (s.matchingAt p v : Multiset GlobalEdge)
      = s.carries.map Prod.snd := by
  rw [coe_matchingAt hs, carries, carries, load_withdrawAt hs, Multiset.map_map, Multiset.map_map,
    add_comm]
  exact (Multiset.map_add ..).symm.trans (congrArg _ (Multiset.filter_add_not ..))

/-- A vertex that goes takes along what its edges carry. -/
theorem Sound.carries_removeVertex (hs : s.Sound) (v : LocalVertex) :
    (s.removeVertex v).carries.map Prod.snd + (s.carriedAt v : Multiset GlobalEdge)
      = s.carries.map Prod.snd := by
  rw [carriedAt_eq, coe_matchingAt hs, carries, carries, load_removeVertex hs.listed,
    Multiset.map_map, Multiset.map_map, add_comm]
  simp only [and_true]
  exact (Multiset.map_add ..).symm.trans (congrArg _ (Multiset.filter_add_not ..))

end Storage

namespace Node

/-- The names of the vertices on which no cluster hangs. -/
def ordinaries (n : Node) : Multiset GlobalVertex :=
  (n.storage.holds.filter (fun entry => entry.1 ∉ n.entries.map Prod.fst)).map Prod.snd

/-- What can be removed with the cluster itself. -/
def contents (n : Node) : Multiset Removal :=
  (n.storage.carries.map Prod.snd).map .edge + n.ordinaries.map .vertex + {.cluster n.id}

variable {config : Config} {n n' : Node} {u v : LocalVertex} {g : GlobalVertex}

theorem mem_ordinaries : g ∈ n.ordinaries ↔ ∃ u, n.Ordinary u g := by
  rw [ordinaries, Multiset.mem_map]
  constructor
  · rintro ⟨⟨u, g⟩, hu, rfl⟩
    obtain ⟨hu, hkeys⟩ := Multiset.mem_filter.mp hu
    exact ⟨u, Storage.mem_holds.mp hu, hkeys⟩
  · rintro ⟨u, hu, hkeys⟩
    exact ⟨(u, g), Multiset.mem_filter.mpr ⟨Storage.mem_holds.mpr hu, hkeys⟩, rfl⟩

/-- What hangs on a vertex that is not there does not count. -/
theorem filter_holds_congr {s : Storage} {keys keys' : List LocalVertex}
    (hkeys : ∀ u, u ≠ v → (u ∈ keys' ↔ u ∈ keys)) (hv : s.vertex? v = none) :
    s.holds.filter (fun entry => entry.1 ∉ keys') = s.holds.filter (fun entry => entry.1 ∉ keys) := by
  refine Multiset.filter_congr (fun entry hmem => not_congr (hkeys entry.1 ?_))
  intro heq
  have hglobal : s.global? entry.1 = some entry.2 := Storage.mem_holds.mp hmem
  rw [heq, Storage.global?, hv] at hglobal
  cases hglobal

/-- One vertex more or less, with or without a cluster on it. -/
theorem ordinaries_cons (hholds : n'.storage.holds = (v, g) ::ₘ n.storage.holds)
    (hkeys : ∀ u, u ≠ v → (u ∈ n'.entries.map Prod.fst ↔ u ∈ n.entries.map Prod.fst))
    (hv : n.storage.vertex? v = none) :
    n'.ordinaries = (if v ∈ n'.entries.map Prod.fst then 0 else {g}) + n.ordinaries := by
  rw [ordinaries, ordinaries, hholds, ← filter_holds_congr hkeys hv]
  split
  · rename_i hmem
    rw [Multiset.filter_cons_of_neg, zero_add]
    exact not_not.mpr hmem
  · rename_i hmem
    rw [Multiset.filter_cons_of_pos, Multiset.map_cons, Multiset.singleton_add]
    exact hmem

/-! ## Changes of one cluster -/

theorem Restyled.contents (h : n.Restyled n') : n'.contents = n.contents := by
  rw [Node.contents, Node.contents, ordinaries, ordinaries, h.carries, h.holds, h.entries, h.id]

/-- Where vertices stay, only the edges count. -/
theorem contents_of_carries {x y : Multiset GlobalEdge} (hid : n'.id = n.id)
    (hentries : n'.entries = n.entries) (hholds : n'.storage.holds = n.storage.holds)
    (hcarries : n'.storage.carries.map Prod.snd + x = n.storage.carries.map Prod.snd + y) :
    n'.contents + x.map .edge = n.contents + y.map .edge := by
  have hmap := congrArg (Multiset.map Removal.edge) hcarries
  rw [Multiset.map_add, Multiset.map_add] at hmap
  rw [contents, contents, ordinaries, ordinaries, hholds, hentries, hid, add_right_comm,
    add_right_comm _ _ (x.map Removal.edge), hmap]
  abel

theorem Sound.contents_receive (hn : n.Sound config) (r : VertexRecord) :
    (n.receive r none).contents = .vertex r.global ::ₘ n.contents := by
  have hentries : (n.receive r none).entries = n.entries := List.append_nil _
  have hholds : (n.receive r none).storage.holds
      = (n.storage.vertices.nextHandle, r.global) ::ₘ n.storage.holds :=
    Storage.holds_addVertex hn.storage.vertices r
  have hord := ordinaries_cons hholds (fun u _ => by rw [hentries])
    (SlotStore.get?_nextHandle hn.storage.vertices)
  rw [hentries, if_neg hn.nextHandle_notMem] at hord
  rw [contents, contents, hord, carries_receive, id_receive, Multiset.map_add,
    Multiset.map_singleton, ← Multiset.singleton_add]
  abel

/-- A vertex with a cluster on it is no ordinary one. -/
theorem Sound.contents_receive_nested (hn : n.Sound config) (r : VertexRecord) (b : Branch) :
    (n.receive r (some b)).contents = n.contents := by
  have hkeys : (n.receive r (some b)).entries.map Prod.fst
      = n.entries.map Prod.fst ++ [n.storage.vertices.nextHandle] := List.map_append
  have hholds : (n.receive r (some b)).storage.holds
      = (n.storage.vertices.nextHandle, r.global) ::ₘ n.storage.holds :=
    Storage.holds_addVertex hn.storage.vertices r
  have hord := ordinaries_cons hholds (fun u hu => by rw [hkeys]; simp [hu])
    (SlotStore.get?_nextHandle hn.storage.vertices)
  rw [hkeys, if_pos (List.mem_append.mpr (Or.inr (List.mem_singleton_self _))), zero_add] at hord
  rw [contents, contents, hord, carries_receive, id_receive]

theorem mem_keys_cut : u ∈ (n.cut v).entries.map Prod.fst ↔ u ∈ n.entries.map Prod.fst ∧ u ≠ v := by
  simp only [List.mem_map, Prod.exists, exists_and_right, exists_eq_right, mem_entries_cut]

/-- The name of a vertex, if no cluster hangs on it. -/
def ordinaryAt (n : Node) (v : LocalVertex) : List GlobalVertex :=
  if v ∈ n.entries.map Prod.fst then [] else (n.storage.global? v).toList

/-- When a vertex is cut off, it goes with its edges; it is an ordinary one if
    no cluster hangs on it. -/
theorem Sound.contents_cut (hn : n.Sound config) (v : LocalVertex) :
    n.contents = (n.cut v).contents + ((n.storage.carriedAt v).map .edge : List Removal)
      + ((n.ordinaryAt v).map .vertex : List Removal) := by
  have hedges : (n.cut v).storage.carries.map Prod.snd + (n.storage.carriedAt v : Multiset GlobalEdge)
      = n.storage.carries.map Prod.snd := hn.storage.carries_removeVertex v
  have hord : n.ordinaries = (n.ordinaryAt v : Multiset GlobalVertex) + (n.cut v).ordinaries := by
    have hkeys : ∀ u, u ≠ v → (u ∈ n.entries.map Prod.fst ↔ u ∈ (n.cut v).entries.map Prod.fst) :=
      fun u hu => ⟨fun h => mem_keys_cut.mpr ⟨h, hu⟩, fun h => (mem_keys_cut.mp h).1⟩
    have hgone : (n.cut v).storage.vertex? v = none := by
      rw [storage_cut, Storage.vertex?_removeVertex, if_pos rfl]
    cases hv : n.storage.vertex? v with
    | none =>
        -- A handle without a vertex takes nothing along.
        have hholds : (n.cut v).storage.holds = n.storage.holds := Storage.holds_removeVertex_of_dead hv
        rw [ordinaryAt, Storage.global?, hv, Option.map_none, Option.toList_none, ite_self, ordinaries,
          ordinaries, hholds, filter_holds_congr hkeys hv]
        exact (zero_add _).symm
    | some r =>
        have hholds : n.storage.holds = (v, r.global) ::ₘ (n.cut v).storage.holds :=
          Storage.holds_removeVertex hv
        rw [ordinaries_cons hholds hkeys hgone, ordinaryAt, Storage.global?, hv]
        split <;> rfl
  rw [contents, contents, ← hedges, hord, id_cut]
  simp only [Multiset.map_add, Multiset.map_coe]
  abel

end Node

/-! ## What goes with a branch -/

theorem Cluster.coe_removals (k : Cluster) (inside : Forest) :
    (k.removals inside : Multiset Removal) = Node.contents ⟨k, inside.entries⟩ := by
  have hedges : (k.storage.allCarried : Multiset GlobalEdge) = k.storage.carries.map Prod.snd := by
    rw [Storage.coe_allCarried, Storage.carries, Multiset.map_map]
    rfl
  have hvertices : (((k.storage.vertices.entries.filter
        (fun entry => (inside.branchAt? entry.1).isNone)).map (fun entry => .vertex entry.2.global)
        : List Removal) : Multiset Removal)
      = (Node.ordinaries ⟨k, inside.entries⟩).map .vertex := by
    rw [Node.ordinaries, Node.storage, Storage.holds, Multiset.filter_map, Multiset.map_map,
      Multiset.map_map, SlotStore.table, Multiset.filter_coe, Multiset.map_coe]
    refine congrArg _ (congrArg _ (List.filter_congr (fun entry _ => ?_)))
    simp only [Function.comp_apply, ← Forest.branchAt?_eq_none_iff]
    cases inside.branchAt? entry.1 <;> rfl
  rw [removals, ← Multiset.coe_add, ← Multiset.coe_add, hvertices, ← Multiset.map_coe, hedges]
  rfl

theorem Forest.coe_removals (f : Forest) :
    (f.removals : Multiset Removal) = f.nodes.bind Node.contents := by
  induction f with
  | nil => rfl
  | cons v k inside rest ihInside ihRest =>
      rw [removals, ← Multiset.coe_add, ← Multiset.coe_add, ihInside, ihRest, Cluster.coe_removals,
        nodes, Multiset.cons_bind, Multiset.add_bind]
      abel

/-- What goes with a branch is all that is in it. -/
theorem Branch.coe_removals (b : Branch) :
    (b.removals : Multiset Removal) = b.nodes.bind Node.contents := by
  rw [removals, ← Multiset.coe_add, Forest.coe_removals, Cluster.coe_removals, nodes,
    Multiset.cons_bind, add_comm]
  rfl

theorem Branch.coe_removals_nested (nested : Option Branch) :
    ((nested.elim [] removals : List Removal) : Multiset Removal)
      = (nestedNodes nested).bind Node.contents := by
  cases nested with
  | none => rfl
  | some b => exact b.coe_removals

namespace Tree

/-- All that is in the tree. -/
def contents (t : Tree) : Multiset Removal := t.nodes.bind Node.contents

variable {t t' : Tree} {c d : ClusterId} {v : LocalVertex} {b : Branch}

theorem Restyled.contents (h : t.Restyled t') : t'.contents = t.contents := by
  obtain ⟨f, hf, hstyle⟩ := h
  rw [Tree.contents, hf, Multiset.bind_map]
  exact Multiset.bind_congr (fun n hn => (hstyle n hn).contents)

/-! ## Vertices that go over -/

/-- A vertex that goes over is ordinary before when it is afterwards. -/
theorem Handover.ordinaries {giver taker giver' taker' : Node} {w nw : LocalVertex}
    (h : t.Handover t' giver taker giver' taker' w nw) :
    giver'.ordinaries + taker'.ordinaries = giver.ordinaries + taker.ordinaries := by
  obtain ⟨g, hgiver, htaker⟩ := h.exists_name
  have hkeys : ∀ u, u ≠ w → (u ∈ giver.entries.map Prod.fst ↔ u ∈ giver'.entries.map Prod.fst) := by
    intro u hu
    simp only [List.mem_map, Prod.exists, exists_and_right, exists_eq_right, h.giverEntries]
    tauto
  have hkeys' : ∀ u, u ≠ nw → (u ∈ taker'.entries.map Prod.fst ↔ u ∈ taker.entries.map Prod.fst) := by
    intro u hu
    simp only [List.mem_map, Prod.exists, exists_and_right, exists_eq_right, h.takerEntries]
    tauto
  have hmoved : nw ∈ taker'.entries.map Prod.fst ↔ w ∈ giver.entries.map Prod.fst := by
    simp only [List.mem_map, Prod.exists, exists_and_right, exists_eq_right, h.takerEntries,
      h.notMem_taker, false_or, true_and]
  have hgone : giver'.storage.vertex? w = none := (h.giverVertex w).trans (if_pos rfl)
  rw [Node.ordinaries_cons hgiver hkeys hgone, Node.ordinaries_cons htaker hkeys' h.fresh]
  by_cases hw : w ∈ giver.entries.map Prod.fst
  · rw [if_pos hw, if_pos (hmoved.mpr hw), zero_add, zero_add]
  · rw [if_neg hw, if_neg (fun hmem => hw (hmoved.mp hmem))]
    abel

/-- A handover keeps the contents if it keeps the edges of the two
    clusters. -/
theorem Handover.contents {giver taker giver' taker' : Node} {w nw : LocalVertex}
    (h : t.Handover t' giver taker giver' taker' w nw)
    (hcarries : giver'.storage.carries.map Prod.snd + taker'.storage.carries.map Prod.snd
      = giver.storage.carries.map Prod.snd + taker.storage.carries.map Prod.snd) :
    t'.contents = t.contents := by
  obtain ⟨rest, hnodes, hnodes'⟩ := h.others
  have hedges := congrArg (Multiset.map Removal.edge) hcarries
  have hvertices := congrArg (Multiset.map Removal.vertex) h.ordinaries
  rw [Multiset.map_add, Multiset.map_add] at hedges hvertices
  have hpair : giver'.contents + taker'.contents = giver.contents + taker.contents := by
    rw [Node.contents, Node.contents, Node.contents, Node.contents, h.giverId, h.takerId,
      add_add_add_comm, add_add_add_comm (Multiset.map Removal.edge _), hedges, hvertices]
    abel
  rw [Tree.contents, Tree.contents, hnodes, hnodes', Multiset.cons_bind, Multiset.cons_bind,
    Multiset.cons_bind, Multiset.cons_bind, ← add_assoc, ← add_assoc, hpair]

/-! ## Changes in place -/

/-- Where vertices stay, a cluster that is changed in place changes the
    contents by its edges. -/
theorem Distinct.contents_mapCluster (hd : t.Distinct) {n : Node} (hn : n ∈ t.nodes)
    {f : Cluster → Cluster} (hid : (f n.cluster).id = n.id)
    (hholds : (f n.cluster).storage.holds = n.storage.holds) {x y : Multiset GlobalEdge}
    (hcarries : (f n.cluster).storage.carries.map Prod.snd + x
      = n.storage.carries.map Prod.snd + y) :
    (t.mapCluster n.id f).contents + x.map .edge = t.contents + y.map .edge := by
  obtain ⟨rest, hrest⟩ := nodes_cons_of_mem hn
  have hnode : Node.contents ⟨f n.cluster, n.entries⟩ + x.map .edge = n.contents + y.map .edge :=
    Node.contents_of_carries hid rfl hholds hcarries
  rw [contents, contents, hd.nodes_mapCluster_cons hrest hid, hrest, Multiset.cons_bind,
    Multiset.cons_bind, add_right_comm, hnode, add_right_comm]

theorem Sound.contents_attach (hs : t.Sound) (hc : c ∈ t.ids) (a a' : LocalVertex)
    (properties : List Value) (x : CarriedEdge) :
    (t.mapStorage c (fun s => s.attach a a' properties [x])).contents
      = .edge x.global ::ₘ t.contents := by
  obtain ⟨n, hn, rfl⟩ := Multiset.mem_map.mp hc
  have hcarries : (n.storage.attach a a' properties [x]).carries.map Prod.snd + 0
      = n.storage.carries.map Prod.snd + {x.global} := by
    rw [Storage.carries, Storage.carries, Storage.load_attach (hs.nodes n hn).storage.listed,
      Multiset.map_add, Multiset.map_add, add_zero]
    rfl
  have hstep := hs.distinct.contents_mapCluster hn
    (f := fun k => { k with storage := k.storage.attach a a' properties [x] }) rfl
    (Storage.holds_of_vertices (Storage.vertices_attach ..)) hcarries
  rw [Multiset.map_zero, add_zero, Multiset.map_singleton, add_comm, Multiset.singleton_add] at hstep
  exact hstep

theorem Distinct.contents_removeEdge (hd : t.Distinct) (hb : t.find? c = some b) (e : LocalEdge) :
    (t.mapStorage c (fun s => s.removeEdge e)).contents
      + ((b.cluster.storage.carried e).map .edge : List Removal) = t.contents := by
  obtain rfl := id_of_find? hb
  have hstep := hd.contents_mapCluster (node_mem_of_find? hb)
    (f := fun k => { k with storage := k.storage.removeEdge e }) rfl
    (Storage.holds_of_vertices rfl)
    ((Storage.carries_removeEdge b.node.storage e).trans (add_zero _).symm)
  rw [Multiset.map_zero, add_zero] at hstep
  exact hstep

theorem Sound.contents_withdraw (hs : t.Sound) (p : GlobalEdge → Bool) (c : ClusterId)
    (e : LocalEdge) :
    (t.mapStorage c (fun s => s.withdraw p e)).contents
      + (((t.carried c e).filter p).map .edge : List Removal) = t.contents := by
  by_cases hc : c ∈ t.ids
  · obtain ⟨n, hn, rfl⟩ := Multiset.mem_map.mp hc
    have hcarried : t.carried n.id e = n.storage.carried e := by
      rw [carried, hs.distinct.storage?_of_mem hn]
    have hstep := hs.distinct.contents_mapCluster hn
      (f := fun k => { k with storage := k.storage.withdraw p e }) rfl
      (Storage.holds_of_vertices (Storage.vertices_withdraw ..))
      (((hs.nodes n hn).storage.carries_withdraw p e).trans (add_zero _).symm)
    rw [Multiset.map_zero, add_zero] at hstep
    rw [hcarried]
    exact hstep
  · have hnone : t.carried c e = [] := by
      rw [carried, storage?_of_dead hc]
    rw [hnone, Tree.mapStorage, update_of_dead _ hc]
    exact add_zero _

/-! ## Vertices that come and go -/

theorem Sound.contents_receive (hs : t.Sound) (hc : c ∈ t.ids) (r : VertexRecord) :
    (t.receive c r none).contents = .vertex r.global ::ₘ t.contents := by
  obtain ⟨n, hn, rfl⟩ := Multiset.mem_map.mp hc
  obtain ⟨rest, hrest⟩ := nodes_cons_of_mem hn
  rw [contents, contents, hs.distinct.nodes_receive hrest, hrest, Multiset.cons_bind,
    Multiset.cons_bind, (hs.nodes n hn).contents_receive, Multiset.cons_add, nestedNodes, zero_add]

/-- A new cluster comes without content, on a vertex that is not ordinary. -/
theorem Sound.contents_receive_cluster (hs : t.Sound) (hc : c ∈ t.ids) (r : VertexRecord)
    (config : Config) (d : ClusterId) :
    (t.receive c r (some ⟨config.newCluster d, .nil⟩)).contents = .cluster d ::ₘ t.contents := by
  obtain ⟨n, hn, rfl⟩ := Multiset.mem_map.mp hc
  obtain ⟨rest, hrest⟩ := nodes_cons_of_mem hn
  have hnew : Node.contents ⟨config.newCluster d, []⟩ = {.cluster d} := rfl
  rw [contents, contents, hs.distinct.nodes_receive hrest, hrest, Multiset.cons_bind,
    Multiset.cons_bind, (hs.nodes n hn).contents_receive_nested, nestedNodes_newCluster,
    Multiset.add_bind, Multiset.singleton_bind, hnew, add_left_comm, Multiset.singleton_add]

/-! ## Edges above a cluster -/

/-- The matching edges on the vertex that a step of a way up names. -/
def matchingOn (p : GlobalEdge → Bool) (t : Tree) (step : ClusterId × LocalVertex) :
    List GlobalEdge :=
  match t.storage? step.1 with
  | some s => s.matchingAt p step.2
  | none => []

/-- What matches elsewhere is not changed with a cluster. -/
theorem Distinct.flatMap_matchingOn_mapCluster (hd : t.Distinct) (p : GlobalEdge → Bool)
    {f : Cluster → Cluster} (hf : ∀ k : Cluster, (f k).id = k.id)
    {steps : List (ClusterId × LocalVertex)} (hc : c ∉ steps.map Prod.fst) :
    steps.flatMap ((t.mapCluster c f).matchingOn p) = steps.flatMap (t.matchingOn p) := by
  refine List.flatMap_congr (fun step hstep => ?_)
  have hne : step.1 ≠ c := by
    rintro rfl
    exact hc (List.mem_map_of_mem hstep)
  rw [matchingOn, matchingOn, hd.storage?_mapCluster hf hne]

/-- One step of a withdrawal takes what matches there. -/
theorem Sound.contents_withdrawAt (hs : t.Sound) (p : GlobalEdge → Bool)
    (step : ClusterId × LocalVertex) :
    (t.mapCluster step.1 (Cluster.withdrawAt t.config p step.2)).contents
      + ((t.matchingOn p step).map .edge : List Removal) = t.contents := by
  by_cases hc : step.1 ∈ t.ids
  · obtain ⟨n, hn, hid⟩ := Multiset.mem_map.mp hc
    have hcarries : (n.cluster.withdrawAt t.config p step.2).storage.carries.map Prod.snd
        + (n.storage.matchingAt p step.2 : Multiset GlobalEdge)
        = n.storage.carries.map Prod.snd + 0 := by
      rw [Cluster.storage_withdrawAt, add_zero]
      exact (hs.nodes n hn).storage.carries_withdrawAt p step.2
    have hstep := hs.distinct.contents_mapCluster hn (Cluster.id_withdrawAt ..)
      ((congrArg Storage.holds (Cluster.storage_withdrawAt ..)).trans
        (Storage.holds_of_vertices (Storage.vertices_withdrawAt ..))) hcarries
    rw [matchingOn, ← hid, hs.distinct.storage?_of_mem hn]
    rw [Multiset.map_zero, add_zero] at hstep
    exact hstep
  · rw [matchingOn, storage?_of_dead hc, Tree.mapCluster, update_of_dead _ hc]
    exact add_zero _

/-- A withdrawal along a way up takes what matches on it, by induction on the
    way: no cluster is passed twice, so what is taken from one does not
    change what matches in the others. -/
theorem Sound.contents_foldl_withdrawAt (hs : t.Sound) (p : GlobalEdge → Bool)
    {steps : List (ClusterId × LocalVertex)} (hsteps : (steps.map Prod.fst).Nodup) :
    (steps.foldl (fun t step => t.mapCluster step.1 (Cluster.withdrawAt t.config p step.2)) t).contents
      + ((steps.flatMap (t.matchingOn p)).map .edge : List Removal) = t.contents := by
  induction steps generalizing t with
  | nil => exact add_zero _
  | cons step rest ih =>
      rw [List.map_cons, List.nodup_cons] at hsteps
      have hid := Cluster.id_withdrawAt t.config p step.2
      have hone := hs.contents_withdrawAt p step
      have hrest := ih (hs.withdrawStep p step) hsteps.2
      rw [hs.distinct.flatMap_matchingOn_mapCluster p hid hsteps.1] at hrest
      rw [← hone, ← hrest, List.foldl_cons, List.flatMap_cons, List.map_append, ← Multiset.coe_add,
        add_right_comm, add_assoc]

theorem Sound.contents_withdrawAbove (hs : t.Sound) (p : GlobalEdge → Bool) (c : ClusterId) :
    (t.withdrawAbove p c).contents + ((t.matchingAbove p c).map .edge : List Removal)
      = t.contents := hs.contents_foldl_withdrawAt p (hs.distinct.nodup_path c)

/-! ## Vertices that are discarded -/

/-- The name of a vertex of a cluster, if no cluster hangs on it. -/
def ordinaryAt (t : Tree) (c : ClusterId) (v : LocalVertex) : List GlobalVertex :=
  if t.isClusterVertex c v then [] else (t.global? c v).toList

theorem Distinct.ordinaryAt_of_mem (hd : t.Distinct) {n : Node} (hn : n ∈ t.nodes)
    (v : LocalVertex) : t.ordinaryAt n.id v = n.ordinaryAt v := by
  rw [ordinaryAt, Node.ordinaryAt, hd.global?_of_mem hn]
  exact if_congr (hd.isClusterVertex_iff hn v) rfl rfl

/-- Cutting off a vertex takes the branch on it, its edges, and the vertex. -/
theorem Sound.contents_cutAt (hs : t.Sound) (hb : t.find? b.cluster.id = some b) (v : LocalVertex) :
    t.contents = (t.cutAt b.cluster.id v).contents
      + (nestedNodes (b.inside.branchAt? v)).bind Node.contents
      + ((b.cluster.storage.carriedAt v).map .edge : List Removal)
      + ((t.ordinaryAt b.cluster.id v).map .vertex : List Removal) := by
  obtain ⟨rest, hnodes, hcut⟩ := hs.nodes_cutAt hb v
  have hmem := node_mem_of_find? hb
  have hordinary : t.ordinaryAt b.cluster.id v = b.node.ordinaryAt v :=
    hs.distinct.ordinaryAt_of_mem hmem v
  rw [contents, contents, hnodes, hcut, Multiset.cons_bind, Multiset.cons_bind, Multiset.add_bind,
    (hs.nodes _ hmem).contents_cut v, hordinary, show b.node.storage = b.cluster.storage from rfl]
  abel

/-- Cutting off a vertex of a cluster does not change what matches above. -/
theorem Sound.matchingAbove_cutAt (hs : t.Sound) (hb : t.find? b.cluster.id = some b)
    (v : LocalVertex) (p : GlobalEdge → Bool) :
    (t.cutAt b.cluster.id v).matchingAbove p b.cluster.id = t.matchingAbove p b.cluster.id := by
  have hcut := hs.cutAt b.cluster.id v
  obtain ⟨rest, hnodes, hnodes'⟩ := hs.nodes_cutAt hb v
  show ((t.cutAt b.cluster.id v).path b.cluster.id).flatMap _ = (t.path b.cluster.id).flatMap _
  rw [hs.path_cutAt hb v]
  refine List.flatMap_congr (fun step hstep => ?_)
  -- What is passed on the way up is not the cluster itself, nor anything cut off.
  have hmem : (step.1, step.2) ∈ (t.cutAt b.cluster.id v).path b.cluster.id := by
    rw [hs.path_cutAt hb v]
    exact hstep
  obtain ⟨n, hn, hid, -⟩ := hcut.distinct.exists_child_of_mem_path hmem
  have hrest : n ∈ t.nodes := by
    rw [hnodes', Multiset.mem_cons] at hn
    rcases hn with rfl | hn
    · have hself : b.cluster.id = step.1 := hid
      rw [← hself] at hmem
      exact absurd (hcut.distinct.length_path_lt hmem) (Nat.lt_irrefl _)
    · rw [hnodes]
      exact Multiset.mem_cons_of_mem (Multiset.mem_add.mpr (Or.inr hn))
  rw [← hid, hcut.distinct.storage?_of_mem hn, hs.distinct.storage?_of_mem hrest]

theorem discard_of_find? (hb : t.find? c = some b) (v : LocalVertex) :
    t.discard c v
      = (((t.cutAt c v).withdrawAbove (GlobalEdge.touches (b.travelling v)) c).mark c,
        (b.inside.branchAt? v).elim [] Branch.removals
          ++ (b.cluster.storage.carriedAt v
            ++ t.matchingAbove (GlobalEdge.touches (b.travelling v)) c).map .edge) := by
  rw [discard, hb]
  dsimp only
  cases b.inside.branchAt? v <;> rfl

/-- What is taken out with a vertex is reported, apart from the vertex itself
    where it is an ordinary one. -/
theorem Sound.contents_discard (hs : t.Sound) (c : ClusterId) (v : LocalVertex) :
    t.contents = (t.discard c v).1.contents + ((t.discard c v).2 : Multiset Removal)
      + ((t.ordinaryAt c v).map .vertex : List Removal) := by
  cases hb : t.find? c with
  | none =>
      have hordinary : t.ordinaryAt c v = [] := by
        rw [ordinaryAt, global?, storage?, hb]
        exact ite_self _
      rw [hordinary, discard, hb]
      exact ((add_zero _).trans (add_zero _)).symm
  | some b =>
      obtain rfl := id_of_find? hb
      have hcut := hs.cutAt b.cluster.id v
      have habove := hcut.contents_withdrawAbove (GlobalEdge.touches (b.travelling v)) b.cluster.id
      have hmark := ((hcut.withdrawAbove (GlobalEdge.touches (b.travelling v))
        b.cluster.id).distinct.restyled_mark b.cluster.id).contents
      rw [hs.matchingAbove_cutAt hb v] at habove
      rw [hs.contents_cutAt hb v, ← habove, ← hmark, discard_of_find? hb, ← Branch.coe_removals_nested,
        List.map_append, ← Multiset.coe_add, ← Multiset.coe_add]
      abel

/-- Taking a vertex out of a cluster takes what hangs on it off, and nothing else
    that hangs there. -/
theorem Sound.exists_node_discard (hs : t.Sound) (hb : t.find? b.cluster.id = some b)
    (v : LocalVertex) : ∃ n ∈ (t.discard b.cluster.id v).1.nodes,
      n.id = b.cluster.id ∧ n.entries = (b.node.cut v).entries := by
  have hcut := hs.cutAt b.cluster.id v
  have habove := hcut.withdrawAbove (GlobalEdge.touches (b.travelling v)) b.cluster.id
  obtain ⟨rest, -, hnodes⟩ := hs.nodes_cutAt hb v
  obtain ⟨f, hf, hlight⟩ :=
    hcut.lighter_withdrawAbove (GlobalEdge.touches (b.travelling v)) b.cluster.id
  obtain ⟨f', hf', hstyle⟩ := habove.distinct.restyled_mark b.cluster.id
  have hcutMem : b.node.cut v ∈ (t.cutAt b.cluster.id v).nodes :=
    hnodes ▸ Multiset.mem_cons_self ..
  have haboveMem := hf ▸ Multiset.mem_map_of_mem f hcutMem
  rw [discard, hb]
  exact ⟨f' (f (b.node.cut v)), hf' ▸ Multiset.mem_map_of_mem f' haboveMem,
    (hstyle _ haboveMem).id.trans (hlight _ hcutMem).id,
    (hstyle _ haboveMem).entries.trans (hlight _ hcutMem).entries⟩

/-- What hangs on the other vertices stays. -/
theorem Sound.mem_children_discard (hs : t.Sound) {w : LocalVertex} (hne : w ≠ v) {d : ClusterId}
    (hw : (w, d) ∈ t.children c) : (w, d) ∈ (t.discard c v).1.children c := by
  cases hb : t.find? c with
  | none => rwa [discard, hb]
  | some b =>
      obtain rfl := id_of_find? hb
      obtain ⟨n, hn, hid, hentries⟩ := hs.exists_node_discard hb v
      rw [← hid, (hs.becomes_discard ..).sound.distinct.children_of_mem (hid ▸ hn), hentries]
      rw [children_of_find? hb] at hw
      exact Node.mem_entries_cut.mpr ⟨hw, hne⟩

theorem Sound.isClusterVertex_discard (hs : t.Sound) {w : LocalVertex} (hne : w ≠ v)
    (hw : t.isClusterVertex c w = true) : (t.discard c v).1.isClusterVertex c w = true := by
  cases hb : t.find? c with
  | none => rwa [discard, hb]
  | some b =>
      obtain rfl := id_of_find? hb
      obtain ⟨n, hn, hid, hentries⟩ := hs.exists_node_discard hb v
      have hkey := (hs.becomes_discard b.cluster.id v).sound.distinct.isClusterVertex_iff hn w
      rw [hid, hentries, Node.mem_keys_cut] at hkey
      exact hkey.mpr ⟨(hs.distinct.isClusterVertex_iff (node_mem_of_find? hb) w).mp hw, hne⟩

/-- Where clusters hang on all the vertices, everything that is taken out with
    them is reported. -/
theorem Sound.contents_discardAll (hs : t.Sound) {vs : List LocalVertex} (hvs : vs.Nodup)
    (hcluster : ∀ v ∈ vs, t.isClusterVertex c v = true) :
    t.contents = (t.discardAll c vs).1.contents + ((t.discardAll c vs).2 : Multiset Removal) := by
  induction vs generalizing t with
  | nil => exact (add_zero _).symm
  | cons v rest ih =>
      rw [List.nodup_cons] at hvs
      have hv := hcluster v (List.mem_cons_self ..)
      have hrest := ih (hs.becomes_discard c v).sound hvs.2 (fun w hw =>
        hs.isClusterVertex_discard (fun heq => hvs.1 (heq ▸ hw))
          (hcluster w (List.mem_cons_of_mem _ hw)))
      have hfirst := hs.contents_discard c v
      rw [ordinaryAt, if_pos hv, List.map_nil, Multiset.coe_nil, add_zero, hrest] at hfirst
      rw [hfirst, discardAll, ← Multiset.coe_add]
      abel

end Tree

end NestedGraph
