import NestedGraph.Proofs.Lookup
import NestedGraph.Tree.Replica

/-! # Names — what a cluster holds and what it carries

    To a cluster belong the names that it HOLDS, those of its vertices,
    and the global edges that it CARRIES between two of them.  No two of
    all these names in a tree are the same when no id was given out twice;
    then a name says where it is. -/

namespace NestedGraph

namespace Storage

/-- The vertices with their global names. -/
def holds (s : Storage) : Multiset (LocalVertex × GlobalVertex) :=
  s.vertices.table.map (fun entry => (entry.1, entry.2.global))

/-- The global edges, each with the ends of the edge that carries it. -/
def carries (s : Storage) : Multiset (Sym2 LocalVertex × GlobalEdge) :=
  s.load.map (fun entry => (entry.1, entry.2.global))

/-- The ids of all vertices and of all global edges. -/
def names (s : Storage) : Multiset UInt64 :=
  s.holds.map (fun entry => entry.2.id) + s.carries.map (fun entry => entry.2.id)

theorem mem_holds {s : Storage} {v : LocalVertex} {g : GlobalVertex} :
    (v, g) ∈ s.holds ↔ s.global? v = some g := by
  rw [holds, Multiset.mem_map, global?, Option.map_eq_some_iff]
  constructor
  · rintro ⟨⟨w, r⟩, hr, heq⟩
    obtain ⟨rfl, rfl⟩ := Prod.mk.inj heq
    exact ⟨r, SlotStore.mem_table.mp hr, rfl⟩
  · rintro ⟨r, hr, rfl⟩
    exact ⟨(v, r), SlotStore.mem_table.mpr hr, rfl⟩

theorem mem_carries {s : Storage} {z : Sym2 LocalVertex} {g : GlobalEdge} :
    (z, g) ∈ s.carries ↔ ∃ x, (z, x) ∈ s.load ∧ x.global = g := by
  rw [carries, Multiset.mem_map]
  constructor
  · rintro ⟨⟨z, x⟩, hx, heq⟩
    obtain ⟨rfl, rfl⟩ := Prod.mk.inj heq
    exact ⟨x, hx, rfl⟩
  · rintro ⟨x, hx, rfl⟩
    exact ⟨(z, x), hx, rfl⟩

theorem coe_ids (s : Storage) : (s.ids : Multiset UInt64) = s.names := by
  rw [ids, ← Multiset.coe_add, ← Multiset.map_coe, ← Multiset.map_coe, coe_allCarried, globals,
    ← Multiset.map_coe, SlotStore.coe_values, names, holds, carries]
  simp only [Multiset.map_map, Function.comp_def]

/-! ## What changes do to them -/

theorem holds_of_vertices {s s' : Storage} (h : s'.vertices = s.vertices) : s'.holds = s.holds := by
  rw [holds, holds, h]

theorem carries_of_edges {s s' : Storage} (h : s'.edges = s.edges) : s'.carries = s.carries := by
  rw [carries, carries, load, load, h]

theorem holds_addVertex {s : Storage} (hs : s.vertices.Tidy) (r : VertexRecord) :
    (s.addVertex r).holds = (s.vertices.nextHandle, r.global) ::ₘ s.holds := by
  show (s.vertices.insert r).table.map _ = _
  rw [SlotStore.table_insert hs, Multiset.map_cons]
  rfl

theorem holds_removeVertex {s : Storage} {v : LocalVertex} {r : VertexRecord}
    (hr : s.vertex? v = some r) : s.holds = (v, r.global) ::ₘ (s.removeVertex v).holds := by
  have hvertices : (s.removeVertex v).vertices = s.vertices.erase v :=
    congrArg (fun store => store.erase v) (vertices_foldl_removeEdge s (s.incident v))
  rw [holds, holds, hvertices, SlotStore.table_erase hr, Multiset.map_cons]

theorem holds_removeVertex_of_dead {s : Storage} {v : LocalVertex} (hv : s.vertex? v = none) :
    (s.removeVertex v).holds = s.holds := by
  refine holds_of_vertices ?_
  show ((s.incident v).foldl removeEdge s).vertices.erase v = _
  rw [vertices_foldl_removeEdge, SlotStore.erase_of_dead hv]

theorem holds_modifyVertex (s : Storage) (v : LocalVertex) {f : VertexRecord → VertexRecord}
    (hf : ∀ r, (f r).global = r.global) : (s.modifyVertex v f).holds = s.holds := by
  show (s.vertices.modify v f).table.map _ = s.vertices.table.map _
  cases hv : s.vertices.get? v with
  | none => rw [SlotStore.modify_of_dead f hv]
  | some r =>
      rw [SlotStore.table_modify f hv, SlotStore.table_erase hv, Multiset.map_cons,
        Multiset.map_cons, hf]

theorem carries_modifyEdge (s : Storage) (e : LocalEdge) {f : EdgeRecord → EdgeRecord}
    (hf : ∀ r, (f r).globals = r.globals) : (s.modifyEdge e f).carries = s.carries := by
  cases he : s.link? e with
  | none =>
      refine carries_of_edges ?_
      exact SlotStore.modify_of_dead _ he
  | some l =>
      have hload : ∀ r : EdgeRecord, ((⟨l.first, l.second, r⟩ : Link).load).map
          (fun entry => (entry.1, entry.2.global)) = (r.globals : Multiset GlobalEdge).map
            (fun g => (l.ends, g)) := by
        intro r
        rw [Link.load, Multiset.map_map, EdgeRecord.globals, ← Multiset.map_coe, Multiset.map_map]
        rfl
      rw [carries, carries, load_modifyEdge he, load_removeEdge he, Multiset.map_add,
        Multiset.map_add, hload (f l.record), hf, ← hload l.record]

/-- A storage that carries a part of what another carries. -/
theorem carries_of_load_filter {s s' : Storage} {q : Sym2 LocalVertex × CarriedEdge → Prop}
    [DecidablePred q] (h : s'.load = s.load.filter q) : s'.carries ≤ s.carries := by
  rw [carries, carries, h]
  exact Multiset.map_le_map (Multiset.filter_le ..)

end Storage

theorem bind_le_bind {α β : Type} {s : Multiset α} {f g : α → Multiset β}
    (h : ∀ a ∈ s, f a ≤ g a) : s.bind f ≤ s.bind g := by
  induction s using Multiset.induction_on with
  | empty => exact le_refl _
  | cons a s ih =>
      rw [Multiset.cons_bind, Multiset.cons_bind]
      exact add_le_add (h a (Multiset.mem_cons_self ..))
        (ih (fun b hb => h b (Multiset.mem_cons_of_mem hb)))

/-! ## Names in a tree -/

namespace Tree

/-- The ids of all vertices and of all global edges of a tree. -/
def names (t : Tree) : List UInt64 := t.clusters.flatMap (fun k => k.storage.ids)

theorem coe_names (t : Tree) :
    (t.names : Multiset UInt64) = t.nodes.bind (fun n => n.storage.names) := by
  rw [names, ← Multiset.coe_bind, clusters, Branch.coe_clusters, Multiset.bind_map]
  exact Multiset.bind_congr (fun n _ => Storage.coe_ids n.storage)

/-- No two names of a tree are the same, and each is one that a source that
    reached `count` has given out. -/
structure Named (t : Tree) (count : UInt64) : Prop where
  nodup : t.names.Nodup
  bound : ∀ id ∈ t.names, lastReservedId < id ∧ id ≤ count
  reserved : lastReservedId ≤ count

variable {t : Tree} {count : UInt64} {n m : Node}

theorem nodup_names_iff : t.names.Nodup ↔ (t.nodes.bind (fun n => n.storage.names)).Nodup := by
  rw [← Multiset.coe_nodup, coe_names]

theorem mem_names_iff {id : UInt64} : id ∈ t.names ↔ ∃ n ∈ t.nodes, id ∈ n.storage.names := by
  rw [← Multiset.mem_coe, coe_names, Multiset.mem_bind]

/-- The names of some of the clusters. -/
theorem Named.nodup_of_le (h : t.Named count) {ns : Multiset Node} (hle : ns ≤ t.nodes) :
    (ns.bind (fun n => n.storage.names)).Nodup := by
  obtain ⟨rest, hrest⟩ := Multiset.le_iff_exists_add.mp hle
  have hnodup := nodup_names_iff.mp h.nodup
  rw [hrest, Multiset.add_bind, Multiset.nodup_add] at hnodup
  exact hnodup.1

theorem mem_names_of_le {ns : Multiset Node} (hle : ns ≤ t.nodes) {id : UInt64}
    (hid : id ∈ ns.bind (fun n => n.storage.names)) : id ∈ t.names := by
  obtain ⟨n, hn, hid⟩ := Multiset.mem_bind.mp hid
  exact mem_names_iff.mpr ⟨n, Multiset.mem_of_le hle hn, hid⟩

/-- What has fewer names is named as well. -/
theorem Named.of_le {t' : Tree} {count' : UInt64} (h : t.Named count)
    (hle : t'.nodes.bind (fun n => n.storage.names) ≤ t.nodes.bind (fun n => n.storage.names))
    (hcount : count ≤ count') : t'.Named count' := by
  refine ⟨nodup_names_iff.mpr (Multiset.nodup_of_le hle (nodup_names_iff.mp h.nodup)),
    fun id hid => ?_, UInt64.le_trans h.reserved hcount⟩
  have hmem : id ∈ t.names := by
    rw [← Multiset.mem_coe, coe_names] at hid ⊢
    exact Multiset.mem_of_le hle hid
  exact ⟨(h.bound id hmem).1, UInt64.le_trans (h.bound id hmem).2 hcount⟩

/-- A name is in one cluster only. -/
theorem Named.eq_of_mem_names (h : t.Named count) (hn : n ∈ t.nodes) (hm : m ∈ t.nodes)
    {id : UInt64} (hnid : id ∈ n.storage.names) (hmid : id ∈ m.storage.names) : n = m := by
  by_contra hne
  obtain ⟨rest, hrest⟩ := Multiset.exists_cons_of_mem hn
  have hm : m ∈ rest := by
    rw [hrest, Multiset.mem_cons] at hm
    exact hm.resolve_left (Ne.symm hne)
  have hnodup := nodup_names_iff.mp h.nodup
  rw [hrest, Multiset.cons_bind, Multiset.nodup_add] at hnodup
  exact Multiset.disjoint_left.mp hnodup.2.2 hnid (Multiset.mem_bind.mpr ⟨m, hm, hmid⟩)

theorem Named.nodup_node (h : t.Named count) (hn : n ∈ t.nodes) : n.storage.names.Nodup := by
  obtain ⟨rest, hrest⟩ := Multiset.exists_cons_of_mem hn
  have hnodup := nodup_names_iff.mp h.nodup
  rw [hrest, Multiset.cons_bind, Multiset.nodup_add] at hnodup
  exact hnodup.1

/-- A global name is that of one vertex of one cluster. -/
theorem Named.eq_of_global? (h : t.Named count) (hn : n ∈ t.nodes) (hm : m ∈ t.nodes)
    {u w : LocalVertex} {g : GlobalVertex} (hu : n.storage.global? u = some g)
    (hw : m.storage.global? w = some g) : n = m ∧ u = w := by
  have hmem : ∀ {k : Node} {x : LocalVertex}, k.storage.global? x = some g →
      g.id ∈ k.storage.names := fun hx => Multiset.mem_add.mpr
    (Or.inl (Multiset.mem_map.mpr ⟨_, Storage.mem_holds.mpr hx, rfl⟩))
  obtain rfl := h.eq_of_mem_names hn hm (hmem hu) (hmem hw)
  refine ⟨rfl, ?_⟩
  have hnodup := h.nodup_node hn
  rw [Storage.names, Multiset.nodup_add] at hnodup
  have heq := Multiset.inj_on_of_nodup_map hnodup.1 _ (Storage.mem_holds.mpr hu) _
    (Storage.mem_holds.mpr hw) rfl
  exact congrArg Prod.fst heq

/-- A global edge is carried once. -/
theorem Named.eq_of_mem_carries (h : t.Named count) (hn : n ∈ t.nodes) (hm : m ∈ t.nodes)
    {z z' : Sym2 LocalVertex} {g g' : GlobalEdge} (hz : (z, g) ∈ n.storage.carries)
    (hz' : (z', g') ∈ m.storage.carries) (hid : g.id = g'.id) : n = m ∧ z = z' ∧ g = g' := by
  have hmem : g.id ∈ n.storage.names := Multiset.mem_add.mpr
    (Or.inr (Multiset.mem_map.mpr ⟨_, hz, rfl⟩))
  have hmem' : g.id ∈ m.storage.names := Multiset.mem_add.mpr
    (Or.inr (Multiset.mem_map.mpr ⟨_, hz', hid.symm⟩))
  obtain rfl := h.eq_of_mem_names hn hm hmem hmem'
  have hnodup := h.nodup_node hn
  rw [Storage.names, Multiset.nodup_add] at hnodup
  have heq := Multiset.inj_on_of_nodup_map hnodup.2.1 _ hz _ hz' hid
  exact ⟨rfl, Prod.mk.inj heq⟩

end Tree

end NestedGraph
