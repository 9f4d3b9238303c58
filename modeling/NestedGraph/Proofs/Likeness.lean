import NestedGraph.Proofs.Placement
import NestedGraph.Proofs.Transplant

/-! # Likeness — what stands in a copy

    A copy has the names of its source, no more and no fewer.  What stands
    on a vertex of the source stands on the copy of that vertex, however
    far inside it is stored; so edges of the copy are where they belong,
    as they were in the source. -/

namespace NestedGraph

variable {σ : Type} {cloner : Cloner σ}

/-! ## Names of a copy -/

namespace Storage

variable {names : Renaming} {s s' : Storage}

theorem map_eq_of_forall₂ {α β : Type} {R : α → α → Prop} {f : α → β} {l l' : List α}
    (h : List.Forall₂ R l l') (hf : ∀ a b, R a b → f b = f a) : l'.map f = l.map f := by
  induction h with
  | nil => rfl
  | cons hr _ ih => rw [List.map_cons, List.map_cons, ih, hf _ _ hr]

theorem Copies.names_eq (h : s.Copies cloner names s') : s'.names = s.names := by
  have hglobals : s'.globals = s.globals := by
    rw [globals, globals, SlotStore.values, SlotStore.values, List.map_map, List.map_map]
    refine map_eq_of_forall₂ h.vertices (fun a b hab => ?_)
    obtain ⟨state, hr⟩ := hab
    show b.2.global = a.2.global
    rw [hr]
  have hcarried : s'.allCarried = s.allCarried := by
    rw [allCarried, allCarried, List.flatMap, List.flatMap]
    refine congrArg List.flatten (map_eq_of_forall₂ h.edges (fun a b hab => ?_))
    obtain ⟨-, -, state, hr⟩ := hab
    rw [hr]
    exact globals_cloneCarried cloner a.record.carried state
  rw [← coe_ids, ← coe_ids, ids, ids, hglobals, hcarried]

/-- An edge of a copy runs between the copies of its ends. -/
theorem Copies.of_mem_carries (h : s.Copies cloner names s') {z' : Sym2 LocalVertex}
    {g : GlobalEdge} (hz : (z', g) ∈ s'.carries) :
    ∃ a b a' b', (s(a, b), g) ∈ s.carries ∧ z' = s(a', b')
      ∧ names.handle? a = some a' ∧ names.handle? b = some b' := by
  obtain ⟨x, hx, rfl⟩ := mem_carries.mp hz
  obtain ⟨e, l', hl', rfl, hcarried⟩ := mem_load.mp hx
  have hmem : l' ∈ s'.edges.values := List.mem_map.mpr ⟨_, SlotStore.mem_entries.mpr hl', rfl⟩
  obtain ⟨l, hl, hfirst, hsecond, state, hr⟩ := exists_of_forall₂ h.edges hmem
  obtain ⟨⟨k, l⟩, hk, rfl⟩ := List.mem_map.mp hl
  rw [hr] at hcarried
  have hglobal : x.global ∈ l.record.carried.map CarriedEdge.global := by
    rw [← globals_cloneCarried cloner l.record.carried state]
    exact List.mem_map_of_mem hcarried
  obtain ⟨y, hy, hyx⟩ := List.mem_map.mp hglobal
  refine ⟨l.first, l.second, l'.first, l'.second, ?_, rfl, hfirst, hsecond⟩
  exact mem_carries.mpr ⟨y, mem_load.mpr ⟨k, l, SlotStore.mem_entries.mp hk, rfl, hy⟩, hyx⟩

end Storage

theorem Forest.Copies.names_eq {names : Renaming} {f f' : Forest} (h : f.Copies cloner names f') :
    f'.nodes.bind (fun n => n.storage.names) = f.nodes.bind (fun n => n.storage.names) := by
  induction h with
  | nil => rfl
  | cons _ hk _ _ _ ihInside ihRest =>
      rw [nodes, nodes, Multiset.cons_bind, Multiset.cons_bind, Multiset.add_bind,
        Multiset.add_bind, ihInside, ihRest]
      exact congrArg (· + _) hk.names_eq

theorem Branch.Copies.names_eq {names : Renaming} {b b' : Branch} (h : b.Copies cloner names b') :
    b'.nodes.bind (fun n => n.storage.names) = b.nodes.bind (fun n => n.storage.names) := by
  rw [nodes, nodes, Multiset.cons_bind, Multiset.cons_bind, h.inside.names_eq]
  exact congrArg (· + _) h.storage.names_eq

/-! ## Branches of a copy -/

/-- On the copy of a vertex hangs a copy of what hangs on the vertex. -/
theorem Forest.Copies.branchAt? {names : Renaming} {f f' : Forest} (h : f.Copies cloner names f')
    (hinj : ∀ v u w, names.handle? v = some w → names.handle? u = some w → v = u)
    {v : LocalVertex} {b : Branch} (hb : f.branchAt? v = some b) :
    ∃ w b' inner, names.handle? v = some w ∧ f'.branchAt? w = some b' ∧ b.Copies cloner inner b' := by
  induction h with
  | nil => exact nomatch hb
  | @cons names inner u w k k' inside inside' rest rest' hu hk hp hin hrest _ ih =>
      rw [Forest.branchAt?] at hb
      split at hb
      · rename_i huv
        obtain rfl := Option.some.inj hb
        refine ⟨w, ⟨k', inside'⟩, inner, huv ▸ hu, ?_, ⟨hk, hp, hin⟩⟩
        rw [Forest.branchAt?, if_pos rfl]
      · rename_i huv
        obtain ⟨w', b', inner', hv, hb', hcopies⟩ := ih hinj hb
        refine ⟨w', b', inner', hv, ?_, hcopies⟩
        rw [Forest.branchAt?, if_neg ?_]
        · exact hb'
        · rintro rfl
          exact huv (hinj u v w hu hv)

namespace Tree

variable {t t' : Tree}

theorem Sound.find?_of_mem_inside (hs : t.Sound) {b : Branch} (hb : t.find? b.cluster.id = some b) :
    ∀ entry ∈ b.inside.branches, t.find? entry.2.cluster.id = some entry.2 := fun _ he =>
  hs.distinct.find?_of_branchAt? hb
    (Forest.branchAt?_of_mem_branches (hs.nodes _ (node_mem_of_find? hb)).keys he)

/-- Every cluster of a copied forest is a copy. -/
theorem exists_copied (hs : t.Sound) (hs' : t'.Sound) {names : Renaming} {f f' : Forest}
    (h : f.Copies cloner names f') (hf : ∀ entry ∈ f.branches, t.find? entry.2.cluster.id = some entry.2)
    (hf' : ∀ entry ∈ f'.branches, t'.find? entry.2.cluster.id = some entry.2) {n : Node}
    (hn : n ∈ f'.nodes) :
    ∃ b b' inner, t.find? b.cluster.id = some b ∧ t'.find? b'.cluster.id = some b'
      ∧ b.Copies cloner inner b' ∧ b'.node = n := by
  induction h with
  | nil => exact absurd hn (Multiset.notMem_zero n)
  | @cons names inner v w k k' inside inside' rest rest' hv hk hp hin hrest ihInside ihRest =>
      have hb := hf (v, ⟨k, inside⟩) (List.mem_cons_self ..)
      have hb' := hf' (w, ⟨k', inside'⟩) (List.mem_cons_self ..)
      rw [Forest.nodes, Multiset.mem_cons, Multiset.mem_add] at hn
      rcases hn with rfl | hn | hn
      · exact ⟨_, _, inner, hb, hb', ⟨hk, hp, hin⟩, rfl⟩
      · exact ihInside (hs.find?_of_mem_inside hb) (hs'.find?_of_mem_inside hb') hn
      · exact ihRest (fun e he => hf e (List.mem_cons_of_mem _ he))
          (fun e he => hf' e (List.mem_cons_of_mem _ he)) hn

/-- Every cluster of a copied branch is a copy. -/
theorem exists_copied_branch (hs : t.Sound) (hs' : t'.Sound) {names : Renaming} {b b' : Branch}
    (h : b.Copies cloner names b') (hb : t.find? b.cluster.id = some b)
    (hb' : t'.find? b'.cluster.id = some b') {n : Node} (hn : n ∈ b'.nodes) :
    ∃ d d' inner, t.find? d.cluster.id = some d ∧ t'.find? d'.cluster.id = some d'
      ∧ d.Copies cloner inner d' ∧ d'.node = n := by
  rcases Multiset.mem_cons.mp hn with rfl | hn
  · exact ⟨b, b', names, hb, hb', h, rfl⟩
  · exact exists_copied hs hs' h.inside (hs.find?_of_mem_inside hb) (hs'.find?_of_mem_inside hb') hn

/-- What stands on a vertex stands on its copy. -/
theorem Leads.stands_copy (hs : t.Sound) (hs' : t'.Sound) {c o : ClusterId} {v u : LocalVertex}
    (hl : t.Leads c v o u) {n : Node} (hn : n ∈ t.nodes) (hid : n.id = o) {g : GlobalVertex}
    (ho : n.Ordinary u g) {b b' : Branch} {names : Renaming} (hb : t.find? c = some b)
    (hb' : t'.find? b'.cluster.id = some b') (hcopies : b.Copies cloner names b') :
    ∃ w, names.handle? v = some w ∧ t'.Stands b'.cluster.id w g := by
  have hnode' := node_mem_of_find? hb'
  induction hl generalizing b b' names with
  | here c v =>
      obtain rfl := hid
      obtain rfl := hs.distinct.node_of_find? hn hb
      obtain ⟨w, hw⟩ := hcopies.storage.exists_handle? (Storage.hasVertex_of_global? ho.1)
      obtain ⟨r, r', hr, hr', state, rfl⟩ := hcopies.storage.vertex hw
      refine ⟨w, hw, stands_here hnode' ⟨?_, fun hmem => ?_⟩⟩
      · have hg : b.cluster.storage.global? v = some g := ho.1
        rw [Storage.global?, hr] at hg
        show b'.cluster.storage.global? w = some g
        rw [Storage.global?, hr']
        exact hg
      · obtain ⟨⟨_, d⟩, he, rfl⟩ := List.mem_map.mp hmem
        obtain ⟨⟨x, d'⟩, he', hx⟩ := exists_of_forall₂ hcopies.inside.entries he
        obtain rfl := hcopies.storage.injective hx hw
        exact ho.2 (List.mem_map.mpr ⟨_, he', rfl⟩)
  | @inside m v x u d o hm he hl ih =>
      obtain rfl := hs.distinct.node_of_find? hm hb
      obtain ⟨child, hchild, rfl⟩ := Forest.branchAt?_of_mem_entries (hs.nodes _ hm).keys he
      obtain ⟨w, child', inner, hw, hchild', hcopies'⟩ := hcopies.inside.branchAt?
        (fun _ _ _ h1 h2 => hcopies.storage.injective h1 h2) hchild
      have hfind' := hs'.distinct.find?_of_branchAt? hb' hchild'
      obtain ⟨y, -, k, hk, z, hlead, hord⟩ := ih hid ho
        (hs.distinct.find?_of_branchAt? hb hchild) hfind' hcopies' (node_mem_of_find? hfind')
      exact ⟨w, hw, k, hk, z, .inside hnode' (Forest.mem_entries_of_branchAt? hchild') hlead, hord⟩

/-- In a copy of a cluster every edge is placed if it is in the source. -/
theorem Placed.joins_copy (hp : t.Placed) (hs : t.Sound) (hs' : t'.Sound) {b b' : Branch}
    {names : Renaming} (hb : t.find? b.cluster.id = some b)
    (hb' : t'.find? b'.cluster.id = some b') (hcopies : b.Copies cloner names b')
    {z : Sym2 LocalVertex} {g : GlobalEdge} (hz : (z, g) ∈ b'.node.storage.carries) :
    t'.Joins b'.cluster.id z g := by
  obtain ⟨x, y, x', y', hxy, rfl, hx, hy⟩ := hcopies.storage.of_mem_carries hz
  have hstands : ∀ {v w : LocalVertex} {name : GlobalVertex}, t.Stands b.cluster.id v name →
      names.handle? v = some w → t'.Stands b'.cluster.id w name := by
    rintro v w name ⟨n, hn, u, hl, ho⟩ hv
    obtain ⟨w', hw', hst⟩ := hl.stands_copy hs hs' hn rfl ho hb hb' hcopies
    obtain rfl := Option.some.inj (hv.symm.trans hw')
    exact hst
  obtain ⟨p, q, hpq, hsource, htarget⟩ := hp _ (node_mem_of_find? hb) _ g hxy
  rcases Sym2.eq_iff.mp hpq with ⟨rfl, rfl⟩ | ⟨rfl, rfl⟩
  · exact ⟨x', y', rfl, hstands hsource hx, hstands htarget hy⟩
  · exact ⟨y', x', Sym2.eq_swap, hstands hsource hy, hstands htarget hx⟩

end Tree

end NestedGraph
