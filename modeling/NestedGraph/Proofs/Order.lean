import NestedGraph.Proofs.Carriage
import NestedGraph.Proofs.Growth
import NestedGraph.Proofs.Rooting
import NestedGraph.Proofs.Runs

/-! # Order — edges stay where their endpoints part

    A caller is WELL-BEHAVED who lets no source of ids overflow, and gives
    a vertex only a name that its cluster admits.  Whatever such a caller
    does, every tree stays in order for the source that it draws from: each
    global edge lies in the innermost cluster that both of its endpoints
    are in, between the two vertices that lead to them. -/

namespace NestedGraph

namespace Graph

/-! ## One graph -/

theorem orderly_copyInto {σ : Type} {source g g' : Graph} {c into : ClusterId} {cloner : Cloner σ}
    {state state' : σ} (hs : source.tree.Orderly source.ids.count) (hg : g.tree.Orderly g.ids.count)
    (h : source.copyInto c g into cloner state = (.ok g', state')) :
    g'.tree.Orderly g'.ids.count := by
  obtain ⟨branch, place, hcopy, hreplace, hids⟩ := Graph.of_copyInto h
  obtain ⟨names, hgrows⟩ := hs.sound.grows cloner hcopy state
  obtain ⟨-, hbranch, hplace, hfresh⟩ := Tree.of_copyable hcopy
  obtain rfl := Tree.id_of_find? hbranch
  obtain rfl := Tree.id_of_find? hplace
  rw [Tree.replaceContent_eq] at hreplace
  obtain ⟨hle, hle'⟩ := g.ids.le_raise source.ids.count
  rw [← (Prod.mk.inj hreplace).1, hids]
  exact hg.replaced (hs.mono hle') hle hplace hbranch hfresh hgrows

/-- A command that is carried out keeps order, if the source does not
    overflow and the name that is given is admitted. -/
theorem orderly_perform {g h : Graph} {command : Command} {reply : Reply}
    (ho : g.tree.Orderly g.ids.count) (hcount : g.ids.count ≤ h.ids.count)
    (hname : ∀ c name, command = .addVertexNamed c name → g.Admits c name)
    (hp : g.perform command = .ok (h, reply)) : h.tree.Orderly h.ids.count := by
  have hs := (becomes_perform ho.sound hp).sound
  cases command with
  | drawId | raiseIds =>
      obtain ⟨rfl, -⟩ := Prod.mk.inj (Except.ok.inj hp)
      exact ho.mono hcount
  | addCluster c =>
      obtain ⟨⟨g', child, v⟩, hadd, heq⟩ := of_map_eq_ok hp
      obtain ⟨rfl, -⟩ := Prod.mk.inj heq
      exact orderly_addCluster ho hcount hadd
  | removeCluster c child =>
      obtain ⟨r, hr, rfl, -⟩ := of_reporting hp
      exact ho.removeCluster hr
  | removeClusterOn c v =>
      obtain ⟨r, hr, rfl, -⟩ := of_reporting hp
      exact ho.removeClusterOn hr
  | removeClusters c =>
      obtain ⟨r, hr, rfl, -⟩ := of_reporting hp
      exact ho.removeClusters hr
  | addVertex c =>
      obtain ⟨⟨g', v, global⟩, hadd, heq⟩ := of_map_eq_ok hp
      obtain ⟨rfl, -⟩ := Prod.mk.inj heq
      exact orderly_addVertex ho hcount hadd
  | addVertexNamed c name =>
      obtain ⟨⟨g', v, global⟩, hadd, heq⟩ := of_map_eq_ok hp
      obtain ⟨rfl, -⟩ := Prod.mk.inj heq
      exact orderly_addVertexNamed ho (hname c name rfl) hadd
  | addEdge c a b =>
      obtain ⟨⟨g', e, global⟩, hadd, heq⟩ := of_map_eq_ok hp
      obtain ⟨rfl, -⟩ := Prod.mk.inj heq
      exact orderly_addEdge ho hcount hadd
  | connect c source target =>
      obtain ⟨⟨g', e, global, own⟩, hadd, heq⟩ := of_map_eq_ok hp
      obtain ⟨rfl, -⟩ := Prod.mk.inj heq
      exact orderly_connect ho hcount hadd
  | removeVertex c v =>
      obtain ⟨r, hr, rfl, -⟩ := of_reporting hp
      exact ho.removeVertex hr
  | removeGlobalVertex c global =>
      obtain ⟨r, hr, rfl, -⟩ := of_reporting hp
      exact ho.removeGlobalVertex hr
  | removeEdge c e =>
      obtain ⟨r, hr, rfl, -⟩ := of_reporting hp
      exact ho.removeEdge hr
  | removeGlobalEdge c global =>
      obtain ⟨t, ht, rfl, -⟩ := of_quietly hp
      exact ho.removeGlobalEdge ht
  | moveIn c v child =>
      obtain ⟨r, hr, rfl, -⟩ := of_moving hp
      exact ho.moveIn hr
  | moveInOn c v place =>
      obtain ⟨r, hr, rfl, -⟩ := of_moving hp
      exact ho.moveInOn hr
  | moveOut c v =>
      obtain ⟨r, hr, rfl, -⟩ := of_moving hp
      exact ho.moveOut hr
  | setChanged | clearChanged | setCopyMode | setProperty | setClusterProperty
  | setSubclusterProperty | setObject | clearObject | renumber =>
      obtain ⟨t, ht, rfl, -⟩ := of_restyles ho.sound.distinct rfl hp
      exact ho.restyled hs ht

end Graph

namespace Tree

/-! ## Where an edge belongs -/

/-- A vertex with that name, on which no cluster hangs, is stored in the
    cluster or inside it. -/
def Stores (t : Tree) (c : ClusterId) (name : GlobalVertex) : Prop :=
  ∃ o u, t.isAncestor c o = true ∧ t.global? o u = some name ∧ t.isClusterVertex o u = false

/-- In a cluster a global edge belongs between `x` and `y`: these are
    different, and what a lookup from the cluster finds for its endpoints.
    No cluster further inside has both endpoints in it. -/
structure Seats (t : Tree) (c : ClusterId) (x y : LocalVertex) (g : GlobalEdge) : Prop where
  source : t.Stores c g.source
  target : t.Stores c g.target
  apart : x ≠ y
  ends : (t.localVertex? c g.source true = some x ∧ t.localVertex? c g.target true = some y)
    ∨ (t.localVertex? c g.source true = some y ∧ t.localVertex? c g.target true = some x)
  innermost : ∀ o u o' u', t.global? o u = some g.source → t.global? o' u' = some g.target →
    ∀ d, t.isAncestor d o = true → t.isAncestor d o' = true → t.isAncestor d c = true

variable {t : Tree} {count : UInt64} {c d o : ClusterId} {v w x y u : LocalVertex}
  {name : GlobalVertex} {g : GlobalEdge}

/-- A cluster around what `x` leads to and around what `y` leads to is around
    the cluster of both. -/
theorem Leads.isAncestor_of_ne (hd : t.Distinct) {o' : ClusterId} {u' : LocalVertex}
    (hx : t.Leads c x o u) (hy : t.Leads c y o' u') (hne : x ≠ y)
    (ho : t.isAncestor d o = true) (ho' : t.isAncestor d o' = true) : t.isAncestor d c = true := by
  have hself : ∀ {p : ClusterId} {z : LocalVertex}, (p, z) ∈ t.path p → False :=
    fun h => Nat.lt_irrefl _ (hd.length_path_lt h)
  obtain ⟨w, hw⟩ := hd.exists_leads ho u
  obtain ⟨w', hw'⟩ := hd.exists_leads ho' u'
  rcases hx.comparable hd hw with heq | hmem | hmem
  · obtain ⟨rfl, rfl⟩ := Prod.mk.inj heq
    exact isAncestor_self t _
  · -- Further inside, `d` would hang on `x` and on `y`.
    rcases hy.comparable hd hw' with heq | hmem' | hmem'
    · obtain ⟨rfl, -⟩ := Prod.mk.inj heq
      exact (hself hmem).elim
    · exact absurd ((leads_of_mem_path hd hmem w).unique hd (leads_of_mem_path hd hmem' w)) hne
    · exact absurd (hd.length_path_lt hmem) (Nat.lt_asymm (hd.length_path_lt hmem'))
  · exact decide_eq_true (List.mem_cons_of_mem _ (List.mem_map.mpr ⟨_, hmem, rfl⟩))

theorem Orderly.localVertex?_eq (h : t.Orderly count) (hc : c ∈ t.ids) (hv : t.Stands c v name) :
    t.localVertex? c name true = some v := by
  obtain ⟨b, hb⟩ := mem_ids_iff.mp hc
  rw [localVertex?, hb]
  exact h.representative?_eq hb hv

theorem Orderly.seats (h : t.Orderly count) {e : LocalEdge} (he : t.endpoints? c e = some (x, y))
    (hg : g ∈ t.carried c e) : t.Seats c x y g := by
  have hd := h.sound.distinct
  obtain ⟨s, hs, he⟩ := Option.bind_eq_some_iff.mp he
  obtain ⟨n, hn, rfl, rfl⟩ := exists_node_of_storage? hs
  obtain ⟨l, hl, hends⟩ := Option.map_eq_some_iff.mp he
  obtain ⟨rfl, rfl⟩ := Prod.mk.inj hends
  have hc : n.id ∈ t.ids := Multiset.mem_map_of_mem Node.id hn
  -- The edge joins what its endpoints stand on.
  have hcarries : (l.ends, g) ∈ n.storage.carries := by
    rw [carried, hs] at hg
    have hrecord : n.storage.edgeRecord? e = some l.record := by
      rw [Storage.edgeRecord?, hl]
      rfl
    replace hg : g ∈ n.storage.carried e := hg
    rw [Storage.carried, hrecord] at hg
    obtain ⟨z, hz, rfl⟩ := List.mem_map.mp hg
    exact Storage.mem_carries.mpr ⟨z, Storage.mem_load.mpr ⟨e, l, hl, rfl, hz⟩, rfl⟩
  obtain ⟨a, b, hab, hsource, htarget⟩ := h.placed n hn _ g hcarries
  have hne : l.first ≠ l.second := (h.sound.nodes n hn).storage.apart e l hl
  have hab : s(l.first, l.second) = s(a, b) := hab
  refine ⟨hsource.stored hd, htarget.stored hd, hne, ?_, ?_⟩
  · rw [h.localVertex?_eq hc hsource, h.localVertex?_eq hc htarget]
    rcases Sym2.eq_iff.mp hab with ⟨rfl, rfl⟩ | ⟨rfl, rfl⟩
    · exact Or.inl ⟨rfl, rfl⟩
    · exact Or.inr ⟨rfl, rfl⟩
  · have habne : a ≠ b := by
      rintro rfl
      rcases Sym2.eq_iff.mp hab with ⟨h1, h2⟩ | ⟨h1, h2⟩
      · exact hne (h1.trans h2.symm)
      · exact hne (h1.trans h2.symm)
    intro o u o' u' ho ho' d hd1 hd2
    obtain ⟨m, hm, w, hlead, hw⟩ := hsource
    obtain ⟨m', hm', w', hlead', hw'⟩ := htarget
    obtain ⟨k, hk, rfl, hu⟩ := exists_node_of_global? ho
    obtain ⟨k', hk', rfl, hu'⟩ := exists_node_of_global? ho'
    obtain ⟨rfl, rfl⟩ := h.named.eq_of_global? hm hk hw.1 hu
    obtain ⟨rfl, rfl⟩ := h.named.eq_of_global? hm' hk' hw'.1 hu'
    exact hlead.isAncestor_of_ne hd hlead' habne hd1 hd2

end Tree

/-- The name that an operation gives to a vertex, with the tree and the
    cluster that it does so in. -/
def Operation.naming? : Operation → Option (Nat × ClusterId × GlobalVertex)
  | .change number (.addVertexNamed c name) => some (number, c, name)
  | _ => none

/-- A command that gives a name is that of an operation which does. -/
theorem Operation.naming?_of_command? {operation : Operation} {serial number : Nat} {c : ClusterId}
    {name : GlobalVertex} (h : operation.command? serial = some (number, .addVertexNamed c name)) :
    operation.naming? = some (number, c, name) := by
  cases operation with
  | change =>
      obtain ⟨rfl, rfl⟩ := Prod.mk.inj (Option.some.inj h)
      rfl
  | placeObject => exact nomatch (Prod.mk.inj (Option.some.inj h)).2
  | _ => exact nomatch h

namespace Workspace

/-! ## Well-behaved callers -/

variable {w w' : Workspace} {operation : Operation} {number : Nat} {g g' : Graph}

/-- No source went back, as it does when it overflows. -/
def Forward (w w' : Workspace) : Prop :=
  ∀ p ∈ w.sources.zip w'.sources, p.1.count ≤ p.2.count

/-- A name that the operation gives to a vertex is admitted. -/
def Admits (w : Workspace) (operation : Operation) : Prop :=
  ∀ place ∈ operation.naming?, ∀ g ∈ w.graph? place.1, g.Admits place.2.1 place.2.2

/-- No operation makes a source overflow, and each gives only a name that is
    admitted. -/
def WellBehaved : Workspace → List Operation → Prop
  | _, [] => True
  | w, operation :: rest =>
      (w.Admits operation ∧ w.Forward (w.step operation).1) ∧ (w.step operation).1.WellBehaved rest

instance (w w' : Workspace) : Decidable (w.Forward w') :=
  inferInstanceAs (Decidable (∀ p ∈ w.sources.zip w'.sources, p.1.count ≤ p.2.count))

instance (w : Workspace) (operation : Operation) : Decidable (w.Admits operation) :=
  inferInstanceAs (Decidable (∀ place ∈ operation.naming?, ∀ g ∈ w.graph? place.1,
    g.Admits place.2.1 place.2.2))

instance decidableWellBehaved :
    (w : Workspace) → (operations : List Operation) → Decidable (w.WellBehaved operations)
  | _, [] => isTrue trivial
  | w, operation :: rest =>
      have := decidableWellBehaved (w.step operation).1 rest
      inferInstanceAs (Decidable (_ ∧ _))

/-- Every tree is in order for the source that it draws from, and no source
    gives out reserved ids. -/
structure Ordered (w : Workspace) : Prop where
  sound : w.Sound
  trees : ∀ m ∈ w.members, ∀ ids, w.sources[m.source]? = some ids → m.tree.Orderly ids.count
  sources : ∀ ids ∈ w.sources, lastReservedId ≤ ids.count

theorem ordered_empty : empty.Ordered :=
  ⟨sound_empty, fun _ hm => absurd hm List.not_mem_nil, fun _ hs => absurd hs List.not_mem_nil⟩

theorem Forward.count_le (h : w.Forward w') {k : Nat} {ids ids' : IdSource}
    (hk : w.sources[k]? = some ids) (hk' : w'.sources[k]? = some ids') :
    ids.count ≤ ids'.count := by
  have hzip : (w.sources.zip w'.sources)[k]? = some (ids, ids') :=
    List.getElem?_zip_eq_some.mpr ⟨hk, hk'⟩
  exact h _ (List.mem_of_getElem? hzip)

theorem Ordered.tree (hw : w.Ordered) (h : w.graph? number = some g) :
    g.tree.Orderly g.ids.count := by
  obtain ⟨m, ids, hm, hids, rfl⟩ := graph?_eq_some.mp h
  exact hw.trees m (List.mem_of_getElem? hm) ids hids

/-- Objects that are made and reports do not count. -/
theorem Ordered.of_eq (h : w.Ordered) (hm : w'.members = w.members) (hs : w'.sources = w.sources) :
    w'.Ordered := by
  refine ⟨(h.sound.becomes.of_eq hm hs).sound, fun m hmem ids hids => ?_, fun ids hids => ?_⟩
  · rw [hm] at hmem
    rw [hs] at hids
    exact h.trees m hmem ids hids
  · rw [hs] at hids
    exact h.sources ids hids

/-- Trees that share the source of a changed tree stay in order, as the
    source only went forward. -/
theorem Ordered.put (hw : w.Ordered) (hg : w.graph? number = some g)
    (hb : g.tree.Becomes g'.tree) (ho : g'.tree.Orderly g'.ids.count)
    (hcount : g.ids.count ≤ g'.ids.count) : (w.put number g').Ordered := by
  have hs := (becomes_put hw.sound hg hb).sound
  obtain ⟨m, ids, hm, hids, rfl⟩ := graph?_eq_some.mp hg
  rw [put_of_member hm] at hs ⊢
  refine ⟨hs, fun m' hm' ids' hids' => ?_, fun ids' hids' => ?_⟩
  · rcases List.mem_or_eq_of_mem_set hm' with hm' | rfl
    · by_cases hsource : m.source = m'.source
      · have hlt := hw.sound.sources m (List.mem_of_getElem? hm)
        rw [← hsource, List.getElem?_set_self hlt] at hids'
        obtain rfl := Option.some.inj hids'
        exact (hw.trees m' hm' ids (hsource ▸ hids)).mono hcount
      · rw [List.getElem?_set_ne hsource] at hids'
        exact hw.trees m' hm' ids' hids'
    · have hlt := hw.sound.sources m (List.mem_of_getElem? hm)
      rw [List.getElem?_set_self hlt] at hids'
      obtain rfl := Option.some.inj hids'
      exact ho
  · rcases List.mem_or_eq_of_mem_set hids' with hids' | rfl
    · exact hw.sources ids' hids'
    · exact ho.named.reserved

theorem Ordered.addMember (hw : w.Ordered) {t : Tree} {source : Nat} {ids : IdSource}
    (hids : w.sources[source]? = some ids) (ho : t.Orderly ids.count) :
    (w.addMember t source).1.Ordered := by
  have hlt : source < w.sources.length := (List.getElem?_eq_some_iff.mp hids).1
  refine ⟨(becomes_addMember hw.sound ho.sound hlt).sound, fun m hm ids' hids' => ?_, hw.sources⟩
  rcases List.mem_append.mp hm with hm | hm
  · exact hw.trees m hm ids' hids'
  · rw [List.mem_singleton.mp hm] at hids' ⊢
    obtain rfl := Option.some.inj (hids.symm.trans hids')
    exact ho

theorem Ordered.addGraph (hw : w.Ordered) (ho : g.tree.Orderly g.ids.count) :
    (w.addGraph g).1.Ordered := by
  let w' : Workspace := { w with sources := w.sources ++ [g.ids] }
  have hw' : w'.Ordered := by
    refine ⟨⟨hw.sound.trees, fun m hm => ?_⟩, fun m hm ids hids => ?_, fun ids hids => ?_⟩
    · show m.source < (w.sources ++ [g.ids]).length
      rw [List.length_append]
      exact Nat.lt_add_right _ (hw.sound.sources m hm)
    · rw [List.getElem?_append_left (hw.sound.sources m hm)] at hids
      exact hw.trees m hm ids hids
    · rcases List.mem_append.mp hids with hids | hids
      · exact hw.sources ids hids
      · rw [List.mem_singleton.mp hids]
        exact ho.named.reserved
  have hlast : w'.sources[w.sources.length]? = some g.ids := List.getElem?_concat_length
  exact hw'.addMember hlast ho

/-- What an operation of a well-behaved caller comes to. -/
theorem Outcome.ordered (hw : w.Ordered) {result : Except Error Reply}
    (h : w.Outcome operation w' result) (hname : w.Admits operation) (hforward : w.Forward w') :
    w'.Ordered := by
  cases h with
  | refused serial e => exact hw.of_eq rfl rfl
  | idle serial => exact hw.of_eq rfl rfl
  | @command operation number serial command g g' reply hop hg hp =>
      obtain ⟨m, ids, hm, hids, rfl⟩ := graph?_eq_some.mp hg
      have hcount : ids.count ≤ g'.ids.count := by
        refine hforward.count_le hids ?_
        show (w.put number g').sources[m.source]? = some g'.ids
        rw [put_of_member hm]
        exact List.getElem?_set_self (hw.sound.sources m (List.mem_of_getElem? hm))
      have hadmits : ∀ c name, command = .addVertexNamed c name → Graph.Admits ⟨m.tree, ids⟩ c name := by
        rintro c name rfl
        exact hname (number, c, name) (Operation.naming?_of_command? hop) _ hg
      have ho := Graph.orderly_perform (hw.tree hg) hcount hadmits hp
      exact (hw.put hg (Graph.becomes_perform (hw.tree hg).sound hp) ho hcount).of_eq rfl rfl
  | @copy number target serial c into cloner source g g' hs hg hcopy =>
      have ho := Graph.orderly_copyInto (hw.tree hs) (hw.tree hg) hcopy
      obtain ⟨branch, place, -, -, hids⟩ := Graph.of_copyInto hcopy
      have hcount : g.ids.count ≤ g'.ids.count := hids ▸ (g.ids.le_raise _).1
      have hb := Graph.becomes_copyInto (hw.tree hs).sound (hw.tree hg).sound hcopy
      exact (hw.put hg hb ho hcount).of_eq rfl rfl
  | new hnew =>
      obtain ⟨config, hconfig, -, hadd⟩ := of_newGraph hnew
      have hcomplete := hw.sound.complete_configFrom hconfig
      rcases hadd with ⟨m, hm, rfl⟩ | ⟨count, rfl⟩
      · have hids := List.getElem?_eq_getElem (hw.sound.sources m hm)
        exact hw.addMember hids (Tree.orderly_new hcomplete (hw.sources _ (List.mem_of_getElem? hids)))
      · exact hw.addGraph (Tree.orderly_new hcomplete (IdSource.reserved_le_startingAt count))
  | @duplicate number serial cloner g g' hg hcopy =>
      have ho := hw.tree hg
      have hnew := Tree.orderly_new ho.sound.complete (IdSource.reserved_le_startingAt g.ids.count)
      have hserial : ({ w with serial := serial } : Workspace).Ordered := hw.of_eq rfl rfl
      exact hserial.addGraph (Graph.orderly_copyInto ho hnew hcopy)

theorem Ordered.run (hw : w.Ordered) {operations : List Operation} (h : w.WellBehaved operations) :
    (w.run operations).Ordered := by
  induction operations generalizing w with
  | nil => exact hw
  | cons operation rest ih =>
      obtain ⟨⟨hname, hforward⟩, hrest⟩ := h
      exact ih ((step_outcome hw.sound operation).ordered hw hname hforward) hrest

/-- **EDGE PLACEMENT**: whatever well-behaved callers did, every global edge
    that is stored on an edge of a cluster belongs there.  Both endpoints are
    ordinary vertices stored in the cluster or inside it, the two ends are
    what they are looked up by, and no cluster further inside has both. -/
theorem seats_run {operations : List Operation} (h : empty.WellBehaved operations) {m : Member}
    (hm : m ∈ (empty.run operations).members) {c : ClusterId} {e : LocalEdge} {x y : LocalVertex}
    {g : GlobalEdge} (he : m.tree.endpoints? c e = some (x, y)) (hg : g ∈ m.tree.carried c e) :
    m.tree.Seats c x y g := by
  have ho := ordered_empty.run h
  have hids := List.getElem?_eq_getElem (ho.sound.sources m hm)
  exact (ho.trees m hm _ hids).seats he hg

/-- An edge goes into a child when the vertex at its other end moves there. -/
theorem seats_moveIn :
    let operations := [Operation.newGraph (.declared []) .fresh,
      .change 0 (.addCluster Tree.rootId), .change 0 (.addVertex Tree.rootId),
      .change 0 (.addVertexNamed ⟨1⟩ ⟨40⟩), .change 0 (.connect Tree.rootId ⟨12⟩ ⟨40⟩),
      .change 0 (.moveIn Tree.rootId ⟨1, 0⟩ ⟨1⟩)]
    empty.WellBehaved operations
      ∧ ∃ m ∈ (empty.run operations).members, m.tree.Seats ⟨1⟩ ⟨1, 0⟩ ⟨0, 0⟩ ⟨⟨12⟩, ⟨40⟩, 41⟩ := by
  intro operations
  have h : empty.WellBehaved operations := by decide +kernel
  have hrun : ∃ m ∈ (empty.run operations).members[0]?,
      m.tree.endpoints? ⟨1⟩ ⟨0, 0⟩ = some (⟨1, 0⟩, ⟨0, 0⟩)
        ∧ ⟨⟨12⟩, ⟨40⟩, 41⟩ ∈ m.tree.carried ⟨1⟩ ⟨0, 0⟩ := by decide +kernel
  obtain ⟨m, hm, he, hg⟩ := hrun
  exact ⟨h, m, List.mem_of_getElem? hm, seats_run h (List.mem_of_getElem? hm) he hg⟩

end Workspace

end NestedGraph
