import NestedGraph.Proofs.Surroundings

/-! # Conflicts — ids that keep a copy out

    A copy brings the ids of its source along, so it is refused if one of
    them would stay in the other tree when the content that it replaces
    goes.  The check tells what would stay by a look at the whole tree;
    what goes is taken out by a walk up from the cluster.  Both come to
    the same ids, because whatever reaches into a cluster is on that way. -/

namespace NestedGraph

namespace Tree

variable {t : Tree} {count : UInt64} {c : ClusterId} {place branch : Branch} {id : UInt64}

/-! ## Ids that are there, and ids that would be left -/

/-- A vertex or an edge with this id is stored in a cluster or inside it. -/
def HasId (t : Tree) (c : ClusterId) (id : UInt64) : Prop :=
  (∃ d v g, t.isAncestor c d = true ∧ t.global? d v = some g ∧ g.id = id)
    ∨ ∃ d e g, t.isAncestor c d = true ∧ g ∈ t.carried d e ∧ g.id = id

/-- A vertex or an edge with this id would be left if the content of a cluster
    went, with all that is inside it, and from the clusters around it each
    edge of which an end goes. -/
def LeavesId (t : Tree) (c : ClusterId) (id : UInt64) : Prop :=
  (∃ d v g, t.isAncestor c d = false ∧ t.global? d v = some g ∧ g.id = id)
    ∨ ∃ d e g, t.isAncestor c d = false ∧ g ∈ t.carried d e ∧ g.id = id
      ∧ (t.isAncestor d c = true →
        ¬ (t.Names c (.globalVertex g.source) ∨ t.Names c (.globalVertex g.target)))

theorem Distinct.hasId_iff (hd : t.Distinct) :
    t.HasId c id ↔ ∃ n ∈ t.nodes, t.isAncestor c n.id = true ∧ id ∈ n.storage.names := by
  constructor
  · rintro (⟨d, v, g, hin, hg, rfl⟩ | ⟨d, e, g, hin, hg, rfl⟩)
    · obtain ⟨n, hn, rfl, hname⟩ := exists_node_of_global? hg
      exact ⟨n, hn, hin, Storage.mem_names.mpr (Or.inl ⟨v, g, hname, rfl⟩)⟩
    · obtain ⟨n, hn, rfl, z, hz⟩ := exists_node_carrying hg
      exact ⟨n, hn, hin, Storage.mem_names.mpr (Or.inr ⟨z, g, hz, rfl⟩)⟩
  · rintro ⟨n, hn, hin, hid⟩
    rcases Storage.mem_names.mp hid with ⟨v, g, hg, rfl⟩ | ⟨z, g, hz, rfl⟩
    · exact Or.inl ⟨n.id, v, g, hin, (hd.global?_of_mem hn v).trans hg, rfl⟩
    · obtain ⟨e, he⟩ := (hd.carries_iff hn).mp ⟨z, hz⟩
      exact Or.inr ⟨n.id, e, g, hin, he, rfl⟩

/-- The ids that the check goes through are those of the source. -/
theorem Sound.mem_branch_ids_iff (hs : t.Sound) (hb : t.find? c = some branch) :
    id ∈ branch.clustersLastFirst.flatMap (fun k => k.storage.ids) ↔ t.HasId c id := by
  rw [hs.distinct.hasId_iff, List.mem_flatMap]
  constructor
  · rintro ⟨k, hk, hid⟩
    obtain ⟨n, hn, rfl⟩ := Branch.mem_clustersLastFirst.mp hk
    rw [← Multiset.mem_coe, Storage.coe_ids] at hid
    exact ⟨n, Multiset.mem_of_le (nodes_le_of_find? hb) hn,
      isAncestor_of_mem_nodes hs.distinct hb hn, hid⟩
  · rintro ⟨n, hn, hin, hid⟩
    refine ⟨n.cluster, Branch.mem_clustersLastFirst.mpr
      ⟨n, hs.mem_nodes_of_isAncestor hb hn hin, rfl⟩, ?_⟩
    rw [← Multiset.mem_coe, Storage.coe_ids]
    exact hid

/-- All that is in a tree is in its root or inside it. -/
theorem Sound.hasId_root_iff (hs : t.Sound) :
    t.HasId rootId id ↔ ∃ n ∈ t.nodes, id ∈ n.storage.names := by
  have hroot : t.find? rootId = some t.top := by
    rw [find?, Branch.find?]
    exact if_pos hs.root
  rw [hs.distinct.hasId_iff]
  refine exists_congr (fun n => and_congr_right (fun hn => ?_))
  simp [isAncestor_of_mem_nodes hs.distinct hroot hn]

/-! ## What stays, told twice -/

/-- An id is left in one of the clusters outside a branch: that of a vertex, or
    of an edge which does not reach into the branch. -/
def Left (t : Tree) (place : Branch) (id : UInt64) : Prop :=
  ∃ n ∈ t.nodes, n ∉ place.nodes ∧ ((∃ v g, n.storage.global? v = some g ∧ g.id = id)
    ∨ ∃ z g, (z, g) ∈ n.storage.carries ∧ ¬ t.reaches place.cluster.id g = true ∧ g.id = id)

theorem Orderly.leavesId_iff (h : t.Orderly count)
    (hplace : t.find? place.cluster.id = some place) :
    t.LeavesId place.cluster.id id ↔ t.Left place id := by
  have hd := h.sound.distinct
  have hout : ∀ {n}, n ∈ t.nodes → (n ∉ place.nodes ↔ t.isAncestor place.cluster.id n.id = false) :=
    fun hn => h.sound.notMem_nodes_iff hplace hn
  constructor
  · rintro (⟨d, v, g, hfar, hg, rfl⟩ | ⟨d, e, g, hfar, hg, rfl, hends⟩)
    · obtain ⟨n, hn, rfl, hname⟩ := exists_node_of_global? hg
      exact ⟨n, hn, (hout hn).mpr hfar, Or.inl ⟨v, g, hname, rfl⟩⟩
    · obtain ⟨n, hn, rfl, z, hz⟩ := exists_node_carrying hg
      refine ⟨n, hn, (hout hn).mpr hfar, Or.inr ⟨z, g, hz, fun hreach => ?_, rfl⟩⟩
      -- An edge that reaches in is carried around the branch.
      obtain ⟨a, -, hstep⟩ := h.exists_step hplace hn ((hout hn).mpr hfar) hz hreach
      have haround : t.isAncestor n.id place.cluster.id = true :=
        decide_eq_true (List.mem_cons_of_mem _ (List.mem_map_of_mem hstep))
      exact hends haround ((h.sound.reaches_iff hplace).mp hreach)
  · rintro ⟨n, hn, hfar, ⟨v, g, hg, rfl⟩ | ⟨z, g, hz, hreach, rfl⟩⟩
    · exact Or.inl ⟨n.id, v, g, (hout hn).mp hfar, (hd.global?_of_mem hn v).trans hg, rfl⟩
    · obtain ⟨e, he⟩ := (hd.carries_iff hn).mp ⟨z, hz⟩
      refine Or.inr ⟨n.id, e, g, (hout hn).mp hfar, he, rfl, fun _ hends => ?_⟩
      exact hreach ((h.sound.reaches_iff hplace).mpr hends)

/-- The check looks for the ids that are left. -/
theorem Orderly.mem_remainingIds_iff (h : t.Orderly count)
    (hplace : t.find? place.cluster.id = some place) :
    id ∈ t.remainingIds place ↔ t.Left place id := by
  rw [remainingIds, touches_eq hplace]
  simp only [List.mem_flatMap, List.mem_append, List.mem_map, List.mem_filter, Bool.not_eq_true']
  constructor
  · rintro ⟨k, hk, hid⟩
    obtain ⟨n, hn, hout, rfl⟩ := (h.sound.distinct.mem_outside hplace).mp hk
    refine ⟨n, hn, hout, hid.imp ?_ ?_⟩
    · rintro ⟨g, hg, rfl⟩
      obtain ⟨v, hv⟩ := Storage.mem_globals.mp hg
      exact ⟨v, g, hv, rfl⟩
    · rintro ⟨g, ⟨hg, hreach⟩, rfl⟩
      obtain ⟨z, hz⟩ := Storage.mem_allCarried.mp hg
      exact ⟨z, g, hz, by simp [hreach], rfl⟩
  · rintro ⟨n, hn, hout, hid⟩
    refine ⟨n.cluster, (h.sound.distinct.mem_outside hplace).mpr ⟨n, hn, hout, rfl⟩, hid.imp ?_ ?_⟩
    · rintro ⟨v, g, hg, rfl⟩
      exact ⟨g, Storage.mem_globals.mpr ⟨v, hg⟩, rfl⟩
    · rintro ⟨z, g, hz, hreach, rfl⟩
      exact ⟨g, ⟨Storage.mem_allCarried.mpr ⟨z, hz⟩, Bool.eq_false_iff.mpr hreach⟩, rfl⟩

/-- The walk up leaves the same ids. -/
theorem Orderly.hasId_emptied_iff (h : t.Orderly count)
    (hplace : t.find? place.cluster.id = some place) :
    (t.emptied place).HasId rootId id ↔ t.Left place id := by
  have hbare : (bare place).nodes = {(bare place).node} := rfl
  rw [h.sound.emptied_eq hplace, (h.replaced_bare hplace).sound.hasId_root_iff]
  constructor
  · rintro ⟨n', hn', hid⟩
    rcases (h.mem_nodes_replaced_iff hplace (bare place) rfl _).mp hn' with
      hn' | ⟨n, hn, hout, rfl⟩
    · -- The cluster that was emptied has no ids.
      rw [hbare, Multiset.mem_singleton] at hn'
      rw [hn', (storage_bare place).1] at hid
      exact absurd hid (Multiset.notMem_zero id)
    · have hrelieved := h.relieved_withdrawSteps hplace hn hout
      refine ⟨n, hn, hout, (Storage.mem_names.mp hid).imp ?_ ?_⟩
      · rintro ⟨v, g, hg, rfl⟩
        rw [Storage.global?, Storage.vertex?, hrelieved.vertices] at hg
        exact ⟨v, g, hg, rfl⟩
      · rintro ⟨z, g, hz, rfl⟩
        obtain ⟨hz, hreach⟩ := hrelieved.mem_carries_iff.mp hz
        exact ⟨z, g, hz, hreach, rfl⟩
  · rintro ⟨n, hn, hout, hid⟩
    have hrelieved := h.relieved_withdrawSteps hplace hn hout
    have hmem := (h.mem_nodes_replaced_iff hplace (bare place) rfl t.nextClusterId).mpr
      (Or.inr ⟨n, hn, hout, rfl⟩)
    refine ⟨_, hmem, Storage.mem_names.mpr (hid.imp ?_ ?_)⟩
    · rintro ⟨v, g, hg, rfl⟩
      refine ⟨v, g, ?_, rfl⟩
      rw [Storage.global?, Storage.vertex?, hrelieved.vertices]
      exact hg
    · rintro ⟨z, g, hz, hreach, rfl⟩
      exact ⟨z, g, hrelieved.mem_carries_iff.mpr ⟨hz, hreach⟩, rfl⟩

/-! ## The check -/

/-- Between live clusters of trees with compatible configurations, only an id
    that is in the way keeps a copy out. -/
theorem copyable_of_live {source target : Tree} {into : ClusterId}
    (hcompat : source.config.compatible target.config = true)
    (hb : source.find? c = some branch) (hplace : target.find? into = some place) :
    source.copyable c target into
      = match (branch.clustersLastFirst.flatMap (fun k => k.storage.ids)).find?
          (fun id => decide (id ∈ target.remainingIds place)) with
        | some id => .error (.duplicateGlobalId id)
        | none => .ok (branch, place) := by
  rw [copyable, hcompat, require_of_find? hb, require_of_find? hplace]
  rfl

/-- The check refuses for an id that would be there twice, and finds it if there
    is one. -/
theorem Orderly.copyable_cases {source : Tree} (h : t.Orderly count) (hs : source.Sound)
    (hcompat : source.config.compatible t.config = true) (hb : source.find? c = some branch)
    (hplace : t.find? place.cluster.id = some place) :
    (∃ id, source.copyable c t place.cluster.id = .error (.duplicateGlobalId id)
      ∧ source.HasId c id ∧ t.LeavesId place.cluster.id id)
    ∨ source.copyable c t place.cluster.id = .ok (branch, place)
      ∧ ¬ ∃ id, source.HasId c id ∧ t.LeavesId place.cluster.id id := by
  have hkept : ∀ id, id ∈ t.remainingIds place ↔ t.LeavesId place.cluster.id id :=
    fun id => (h.mem_remainingIds_iff hplace).trans (h.leavesId_iff hplace).symm
  have hsource : ∀ id, id ∈ branch.clustersLastFirst.flatMap (fun k => k.storage.ids)
      ↔ source.HasId c id := fun id => hs.mem_branch_ids_iff hb
  rw [copyable_of_live hcompat hb hplace]
  cases hfind : (branch.clustersLastFirst.flatMap (fun k => k.storage.ids)).find?
      (fun id => decide (id ∈ t.remainingIds place)) with
  | some id =>
      have hmem : decide (id ∈ t.remainingIds place) = true :=
        List.find?_some (p := fun id => decide (id ∈ t.remainingIds place)) hfind
      exact Or.inl ⟨id, rfl, (hsource id).mp (List.mem_of_find?_eq_some hfind),
        (hkept id).mp (of_decide_eq_true hmem)⟩
  | none =>
      refine Or.inr ⟨rfl, ?_⟩
      rintro ⟨id, hid, hleft⟩
      have hnot := List.find?_eq_none.mp hfind id ((hsource id).mpr hid)
      exact hnot (decide_eq_true ((hkept id).mpr hleft))

end Tree

namespace Workspace

variable {w : Workspace} {number target : Nat} {m k : Member} {c into : ClusterId}

/-- A copy is answered as the check answers. -/
theorem step_copyInto {source g : Graph} (hw : w.Sound) (hs : w.graph? number = some source)
    (hg : w.graph? target = some g) (c into : ClusterId) (cloner : Cloner Nat) :
    (∀ e, source.tree.copyable c g.tree into = .error e →
      w.step (.copyInto number c target into cloner) = (w, .error e))
    ∧ ∀ places, source.tree.copyable c g.tree into = .ok places →
      ∃ w', w.step (.copyInto number c target into cloner) = (w', .ok .done) := by
  have hstep : w.step (.copyInto number c target into cloner)
      = w.within target ((fun _ => .done) <$> Act.copyInto cloner source c into) := by
    rw [step, hs]
  rw [hstep, within_copyInto hw (hw.tree hs) hg]
  constructor
  · intro e he
    rw [Graph.copyInto_of_error he]
  · rintro ⟨branch, place⟩ hplaces
    rw [Graph.copyInto_of_ok hplaces]
    exact ⟨_, rfl⟩

/-- **CONFLICTS**: after a well-behaved run, a copy between live clusters of two
    trees with compatible configurations is refused exactly if an id of the
    source is one that the other tree would be left with.  Such an id is named
    then, and nothing has changed; in all other cases the copy succeeds.  The ids
    that the check looks for are those that the tree has once the cluster is
    emptied. -/
theorem conflicts_run {operations : List Operation} (h : empty.WellBehaved operations)
    (hm : (empty.run operations).members[number]? = some m)
    (hk : (empty.run operations).members[target]? = some k)
    (hcompat : m.tree.config.compatible k.tree.config = true) (hc : m.tree.isLive c = true)
    (hinto : k.tree.isLive into = true) (cloner : Cloner Nat) :
    ((∃ w' id, (empty.run operations).step (.copyInto number c target into cloner)
        = (w', .error (.duplicateGlobalId id)))
      ↔ ∃ id, m.tree.HasId c id ∧ k.tree.LeavesId into id)
    ∧ (∀ w' id, (empty.run operations).step (.copyInto number c target into cloner)
        = (w', .error (.duplicateGlobalId id)) →
      w' = empty.run operations ∧ m.tree.HasId c id ∧ k.tree.LeavesId into id)
    ∧ ((¬ ∃ id, m.tree.HasId c id ∧ k.tree.LeavesId into id) →
      ∃ w', (empty.run operations).step (.copyInto number c target into cloner) = (w', .ok .done))
    ∧ ∀ place, k.tree.find? into = some place → ∀ id,
      (id ∈ k.tree.remainingIds place ↔ (k.tree.emptied place).HasId Tree.rootId id)
        ∧ (id ∈ k.tree.remainingIds place ↔ k.tree.LeavesId into id) := by
  have hordered := ordered_empty.run h
  generalize empty.run operations = w at hm hk hordered ⊢
  have hw := hordered.sound
  obtain ⟨ids, hs⟩ := hw.exists_graph? hm
  obtain ⟨ids', hg⟩ := hw.exists_graph? hk
  have ho := hordered.tree hg
  obtain ⟨branch, hb⟩ := Tree.exists_find?_of_isLive hc
  obtain ⟨place, hplace⟩ := Tree.exists_find?_of_isLive hinto
  obtain rfl := Tree.id_of_find? hplace
  have hemptied : ∀ place', k.tree.find? place.cluster.id = some place' → ∀ id,
      (id ∈ k.tree.remainingIds place' ↔ (k.tree.emptied place').HasId Tree.rootId id)
        ∧ (id ∈ k.tree.remainingIds place' ↔ k.tree.LeavesId place.cluster.id id) := by
    intro place' hplace' id
    obtain rfl := Option.some.inj (hplace.symm.trans hplace')
    have hleft : id ∈ k.tree.remainingIds place ↔ k.tree.Left place id :=
      ho.mem_remainingIds_iff hplace
    exact ⟨hleft.trans (ho.hasId_emptied_iff hplace).symm, hleft.trans (ho.leavesId_iff hplace).symm⟩
  obtain ⟨herror, hok⟩ := step_copyInto hw hs hg c place.cluster.id cloner
  rcases ho.copyable_cases (hw.tree hs) hcompat hb hplace with ⟨id, hrefused, hboth⟩ | ⟨hfree, hclear⟩
  · rw [herror _ hrefused]
    refine ⟨⟨fun _ => ⟨id, hboth⟩, fun _ => ⟨_, id, rfl⟩⟩, ?_, fun hnone => ?_, hemptied⟩
    · rintro w' id' heq
      obtain ⟨rfl, hid⟩ := Prod.mk.inj heq
      obtain rfl := Error.duplicateGlobalId.inj (Except.error.inj hid)
      exact ⟨rfl, hboth⟩
    · exact absurd ⟨id, hboth⟩ hnone
  · obtain ⟨w', hstep⟩ := hok _ hfree
    have hnever : ∀ w'' id, (w', Except.ok Reply.done)
        ≠ (w'', .error (Error.duplicateGlobalId id)) := by
      intro w'' id heq
      cases (Prod.mk.inj heq).2
    rw [hstep]
    refine ⟨⟨?_, fun hsome => absurd hsome hclear⟩, fun w'' id heq => ?_, fun _ => ⟨w', rfl⟩,
      hemptied⟩
    · rintro ⟨w'', id, heq⟩
      exact absurd heq (hnever w'' id)
    · exact absurd heq (hnever w'' id)

/-- A tree and its copy.  The copy's root stays when the child is replaced, but
    not the edge that leads into it; the child's own ids are no conflict. -/
theorem conflicts_copied :
    let operations := [Operation.newGraph (.declared []) .fresh,
      .change 0 (.addCluster Tree.rootId), .change 0 (.addVertex Tree.rootId),
      .change 0 (.addVertex ⟨1⟩), .change 0 (.connect Tree.rootId ⟨12⟩ ⟨13⟩),
      .newGraph (.sharedWith 0) .fresh, .copyInto 0 Tree.rootId 1 Tree.rootId pure]
    let w := empty.run operations
    empty.WellBehaved operations
      ∧ ∃ m k, w.members[0]? = some m ∧ w.members[1]? = some k
        ∧ m.tree.HasId Tree.rootId 11 ∧ k.tree.LeavesId ⟨1⟩ 11 ∧ ¬ k.tree.LeavesId ⟨1⟩ 14
        ∧ ¬ ∃ id, m.tree.HasId ⟨1⟩ id ∧ k.tree.LeavesId ⟨1⟩ id := by
  intro operations w
  have hwell : empty.WellBehaved operations := by decide +kernel
  have hm : ∃ m ∈ w.members[0]?, ∃ k ∈ w.members[1]?,
      m.tree.config.compatible k.tree.config = true ∧ m.tree.isLive Tree.rootId = true
        ∧ m.tree.isLive ⟨1⟩ = true ∧ k.tree.isLive ⟨1⟩ = true
        ∧ ∃ place ∈ k.tree.find? ⟨1⟩, (14 : UInt64) ∉ k.tree.remainingIds place := by decide +kernel
  obtain ⟨m, hm, k, hk, hcompat, hroot, hchild, hinto, place, hplace, hgone⟩ := hm
  have hrefused : (w.step (.copyInto 0 Tree.rootId 1 ⟨1⟩ pure)).2
      = .error (.duplicateGlobalId 11) := by decide +kernel
  have hcopied : (w.step (.copyInto 0 ⟨1⟩ 1 ⟨1⟩ pure)).2 = .ok .done := by decide +kernel
  obtain ⟨-, hnamed, -, hkept⟩ := conflicts_run hwell hm hk hcompat hroot hinto pure
  obtain ⟨-, hid, hleft⟩ := hnamed _ _ (eq_of_answer hrefused)
  have hfree := (conflicts_run hwell hm hk hcompat hchild hinto pure).1
  refine ⟨hwell, m, k, hm, hk, hid, hleft, fun h14 => hgone ((hkept place hplace 14).2.mpr h14),
    fun hsome => ?_⟩
  obtain ⟨w', id, hstep⟩ := hfree.mpr hsome
  rw [hstep] at hcopied
  cases hcopied

end Workspace

end NestedGraph
