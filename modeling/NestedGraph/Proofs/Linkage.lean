import NestedGraph.Proofs.Spaces

/-! # Linkage — the records of an arena agree

    An arena keeps a record for each cluster, and a record names others:
    the children on its vertices, the parent, and the vertex that stands
    for the cluster there.  No operation writes all of these at once.  But
    whatever was done to a space, they agree: each cluster but the root
    hangs on one live vertex of one cluster, and says so; no way up comes
    back to where it began; and no record is left that the root does not
    lead to.  An id that is gone stays gone. -/

namespace NestedGraph

namespace Arena

/-- The clusters of an arena hang together, by what is kept for each of them. -/
structure WellNested (a : Arena) : Prop where
  /-- One record is kept under an id. -/
  once : (a.cells.map Cell.id).Nodup
  /-- The root is there, and hangs nowhere. -/
  root : ∃ k ∈ a.cells, k.id = a.root ∧ k.parent = none ∧ k.vertex = none
  /-- A child is listed on a live vertex, is there, and says where it hangs. -/
  child : ∀ k ∈ a.cells, ∀ v d, (v, d) ∈ k.children → k.storage.hasVertex v = true
    ∧ ∃ k' ∈ a.cells, k'.id = d ∧ k'.parent = some k.id ∧ k'.vertex = some v
  /-- One child is listed on a vertex. -/
  keys : ∀ k ∈ a.cells, (k.children.map Prod.fst).Nodup
  /-- A cluster other than the root is listed where it says that it hangs, and
      nowhere else. -/
  place : ∀ k ∈ a.cells, k.id ≠ a.root → ∃ p ∈ a.cells, ∃ v, k.parent = some p.id
    ∧ k.vertex = some v ∧ (v, k.id) ∈ p.children
    ∧ ∀ q ∈ a.cells, ∀ w, (w, k.id) ∈ q.children → q = p ∧ w = v
  acyclic : ∀ c, ¬ Relation.TransGen a.links.Around c c
  reachable : ∀ k ∈ a.cells, a.links.Inside a.root k.id
  count : a.count = {c | a.links.Inside a.root c}.ncard

/-- The records of a cluster and of a child that it lists say the same of the vertex
    between them. -/
theorem child_place {t : Tree} (hs : t.Sound) {p : Branch} (hp : t.find? p.cluster.id = some p)
    {v : LocalVertex} {e : ClusterId} (hv : (v, e) ∈ p.inside.entries) :
    ∃ x, t.find? x.cluster.id = some x ∧ x.cluster.id = e
      ∧ (t.cell x).parent = some p.cluster.id ∧ (t.cell x).vertex = some v := by
  have hn : p.node ∈ t.nodes := Tree.node_mem_of_find? hp
  obtain ⟨x, hx⟩ := Tree.mem_ids_iff.mp (Tree.Distinct.child_live hn hv)
  obtain rfl := Tree.id_of_find? hx
  have hplace : t.place? x.cluster.id = some (p.cluster.id, v) :=
    hs.distinct.place?_eq_some_iff.mpr ((hs.distinct.children_of_mem hn).symm ▸ hv)
  exact ⟨x, hx, rfl, congrArg (Option.map Prod.fst) hplace,
    congrArg (Option.map Prod.snd) hplace⟩

namespace Lays

variable {a : Arena} {t : Tree} (hl : a.Lays t)
include hl

/-- What is kept for a cluster is what the tree says of it. -/
theorem exists_branch {k : Cell} (hk : k ∈ a.cells) :
    ∃ b, t.find? k.id = some b ∧ k = t.cell b := by
  have hget := get?_of_mem hl.once hk
  rw [hl.get?, Option.map_eq_some_iff] at hget
  obtain ⟨b, hb, rfl⟩ := hget
  exact ⟨b, hb, rfl⟩

theorem cell_mem {b : Branch} (hb : t.find? b.cluster.id = some b) : t.cell b ∈ a.cells := by
  refine (mem_of_get? (c := b.cluster.id) ?_).1
  rw [hl.get?, hb]
  rfl

/-- A cluster other than the root is listed once, where its record says. -/
theorem exists_place (hs : t.Sound) {b : Branch} (hb : t.find? b.cluster.id = some b)
    (hroot : b.cluster.id ≠ t.root) :
    ∃ p ∈ a.cells, ∃ v, (t.cell b).parent = some p.id ∧ (t.cell b).vertex = some v
      ∧ (v, b.cluster.id) ∈ p.children
      ∧ ∀ q ∈ a.cells, ∀ w, (w, b.cluster.id) ∈ q.children → q = p ∧ w = v := by
  have hd := hs.distinct
  obtain ⟨n, hn, v, hv⟩ := Tree.exists_parent (Tree.mem_ids_iff.mpr ⟨b, hb⟩) hroot
  obtain ⟨p, hp, rfl⟩ := hd.find?_of_mem hn
  obtain ⟨x, hx, hid, hparent, hvertex⟩ := child_place hs hp hv
  obtain rfl := Option.some.inj (hb.symm.trans (hid ▸ hx))
  refine ⟨t.cell p, hl.cell_mem hp, v, hparent, hvertex, hv, fun q hq w hw => ?_⟩
  obtain ⟨q, hq', rfl⟩ := hl.exists_branch hq
  -- Only one node of the tree has the cluster for a child, and its record is that of the parent.
  obtain ⟨hnode, rfl⟩ := hd.eq_of_child (Tree.node_mem_of_find? hq') hn hw hv
  have hsame : t.find? (t.cell q).id = some p :=
    (congrArg (fun n : Node => t.find? n.id) hnode).trans hp
  obtain rfl := Option.some.inj (hq'.symm.trans hsame)
  exact ⟨rfl, rfl⟩

theorem root_cell : ∃ k ∈ a.cells, k.id = a.root ∧ k.parent = none ∧ k.vertex = none := by
  have hplace : t.place? t.root = none := by
    rw [Tree.place?, Tree.Distinct.path_root]
    rfl
  exact ⟨t.cell t.top, hl.cell_mem (if_pos rfl), hl.root.symm,
    congrArg (Option.map Prod.fst) hplace, congrArg (Option.map Prod.snd) hplace⟩

theorem wellNested (hs : t.Sound) : a.WellNested where
  once := by
    rw [← Multiset.coe_nodup, ← ids_nodes]
    exact hl.once
  root := hl.root_cell
  child := by
    intro k hk v e hv
    obtain ⟨b, hb, rfl⟩ := hl.exists_branch hk
    obtain ⟨x, hx, rfl, hparent, hvertex⟩ := child_place hs hb hv
    exact ⟨(hs.nodes _ (Tree.node_mem_of_find? hb)).held _ hv, t.cell x, hl.cell_mem hx, rfl,
      hparent, hvertex⟩
  keys := by
    intro k hk
    obtain ⟨b, hb, rfl⟩ := hl.exists_branch hk
    exact (hs.nodes _ (Tree.node_mem_of_find? hb)).keys
  place := by
    intro k hk hroot
    obtain ⟨b, hb, rfl⟩ := hl.exists_branch hk
    exact hl.exists_place hs hb (hl.root ▸ hroot)
  acyclic := by
    rw [hl.links]
    exact hs.distinct.acyclic
  reachable := by
    intro k hk
    obtain ⟨b, hb, -⟩ := hl.exists_branch hk
    rw [hl.links, hl.root]
    exact hs.distinct.reachable (Tree.mem_ids_iff.mpr ⟨b, hb⟩)
  count := by
    rw [hl.links, hl.root, hl.count]
    exact hs.distinct.count

end Lays

end Arena

namespace Space

/-- A cluster that is gone from an arena does not come back to it. -/
theorem isLive_eq_false {operations later : List Operation} {e last : Space}
    (h : empty.run operations = .ok e) (hlast : empty.run (operations ++ later) = .ok last)
    {number : Nat} {x new : Tenant} (hx : e.tenants[number]? = some x)
    (hnew : last.tenants[number]? = some new) {c : ClusterId} (hold : c.id < x.arena.next.toNat)
    (hgone : x.arena.isLive c = false) : new.arena.isLive c = false := by
  obtain ⟨m, hm, hl⟩ := (lays_run h).exists_member hx
  obtain ⟨m', hm', hl'⟩ := (lays_run hlast).exists_member hnew
  have hbecomes := (Workspace.sound_run operations).becomes_run later
  rw [← Workspace.run_append] at hbecomes
  rw [hl'.arena.isLive]
  rw [hl.arena.isLive] at hgone
  rw [hl.arena.next] at hold
  exact hbecomes.isLive_eq_false hm hm' hold hgone

/-- A cluster that was alive has a number below that of the next. -/
theorem lt_next_of_isLive {before after : List Operation} {e between : Space}
    (h : empty.run (before ++ after) = .ok e) (hbetween : empty.run before = .ok between)
    {number : Nat} {x old : Tenant} (hx : e.tenants[number]? = some x)
    (hold : between.tenants[number]? = some old) {c : ClusterId} (hlive : old.arena.isLive c = true) :
    c.id < x.arena.next.toNat := by
  obtain ⟨m, hm, hl⟩ := (lays_run h).exists_member hx
  obtain ⟨m', hm', hl'⟩ := (lays_run hbetween).exists_member hold
  have hsound := Workspace.sound_run before
  have hbecomes := hsound.becomes_run after
  rw [← Workspace.run_append] at hbecomes
  obtain ⟨m'', hm'', -, hb⟩ := hbecomes.members number m' hm'
  obtain rfl := Option.some.inj (hm.symm.trans hm'')
  rw [hl'.arena.isLive, Tree.isLive_iff] at hlive
  rw [hl.arena.next]
  exact Nat.lt_of_lt_of_le ((hsound.trees m' (List.mem_of_getElem? hm')).bound c hlive) hb.next

/-- **THE RECORDS AGREE**: whatever was done to a space, the clusters of every arena
    hang together as they are stored; and a cluster that was alive earlier in the
    run, and is not any more, is never alive again in that arena.  A run has no end
    only where a tree would need a number for a cluster that 64 bits do not
    hold. -/
theorem wellNested_run (operations : List Operation) :
    (empty.run operations = .error .overflow ∧ (Workspace.empty.run operations).Exhausted)
      ∨ ∃ e, empty.run operations = .ok e ∧ ∀ (number : Nat) x, e.tenants[number]? = some x →
        x.arena.WellNested ∧ ∀ before after between old, operations = before ++ after →
          empty.run before = .ok between → between.tenants[number]? = some old →
          ∀ c, old.arena.isLive c = true → x.arena.isLive c = false →
          ∀ later last new, empty.run (operations ++ later) = .ok last →
            last.tenants[number]? = some new → new.arena.isLive c = false := by
  rcases lays_empty.run Workspace.sound_empty operations with hover | ⟨e, hrun, hl⟩
  · exact Or.inl hover
  refine Or.inr ⟨e, hrun, fun number x hx => ?_⟩
  obtain ⟨m, hm, hm'⟩ := hl.exists_member hx
  have hs := (Workspace.sound_run operations).trees m (List.mem_of_getElem? hm)
  refine ⟨hm'.arena.wellNested hs, ?_⟩
  rintro before after between old rfl hbetween hold c hlive hgone later last new hlast hnew
  exact isLive_eq_false hrun hlast hx hnew (lt_next_of_isLive hrun hbetween hx hold hlive) hgone

/-- A child that was moved into its sibling goes with it, and neither is ever alive
    again. -/
theorem wellNested_removeCluster :
    let before := [Operation.newGraph (.declared []) .fresh, .change 0 (.addCluster Tree.rootId),
      .change 0 (.addCluster Tree.rootId), .change 0 (.moveInOn Tree.rootId ⟨1, 0⟩ ⟨0, 0⟩)]
    let operations := before ++ [.change 0 (.removeCluster Tree.rootId ⟨1⟩)]
    ∃ e x, empty.run operations = .ok e ∧ e.tenants[0]? = some x ∧ x.arena.count = 1
      ∧ x.arena.WellNested ∧ ∀ later last new, empty.run (operations ++ later) = .ok last →
        last.tenants[0]? = some new → new.arena.isLive ⟨2⟩ = false := by
  intro before operations
  have hread : ((empty.run operations).toOption.bind (fun e => e.tenants[0]?)).map
      (fun x => (x.arena.count, x.arena.isLive ⟨2⟩)) = some (1, false) := by decide +kernel
  have hread' : ((empty.run before).toOption.bind (fun e => e.tenants[0]?)).map
      (fun x => (x.arena.parent? ⟨2⟩, x.arena.isLive ⟨2⟩)) = some (some ⟨1⟩, true) := by decide +kernel
  obtain ⟨e, x, hrun, hx, hstate⟩ := exists_tenant hread
  obtain ⟨between, old, hbetween, hold, hstate'⟩ := exists_tenant hread'
  rcases wellNested_run operations with ⟨hover, -⟩ | ⟨e', hrun', hall⟩
  · exact nomatch hover.symm.trans hrun
  obtain rfl := Except.ok.inj (hrun.symm.trans hrun')
  obtain ⟨hnested, hgone⟩ := hall 0 x hx
  exact ⟨e, x, hrun, hx, congrArg Prod.fst hstate, hnested, hgone before _ between old rfl hbetween hold
    ⟨2⟩ (congrArg Prod.snd hstate') (congrArg Prod.snd hstate)⟩

end Space

end NestedGraph
