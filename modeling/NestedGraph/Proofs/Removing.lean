import NestedGraph.Arena.Removal
import NestedGraph.Proofs.Growing
import NestedGraph.Proofs.Tracking

/-! # Removing — vertices, edges and clusters taken out of an arena

    A cluster is gone with everything inside it before its parent lets go
    of it, so for a while a cluster lists a child that is not there.  What
    is left when it is off the list lays out the tree without the branch,
    and the way up purges that tree. -/

namespace NestedGraph

theorem Forest.eraseAt_of_none {f : Forest} {v : LocalVertex} (h : f.branchAt? v = none) :
    f.eraseAt v = f := by
  induction f with
  | nil => rfl
  | cons w k inside rest _ ih =>
      by_cases hw : w = v
      · rw [Forest.branchAt?, if_pos hw] at h
        cases h
      · rw [Forest.branchAt?, if_neg hw] at h
        rw [Forest.eraseAt, if_neg hw, ih h]

namespace Job

variable {d : Desk} {t t' : Tree} {c : ClusterId} {b x : Branch} {v : LocalVertex}

/-- The job leads to what is given, and reports what was removed. -/
def Clears (x : Job Unit) (d : Desk) : Except Error (Tree × List Removal) → Prop
  | .ok (t, gone) => ∃ a : Arena,
      x d = .ok (.ok (), { d with arena := a, reported := d.reported ++ gone }) ∧ a.Lays t
  | .error e => x d = .ok (.error e, d)

namespace Clears

variable {α : Type} {x y : Job Unit}

theorem bind_map {γ : Type} {x : Job α} {f : α → Job Unit} {r : Except Error γ} {φ : γ → α}
    {k : γ → Except Error (Tree × List Removal)} (h : x d = .ok (φ <$> r, d))
    (hf : ∀ a, r = .ok a → Clears (f (φ a)) d (k a)) : Clears (x >>= f) d (r >>= k) := by
  cases r with
  | error e => exact bind_of_error h
  | ok a =>
      have hfa := hf a rfl
      show Clears _ d (k a)
      rcases hk : k a with e | ⟨t, gone⟩
      · rw [hk] at hfa
        exact (bind_of_ok h).trans hfa
      · rw [hk] at hfa
        obtain ⟨arena, hrun, hl⟩ := hfa
        exact ⟨arena, (bind_of_ok h).trans hrun, hl⟩

theorem bind {x : Job α} {f : α → Job Unit} {r : Except Error α}
    {k : α → Except Error (Tree × List Removal)} (h : x d = .ok (r, d))
    (hf : ∀ a, r = .ok a → Clears (f a) d (k a)) : Clears (x >>= f) d (r >>= k) := by
  refine bind_map (φ := fun a => a) ?_ hf
  cases r <;> exact h

/-- One after the other. -/
theorem andThen {gone gone' : List Removal} (hx : Clears x d (.ok (t, gone)))
    (hy : ∀ d' : Desk, d'.arena.Lays t → Clears y d' (.ok (t', gone'))) :
    Clears (x >>= fun _ => y) d (.ok (t', gone ++ gone')) := by
  obtain ⟨a, hrun, hl⟩ := hx
  obtain ⟨a', hrun', hl'⟩ := hy { d with arena := a, reported := d.reported ++ gone } hl
  refine ⟨a', (bind_of_ok hrun).trans (hrun'.trans ?_), hl'⟩
  rw [List.append_assoc]

/-- What is told of removals is what the act reports at once. -/
theorem performs {s : Session} {r : Except Error (Tree × List Removal)} (hm : d.Matches s)
    (h : Clears x d r) {command : Command} (hr : s.graph.perform command = s.graph.reporting <$> r) :
    Performs (telling x) (Act.atOnce (fun g => g.perform command)) d s := by
  rcases r with e | ⟨t, gone⟩
  · have hx : x d = .ok (.error e, d) := h
    refine .of_error ?_ (Act.atOnce_of_error hr)
    rw [telling, hx]
  · obtain ⟨a, hrun, hl⟩ := h
    rw [Performs, Act.atOnce_of_ok hr]
    refine Or.inr ⟨{ d with arena := a, reported := d.reported ++ gone }, ?_, hl, hm.ids, hm.serial,
      congrArg (· ++ gone) hm.reported⟩
    rw [telling, hrun]
    show Except.ok (Except.ok (Reply.removed ((d.reported ++ gone).drop d.reported.length)), _) = _
    rw [List.drop_left]

end Clears

/-! ## Loops -/

section Loops

variable (hl : d.arena.Lays t)
include hl

theorem purgeAbove_clears (hs : t.Sound) (hc : c ∈ t.ids) (p : GlobalEdge → Bool) :
    Clears (purgeAbove p c) d (.ok (t.withdrawAbove p c, (t.matchingAbove p c).map .edge)) := by
  obtain ⟨r, hr, -, hlays, htaken, -⟩ := hl.ends_purgeUp hs hc p
  refine ⟨r.state.1, (bind_of_ok (traverse_run (r := r) ?_)).trans (htaken ▸ rfl), hlays⟩
  rw [hl.count]
  exact hr _ (Nat.le_refl _)

theorem mark_clears (c : ClusterId) : Clears (mark c) d (.ok (t.mark c, [])) :=
  ⟨d.arena.mark c, by rw [List.append_nil]; rfl, hl.mark (Multiset.notMem_zero c)⟩

theorem markUpTo_clears (hc : c ∈ t.ids) (last : ClusterId) :
    Clears (markUpTo c last) d (.ok (t.markUpTo c last, [])) := by
  obtain ⟨a, hrun, hlays⟩ := markUpTo_run hl hc last
  exact ⟨a, by rw [List.append_nil]; exact hrun, hlays⟩

end Loops

/-- Clusters may be gone from the arena before, as long as they are none of
    those that are taken out. -/
theorem teardown_run {a : Arena} (ha : a.Lays t) (hs : t.Sound)
    (hb : t.find? b.cluster.id = some b) (cs : List ClusterId)
    (hcs : ∀ e ∈ b.clusters.map Cluster.id, e ∉ cs) (hd : d.arena = a.without cs) :
    teardown b.cluster.id d = .ok (.ok (),
      { d with
        arena := a.without (b.clusters.map Cluster.id ++ cs)
        reported := d.reported ++ b.removals }) := by
  -- All that is to be taken out is there, so the loop has steps enough for it.
  have hsub : b.clusters.map Cluster.id ⊆ d.arena.cells.map Cell.id := by
    intro e he
    have hlive : e ∈ t.ids := by
      refine Multiset.mem_of_le (Multiset.map_le_map (Tree.nodes_le_of_find? hb)) ?_
      rw [← Branch.ids, Branch.ids_eq_clusters]
      exact he
    obtain ⟨x, hx⟩ := Tree.mem_ids_iff.mp hlive
    obtain ⟨k, hget, -⟩ := ha.exists_get? hx
    obtain ⟨hk, rfl⟩ := Arena.mem_of_get? hget
    rw [hd]
    exact List.mem_map_of_mem (Arena.mem_without.mpr ⟨hk, hcs _ he⟩)
  have hnodup : (b.clusters.map Cluster.id).Nodup := by
    rw [← Multiset.coe_nodup, ← Branch.ids_eq_clusters]
    exact hs.distinct.nodup_branch hb
  have hcount : b.clusters.length ≤ d.arena.count := by
    have hle := (List.subperm_of_subset hnodup hsub).length_le
    rwa [List.length_map, List.length_map] at hle
  obtain ⟨r, hr, -, -, hstate⟩ := ha.ends_teardown hs hb cs hcs
  refine (bind_of_ok (traverse_run (r := r) ?_)).trans (hstate ▸ rfl)
  rw [hd]
  exact hr _ (Nat.mul_le_mul_left 2 (hd ▸ hcount))

/-! ## Vertices and clusters -/

section Discard

variable (hs : t.Sound) (hb : t.find? c = some b)
include hs hb

/-- Once a vertex is off its cluster, the way up is purged. -/
theorem purgeCut_clears {a : Arena} (ha : a.Lays (t.cutAt c v)) {names : List GlobalVertex}
    (hnames : ∀ g, g ∈ names ↔ g ∈ b.travelling v) (gone : List Removal) :
    ∃ a' : Arena, (purgeAbove (GlobalEdge.touches names) c >>= fun _ => mark c)
        { d with arena := a, reported := d.reported ++ gone }
      = .ok (.ok (), { d with
          arena := a'
          reported := d.reported ++ (gone
            ++ (t.matchingAbove (GlobalEdge.touches (b.travelling v)) c).map .edge) })
      ∧ a'.Lays (((t.cutAt c v).withdrawAbove (GlobalEdge.touches (b.travelling v)) c).mark c) := by
  obtain rfl := Tree.id_of_find? hb
  rw [GlobalEdge.touches_congr hnames]
  have hlive : b.cluster.id ∈ (t.cutAt b.cluster.id v).ids := by
    obtain ⟨rest, -, hcut⟩ := hs.nodes_cutAt hb v
    rw [Tree.ids, hcut, Multiset.map_cons]
    exact Multiset.mem_cons_self ..
  have hboth := (purgeAbove_clears (d := { d with arena := a, reported := d.reported ++ gone }) ha
    (hs.cutAt ..) hlive (GlobalEdge.touches (b.travelling v))).andThen
      (fun d' hl' => mark_clears hl' b.cluster.id)
  rw [hs.matchingAbove_cutAt hb] at hboth
  obtain ⟨a', hrun, hl'⟩ := hboth
  refine ⟨a', hrun.trans ?_, hl'⟩
  rw [List.append_nil, List.append_assoc]

variable (hl : d.arena.Lays t)
include hl

theorem dropVertex_clears (hv : b.cluster.storage.hasVertex v = true)
    (hx : b.inside.branchAt? v = none) : Clears (dropVertex c v) d (.ok (t.discard c v)) := by
  obtain ⟨r, hr⟩ := Storage.hasVertex_iff.mp hv
  have hg : b.cluster.storage.global? v = some r.global := by
    rw [Storage.global?, hr]
    rfl
  have hread : read (fun a => (a.storage? c).bind (fun s => (s.global? v).map (fun g => (s, g)))) d
      = .ok (.ok (some (b.cluster.storage, r.global)), d) := by
    rw [read, hl.storage? (Multiset.notMem_zero c), Tree.storage?_of_find? hb, Option.bind_some, hg]
    rfl
  -- Nothing hangs on the vertex that could come off with it.
  have hcut : t.cutAt c v = t.mapStorage c (fun s => s.removeVertex v) := by
    refine hs.distinct.update_congr hb ?_
    rw [Forest.eraseAt_of_none hx]
    rfl
  have hnames : ∀ name, name ∈ [r.global] ↔ name ∈ b.travelling v := by
    intro name
    rw [Branch.travelling, hg, hx]
    simp
  obtain ⟨a', hrun, hl'⟩ := purgeCut_clears hs hb (d := d) (v := v)
    (hcut ▸ hl.mapStorage (Multiset.notMem_zero c) (fun s => s.removeVertex v)) hnames
    ((b.cluster.storage.carriedAt v).map .edge)
  rw [Tree.discard_of_find? hb, hx, Option.elim_none, List.nil_append, List.map_append]
  exact ⟨a', (bind_of_ok hread).trans hrun, hl'⟩

/-- The child is gone when its parent lets go of it. -/
theorem detach_clears (hx : b.inside.branchAt? v = some x) :
    Clears (detach c v x.cluster.id) d (.ok (t.discard c v)) := by
  have hsub := hs.distinct.find?_of_branchAt? hb hx
  have hkeys := (hs.nodes _ (Tree.node_mem_of_find? hb)).keys
  obtain ⟨names, hinside, hnames⟩ := subtreeGlobals_run hl hs hsub
  have hown : read (fun a => a.global? c v) d = .ok (.ok (b.cluster.storage.global? v), d) := by
    rw [read, hl.global? (Multiset.notMem_zero c), Tree.global?, Tree.storage?_of_find? hb]
    rfl
  -- While the clusters are gone, the cluster around still lists one of them.
  let gone := x.clusters.map Cluster.id
  have hdown := teardown_run (d := d) hl hs hsub [] (fun _ _ => List.not_mem_nil)
    (Arena.without_nil d.arena).symm
  rw [List.append_nil] at hdown
  have hout : c ∉ gone := by
    obtain rfl := Tree.id_of_find? hb
    have hmem := hs.distinct.notMem_child hb hx
    rwa [Branch.ids_eq_clusters, Multiset.mem_coe] at hmem
  let left : Desk :=
    { d with arena := d.arena.without gone, reported := d.reported ++ x.removals }
  have hread : read (fun a => a.storage? c) left = .ok (.ok (some b.cluster.storage), left) := by
    have hstorage : (d.arena.without gone).storage? c = some b.cluster.storage := by
      rw [Arena.storage?, Arena.get?_without _ hout]
      exact (hl.storage? (Multiset.notMem_zero c)).trans (Tree.storage?_of_find? hb)
    rw [read, hstorage]
  have hcut : ((d.arena.without gone).modify c (Cell.cut v)).Lays (t.cutAt c v) := by
    have hloose := hl.cut hb hkeys v
    rw [hx] at hloose
    rw [← Arena.without_modify (f := Cell.cut v) (fun _ => rfl)]
    exact hloose.without x.ids_eq_clusters.symm
  have hall : ∀ g, g ∈ names ++ (b.cluster.storage.global? v).toList ↔ g ∈ b.travelling v := by
    intro g
    rw [List.mem_append, hnames, Branch.travelling, hx, List.mem_append, or_comm]
  obtain ⟨a', hrun, hl'⟩ := purgeCut_clears hs hb (d := d) hcut hall
    (x.removals ++ (b.cluster.storage.carriedAt v).map .edge)
  rw [Tree.discard_of_find? hb, hx, Option.elim_some, List.map_append, ← List.append_assoc]
  rw [← List.append_assoc] at hrun
  exact ⟨a', (bind_of_ok hinside).trans ((bind_of_ok hown).trans ((bind_of_ok hdown).trans
    ((bind_of_ok hread).trans hrun))), hl'⟩

theorem discard_clears (hv : b.cluster.storage.hasVertex v = true) :
    Clears (discard c v) d (.ok (t.discard c v)) := by
  have hread := childAt_run hl c v
  rw [Tree.childAt?, hb, Option.bind_some] at hread
  cases hx : b.inside.branchAt? v with
  | none =>
      rw [hx] at hread
      obtain ⟨a, hrun, hl'⟩ := dropVertex_clears hs hb hl hv hx
      exact ⟨a, (bind_of_ok hread).trans hrun, hl'⟩
  | some x =>
      rw [hx] at hread
      obtain ⟨a, hrun, hl'⟩ := detach_clears hs hb hl hx
      exact ⟨a, (bind_of_ok hread).trans hrun, hl'⟩

end Discard

/-- Children are taken out one after the other; each that is left stays where it
    was listed. -/
theorem detachAll_clears (hs : t.Sound) (hl : d.arena.Lays t) {entries : ChildMap}
    (hkeys : (entries.map Prod.fst).Nodup) (hentries : ∀ entry ∈ entries, entry ∈ t.children c) :
    Clears (detachAll c entries) d (.ok (t.discardAll c (entries.map Prod.fst))) := by
  induction entries generalizing d t with
  | nil => exact ⟨d.arena, by rw [List.append_nil]; rfl, hl⟩
  | cons entry rest ih =>
      obtain ⟨v, child⟩ := entry
      rw [List.map_cons, List.nodup_cons] at hkeys
      obtain ⟨b, x, hb, hx, rfl⟩ := hs.exists_branch_of_children (hentries _ List.mem_cons_self)
      have hfirst := detach_clears hs hb hl hx
      refine hfirst.andThen (fun d' hl' => ?_)
      refine ih (hs.becomes_discard c v).sound hl' hkeys.2 (fun e he => ?_)
      have hne : e.1 ≠ v := fun heq => hkeys.1 (List.mem_map.mpr ⟨e, he, heq⟩)
      exact hs.mem_children_discard hne (hentries e (List.mem_cons_of_mem _ he))

/-! ## Operations -/

section Operations

variable (hs : t.Sound) (hl : d.arena.Lays t)
include hs hl

theorem removeCluster_clears (c child : ClusterId) :
    Clears (removeCluster c child) d (t.removeCluster c child) := by
  have hread : look (fun a => a.vertexOfChild c child) d = .ok (t.vertexOfChild c child, d) := by
    rw [look_run, hl.vertexOfChild hs]
  rw [removeCluster, Tree.removeCluster]
  refine Clears.bind hread (fun v hv => ?_)
  obtain ⟨b, x, hb, hx, rfl⟩ :=
    hs.exists_branch_of_children (Tree.of_vertexOfChild hs.distinct hv)
  exact detach_clears hs hb hl hx

theorem removeClusterOn_clears (c : ClusterId) (v : LocalVertex) :
    Clears (removeClusterOn c v) d (t.removeClusterOn c v) := by
  rw [removeClusterOn, Tree.removeClusterOn]
  exact Clears.bind (requireChildAt_run hl c v) (fun child _ => removeCluster_clears hs hl c child)

theorem removeClusters_clears (c : ClusterId) :
    Clears (removeClusters c) d (t.removeClusters c) := by
  rw [removeClusters, Tree.removeClusters]
  refine Clears.bind_map (cell_run hl c) (fun b hb => ?_)
  have hb := Tree.of_require hb
  refine detachAll_clears hs hl (hs.nodes _ (Tree.node_mem_of_find? hb)).keys (fun entry he => ?_)
  rw [Tree.children_of_find? hb]
  exact he

theorem removeVertex_clears (c : ClusterId) (v : LocalVertex) :
    Clears (removeVertex c v) d (t.removeVertex c v) := by
  rw [removeVertex, Tree.removeVertex]
  refine Clears.bind_map (requireVertex_run hl c v) (fun b hb => ?_)
  obtain ⟨hfind, hlive⟩ := Tree.of_requireVertex hb
  exact discard_clears hs hfind hl hlive

theorem removeGlobalVertex_clears (c : ClusterId) (global : GlobalVertex) :
    Clears (removeGlobalVertex c global) d (t.removeGlobalVertex c global) := by
  have hread := vertexOwner_run hl hs c global
  rw [removeGlobalVertex, Tree.removeGlobalVertex]
  cases howner : t.vertexOwner? c global with
  | none =>
      rw [howner] at hread
      exact bind_of_ok hread
  | some place =>
      rw [howner] at hread
      obtain ⟨owner, v⟩ := place
      obtain ⟨b, hb, hfound⟩ := Option.bind_eq_some_iff.mp howner
      obtain ⟨n, hn, rfl, hglobal⟩ := Branch.of_vertexOwner? hfound
      have hmem := Multiset.mem_of_le (Tree.nodes_le_of_find? hb) hn
      obtain ⟨x, hx, rfl⟩ := hs.distinct.find?_of_mem hmem
      have hdiscard := discard_clears hs hx hl (Storage.hasVertex_of_global? hglobal)
      have hlive := hs.mem_ids_discard (Multiset.mem_map_of_mem Node.id hmem) v
      obtain ⟨a, hrun, hl'⟩ := hdiscard.andThen (fun d' hl' => markUpTo_clears hl' hlive c)
      rw [List.append_nil] at hrun
      exact ⟨a, (bind_of_ok hread).trans hrun, hl'⟩

end Operations

theorem removeEdge_clears (hl : d.arena.Lays t) (c : ClusterId) (e : LocalEdge) :
    Clears (removeEdge c e) d (t.removeEdge c e) := by
  have hread : look (fun a => a.requireEdge c e) d = .ok (t.cell <$> t.requireEdge c e, d) := by
    rw [look_run, hl.requireEdge]
  rw [removeEdge, Tree.removeEdge]
  refine Clears.bind_map hread (fun b _ => ?_)
  have hc := Multiset.notMem_zero (α := ClusterId) c
  exact ⟨_, rfl, (hl.mapStorage hc (fun s => s.removeEdge e)).mark hc⟩

/-- One global edge is withdrawn from the edge that it is withdrawn from in the
    tree. -/
theorem removeGlobalEdge_meets {g : Graph} (hs : g.tree.Sound) (hl : d.arena.Lays g.tree)
    (hids : d.ids = g.ids) (c : ClusterId) (global : GlobalEdge) :
    Meets (removeGlobalEdge c global) d (g.settled <$> g.tree.removeGlobalEdge c global) := by
  have hread := edgeOwner_run hl hs c global
  rw [removeGlobalEdge, Tree.removeGlobalEdge]
  cases howner : g.tree.edgeOwner? c global with
  | none =>
      rw [howner] at hread
      exact bind_of_ok hread
  | some place =>
      rw [howner] at hread
      obtain ⟨owner, e⟩ := place
      obtain ⟨b, hb, hfound⟩ := Option.bind_eq_some_iff.mp howner
      obtain ⟨n, hn, rfl, other, hother, -⟩ := Branch.of_edgeOwner? hfound
      have hmem := Multiset.mem_of_le (Tree.nodes_le_of_find? hb) hn
      obtain ⟨x, hx, rfl⟩ := hs.distinct.find?_of_mem hmem
      have hheld : ¬ (!(g.tree.cell x).storage.hasEdge e) = true := by
        obtain ⟨l, hlink, -⟩ := Storage.mem_carried.mp hother
        have hedge : (g.tree.cell x).storage.hasEdge e = true := SlotStore.contains_iff.mpr ⟨l, hlink⟩
        rw [hedge]
        exact Bool.false_ne_true
      have hput := hl.mapStorage (Multiset.notMem_zero x.node.id)
        (fun s => s.withdraw (fun other => other.same global) e)
      have hlive : x.node.id ∈ (g.tree.mapStorage x.node.id (fun s =>
          s.withdraw (fun other => other.same global) e)).ids :=
        Tree.mem_ids_iff.mpr ⟨_, Tree.find?_mapStorage_self hx _⟩
      obtain ⟨a, hrun, hl'⟩ := markUpTo_run (d := d.withArena _) hput hlive c
      refine ⟨a, (bind_of_ok hread).trans ((bind_of_ok (cell_of_find? hl hx)).trans ?_), hl'⟩
      rw [if_neg hheld, ← hids]
      exact hrun

end Job

end NestedGraph
