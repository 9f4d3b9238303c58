import NestedGraph.Proofs.Laying
import NestedGraph.Proofs.Purging
import NestedGraph.Proofs.Traversal

/-! # Passages — traversals that change an arena

    Two ways up change the clusters that they come by, and one recursion
    takes clusters out while it reads which are left.  Each ends, since
    what it changes are not the names by which it goes on; and the arena
    that it comes to lays out what the tree becomes in one step. -/

namespace NestedGraph

theorem EndsWithin.imp {σ : Type} {bound : Nat} {run : Nat → Option (Trace σ)}
    {P Q : Trace σ → Prop} (h : EndsWithin bound run P) (hPQ : ∀ r, P r → Q r) :
    EndsWithin bound run Q := by
  obtain ⟨r, hr, hP⟩ := h
  exact ⟨r, hr, hPQ r hP⟩

namespace Arena

variable {a : Arena} {t : Tree} {c : ClusterId} {b : Branch}

/-! ## Up -/

/-- Marking clusters on the way up marks those of the tree. -/
theorem Lays.ends_markUp (hl : a.Lays t) (hc : c ∈ t.ids) (last : ClusterId) :
    EndsWithin t.clusterCount (fun steps => a.markUp steps c last)
      (fun r => r.Ascends t.links t.clusterCount t.root c ∧ r.state.Lays (t.markUpTo c last)
        ∧ r.visited = t.wayUp c last) := by
  have hends := (hl.distinct.ends_mark hc last).climb (R := fun (a : Arena) t => a.Lays t)
    (fun a d => (a.parent? d).map (fun p => (p, ()))) (fun a d _ => (a.mark d, decide (d = last)))
    (fun _ _ h d => by rw [(h.place d).1]) (fun _ _ d _ h => ⟨h.mark (Multiset.notMem_zero d), rfl⟩)
    hl
  refine hends.imp (fun r h => ?_)
  obtain ⟨r', ⟨hascends, hstate, hvisited⟩, hlays, hsame, hstopped⟩ := h
  exact ⟨hascends.of_visited hsame hstopped, hstate ▸ hlays, hsame.trans hvisited⟩

/-- One cluster is purged as it is in the tree. -/
theorem Lays.purgeAt (hl : a.Lays t) (p : GlobalEdge → Bool) (c : ClusterId) (v : LocalVertex) :
    (a.purgeAt p c v).1.Lays (t.purgeAt p c v).1
      ∧ (a.purgeAt p c v).2 = (t.purgeAt p c v).2.map .edge := by
  have hc := Multiset.notMem_zero c
  rw [Arena.purgeAt, Tree.purgeAt, hl.get?]
  cases hb : t.find? c with
  | none => exact ⟨hl, rfl⟩
  | some b =>
      have hput := hl.mapStorage hc (fun _ => (b.cluster.storage.purgeAt p v).1)
      have hboth : ∀ taken : List GlobalEdge,
          (if taken.isEmpty then a.mapStorage c (fun _ => (b.cluster.storage.purgeAt p v).1)
            else (a.mapStorage c (fun _ => (b.cluster.storage.purgeAt p v).1)).mark c).Lays
          (if taken.isEmpty then t.mapStorage c (fun _ => (b.cluster.storage.purgeAt p v).1)
            else (t.mapStorage c (fun _ => (b.cluster.storage.purgeAt p v).1)).mark c) := by
        intro taken
        split
        · exact hput
        · exact hput.mark hc
      exact ⟨hboth _, rfl⟩

/-- A purge of an arena takes out and reports what a purge of the tree does. -/
theorem Lays.ends_purgeUp (hl : a.Lays t) (hs : t.Sound) (hc : c ∈ t.ids) (p : GlobalEdge → Bool) :
    EndsWithin t.clusterCount (fun steps => a.purgeUp steps p c)
      (fun r => r.Ascends t.links t.clusterCount t.root c ∧ r.state.1.Lays (t.withdrawAbove p c)
        ∧ r.state.2 = (t.matchingAbove p c).map .edge
        ∧ r.visited = c :: (t.path c).map Prod.fst) := by
  have hends := (hs.ends_purgeUp hc p).climb
    (R := fun (s : Arena × List Removal) (s' : Tree × List GlobalEdge) =>
      s.1.Lays s'.1 ∧ s.2 = s'.2.map .edge)
    (fun s d => (s.1.parent? d).bind (fun q => (s.1.vertex? d).map (fun v => (q, v))))
    (Arena.purgeVisit p) (fun s s' h d => ?_) (fun s s' d via h => ?_) (s := (a, []))
    ⟨hl, rfl⟩
  · refine hends.imp (fun r h => ?_)
    obtain ⟨r', ⟨hascends, hstate, hvisited⟩, ⟨hlays, htaken⟩, hsame, hstopped⟩ := h
    rw [hstate] at hlays htaken
    exact ⟨hascends.of_visited hsame hstopped, hlays, htaken, hsame.trans hvisited⟩
  · rw [(h.1.place d).1, (h.1.place d).2, Tree.parent?, Tree.vertex?]
    cases s'.1.place? d <;> rfl
  · cases via with
    | none => exact ⟨h, rfl⟩
    | some v =>
        obtain ⟨hlays, htaken⟩ := h.1.purgeAt p d v
        refine ⟨⟨hlays, ?_⟩, rfl⟩
        show s.2 ++ (Arena.purgeAt p s.1 d v).2 = (s'.2 ++ (Tree.purgeAt p s'.1 d v).2).map .edge
        rw [h.2, htaken, List.map_append]

/-! ## Down -/

section Remover

theorem without_nil (a : Arena) : a.without [] = a := by
  have hall : a.cells.filter (fun k => decide (k.id ∉ ([] : List ClusterId))) = a.cells :=
    List.filter_eq_self.mpr (fun _ _ => decide_eq_true List.not_mem_nil)
  rw [without, hall]

theorem without_without (a : Arena) (cs ds : List ClusterId) :
    (a.without cs).without ds = a.without (ds ++ cs) := by
  rw [without, without, without, List.filter_filter]
  congr 1
  refine List.filter_congr (fun k _ => ?_)
  rw [← Bool.decide_and, decide_eq_decide, List.mem_append, not_or]

theorem remove_eq_without (a : Arena) (c : ClusterId) : a.remove c = a.without [c] := by
  rw [remove, without]
  congr 1
  refine List.filter_congr (fun k _ => ?_)
  rw [decide_eq_decide, List.mem_singleton]

theorem get?_without (a : Arena) {cs : List ClusterId} {c : ClusterId} (hc : c ∉ cs) :
    (a.without cs).get? c = a.get? c := by
  rw [get?, get?, without, List.find?_filter]
  congr 1
  funext k
  by_cases hk : k.id = c
  · simp [hk, hc]
  · simp [hk]

theorem get?_without_eq_none (a : Arena) {cs : List ClusterId} {c : ClusterId} (hc : c ∈ cs) :
    (a.without cs).get? c = none := by
  rw [get?, without, List.find?_filter, List.find?_eq_none]
  intro k _
  by_cases hk : k.id = c
  · simp [hk, hc]
  · simp [hk]

theorem without_congr (a : Arena) {cs ds : List ClusterId} (h : ∀ d, d ∈ cs ↔ d ∈ ds) :
    a.without cs = a.without ds := by
  rw [without, without]
  congr 1
  exact List.filter_congr (fun k _ => by rw [decide_eq_decide, h])

/-- What goes with a cluster is read off the branch. -/
theorem removals_cell (t : Tree) (b : Branch) : (t.cell b).removals = b.cluster.removals b.inside := by
  have hnone : ∀ v, (ChildMap.get? b.inside.entries v).isNone = (b.inside.branchAt? v).isNone :=
    fun v => by rw [Forest.get?_entries, Option.isNone_map]
  simp only [Cell.removals, Cluster.removals, Tree.cell, Cell.storage, Cell.id, hnone]

theorem passes_remover : remover.Passes := fun _ _ => rfl

variable (hl : a.Lays t)
include hl

/-- A recursion that takes clusters out reads the children in the tree of all
    that are left. -/
theorem Lays.reads_remover : remover.Reads t
    (fun s => ∀ d, s.1.get? d = none ∨ s.1.get? d = a.get? d)
    (fun s => (a.cells.map Cell.id).filter (fun d => !s.1.isLive d)) := by
  have hleave : ∀ (s : Arena × List Removal) (c : ClusterId),
      (remover.leave s c).1 = s.1.remove c ∨ remover.leave s c = s := by
    intro s c
    simp only [remover]
    split
    · exact Or.inl rfl
    · exact Or.inr rfl
  have hget : ∀ (x : Arena) {c d : ClusterId}, d ≠ c → (x.remove c).get? d = x.get? d :=
    fun x c d hne => by
      rw [remove_eq_without]
      exact get?_without x (fun hd => hne (List.mem_singleton.mp hd))
  refine ⟨fun {s d} hkeeps hd => ?_, fun _ _ => rfl, fun _ _ => rfl, fun s c d hd => ?_,
    fun h _ => h, fun h _ => h, fun {s} hkeeps c d => ?_⟩
  · show s.1.childIds? d = t.childIds? d
    rw [← hl.childIds? (Multiset.notMem_zero d), Arena.childIds?, Arena.childIds?]
    rcases hkeeps d with hnone | hsame
    · cases hget : a.get? d with
      | none => rw [hnone]
      | some k =>
          obtain ⟨hk, rfl⟩ := mem_of_get? hget
          refine absurd (List.mem_filter.mpr ⟨List.mem_map_of_mem hk, ?_⟩) hd
          rw [Arena.isLive, hnone]
          rfl
    · rw [hsame]
  · obtain ⟨hmem, hdead⟩ := List.mem_filter.mp hd
    by_cases hc : d = c
    · exact hc ▸ List.mem_cons_self
    · refine List.mem_cons_of_mem _ (List.mem_filter.mpr ⟨hmem, ?_⟩)
      rcases hleave s c with hrem | hsame
      · rwa [hrem, Arena.isLive, hget _ hc] at hdead
      · rwa [hsame] at hdead
  · rcases hleave s c with hrem | hsame
    · rw [hrem]
      by_cases hc : d = c
      · rw [remove_eq_without]
        exact Or.inl (get?_without_eq_none _ (List.mem_singleton.mpr hc))
      · rw [hget _ hc]
        exact hkeeps d
    · rw [hsame]
      exact hkeeps d

theorem Lays.leave_remover {k : Cluster} {inside : Forest} (hk : t.find? k.id = some ⟨k, inside⟩)
    {cs : List ClusterId} (hcs : k.id ∉ cs) (gone : List Removal) :
    remover.leave (a.without cs, gone) k.id
      = (a.without (k.id :: cs), gone ++ k.removals inside) := by
  have hget : (a.without cs).get? k.id = some (t.cell ⟨k, inside⟩) := by
    rw [get?_without a hcs, hl.get?, hk]
    rfl
  simp only [remover, hget, removals_cell, remove_eq_without, without_without]
  rfl

theorem Lays.state_along_remover {f : Forest} (hf : f.LivesIn t)
    (hd : (f.clusters.map Cluster.id).Nodup) {cs : List ClusterId}
    (hcs : ∀ d ∈ f.clusters.map Cluster.id, d ∉ cs) (gone : List Removal) :
    (remover.along f (a.without cs, gone)).state
      = (a.without (f.clusters.map Cluster.id ++ cs), gone ++ f.removals) := by
  induction f generalizing cs gone with
  | nil => rw [Forest.removals, List.append_nil]; rfl
  | cons v k inside rest ihInside ihRest =>
      rw [Forest.clusters, List.map_append, List.map_cons] at hd hcs
      obtain ⟨hself, hrest, hdisj⟩ := List.nodup_append.mp hd
      obtain ⟨hk, hinside⟩ := List.nodup_cons.mp hself
      have henter : (remover.enter (remover.announce (a.without cs, gone) k.id) k.id).1
          = (a.without cs, gone) := rfl
      -- A cluster goes after those inside it, so it is still there when they are gone.
      have hkcs : k.id ∉ inside.clusters.map Cluster.id ++ cs := fun hmem =>
        (List.mem_append.mp hmem).elim hk (hcs k.id (by simp))
      rw [passes_remover.state_along_cons, henter,
        ihInside hf.2.1 hinside (fun d hmem => hcs d (by simp [hmem])),
        hl.leave_remover hf.1 hkcs, ihRest hf.2.2 hrest (fun d hmem hin => ?_)]
      · rw [Forest.removals, ← List.append_assoc, ← List.append_assoc]
        congr 1
        refine without_congr a (fun d => ?_)
        simp only [Forest.clusters, List.map_append, List.map_cons, List.mem_append, List.mem_cons]
        tauto
      · rcases List.mem_cons.mp hin with rfl | hin
        · exact hdisj _ List.mem_cons_self _ hmem rfl
        · rcases List.mem_append.mp hin with hin | hin
          · exact hdisj d (List.mem_cons_of_mem _ hin) d hmem rfl
          · exact hcs d (List.mem_append_right _ hmem) hin

/-- Taking a cluster out takes everything inside it out, with each cluster after
    those inside it; other clusters may be gone before. -/
theorem Lays.ends_teardown (hs : t.Sound) (hb : t.find? b.cluster.id = some b) (cs : List ClusterId)
    (hcs : ∀ d ∈ b.clusters.map Cluster.id, d ∉ cs) :
    EndsWithin (2 * b.clusters.length) (fun steps => (a.without cs).teardown steps b.cluster.id)
      (fun r => r.Covers (t.links.Inside b.cluster.id) ∧ r.stopped = false
        ∧ r.state = (a.without (b.clusters.map Cluster.id ++ cs), b.removals)) := by
  have hkeeps : ∀ d, (a.without cs).get? d = none ∨ (a.without cs).get? d = a.get? d := fun d => by
    by_cases hd : d ∈ cs
    · exact Or.inl (get?_without_eq_none a hd)
    · exact Or.inr (get?_without a hd)
  have hgone : ∀ d ∈ b.clusters.map Cluster.id,
      d ∉ (a.cells.map Cell.id).filter (fun d => !(a.without cs).isLive d) := by
    intro d hd hmem
    have hlive : (a.without cs).isLive d = true := by
      rw [Arena.isLive, get?_without a (hcs d hd), ← Arena.isLive, hl.isLive, Tree.isLive_iff]
      refine Multiset.mem_of_le (Multiset.map_le_map (Tree.nodes_le_of_find? hb)) ?_
      rw [← Branch.ids, Branch.ids_eq_clusters]
      exact hd
    rw [List.mem_filter, hlive] at hmem
    exact Bool.false_ne_true hmem.2
  have hnodup : (b.clusters.map Cluster.id).Nodup := by
    rw [← Multiset.coe_nodup, ← Branch.ids_eq_clusters]
    exact hs.distinct.nodup_branch hb
  refine ⟨_, fun steps hsteps => hl.reads_remover.visit_branch (s := (a.without cs, [])) hs.distinct
    hb hkeeps hgone hsteps,
    hs.covers_inside hb (Visitor.around_through (Visitor.along_through b.inside)) rfl, ?_⟩
  rw [passes_remover.around (passes_remover.stopped_along b.inside)]
  have henter : (remover.enter (a.without cs, []) b.cluster.id).1 = (a.without cs, []) := rfl
  rw [Branch.clusters, List.map_cons] at hnodup hcs
  obtain ⟨hself, hinside⟩ := List.nodup_cons.mp hnodup
  have hcs' : b.cluster.id ∉ b.inside.clusters.map Cluster.id ++ cs := fun hmem =>
    (List.mem_append.mp hmem).elim hself (hcs _ List.mem_cons_self)
  refine ⟨rfl, ?_⟩
  rw [henter, hl.state_along_remover (hs.distinct.livesIn hb) hinside
    (fun d hmem => hcs d (List.mem_cons_of_mem _ hmem)), hl.leave_remover hb hcs']
  rfl

end Remover

end Arena

end NestedGraph
