import NestedGraph.Arena.Replica
import NestedGraph.Proofs.Removing
import NestedGraph.Proofs.StepwiseCopy
import NestedGraph.Proofs.Transplant

/-! # Replicating — a cluster of one arena copied into another

    The clusters of the source are visited by their ids, and the forest that
    the act copies is the one that its arena lays out.  So the job follows
    the act cluster by cluster: each copy is numbered, listed and filled
    before the next comes, and only the numbers may run out. -/

namespace NestedGraph

variable {d : Desk} {s : Session}

namespace Job

variable {α β : Type} {c into : ClusterId} {b : Branch}

/-! ## One cluster -/

section Content

variable (cloner : Cloner Nat)

theorem clone_follows (hm : d.Matches s) (x : StateM Nat α) :
    Follows (clone x) (Act.clone x) d s (Agree 0) := by
  rintro a s' hrun
  obtain ⟨ha, rfl⟩ := Prod.mk.inj hrun
  refine ⟨(x d.serial).1, { d with serial := (x d.serial).2 }, rfl, ?_, hm.arena, hm.ids, ?_,
    hm.reported⟩
  · rw [hm.serial]
    exact Except.ok.inj ha
  · show (x d.serial).2 = (x s.serial).2
    rw [hm.serial]

theorem copyVertices_follows (entries : List (LocalVertex × VertexRecord)) (hm : d.Matches s)
    (into : ClusterId) : Follows (copyVertices cloner into entries)
      (Act.copyVertices cloner into entries) d s (Agree 0) := by
  induction entries generalizing d s with
  | nil => exact pure_follows hm []
  | cons entry rest ih =>
      obtain ⟨v, r⟩ := entry
      rw [copyVertices, Act.copyVertices]
      refine (clone_follows hm _).bind (fun objects objects' d s h => ?_)
      obtain ⟨rfl, hm⟩ := h
      refine (putVertex_follows hm _).bind (fun w w' d s h => ?_)
      obtain ⟨rfl, hm⟩ := h
      refine (ih hm).bind (fun names names' d s h => ?_)
      obtain ⟨rfl, hm⟩ := h
      exact pure_follows hm _

theorem copyEdges_follows (names : Renaming) (links : List Link) (hm : d.Matches s)
    (into : ClusterId) : Follows (copyEdges cloner into names links)
      (Act.copyEdges cloner into names links) d s (Agree 0) := by
  induction links generalizing d s with
  | nil => exact pure_follows hm ()
  | cons l rest ih =>
      rw [copyEdges, Act.copyEdges]
      cases names.handle? l.first with
      | none => exact ih hm
      | some v =>
          cases names.handle? l.second with
          | none => exact ih hm
          | some w =>
              dsimp only
              refine (clone_follows hm _).bind (fun carried carried' d s h => ?_)
              obtain ⟨rfl, hm⟩ := h
              refine Follows.after_look (fun b hb => ?_)
              have hb := Tree.of_require hb
              refine Follows.after_read (cell_of_find? hm.arena hb) ?_
              by_cases hlive : (!(b.cluster.storage.hasVertex v && b.cluster.storage.hasVertex w)) = true
              · rw [if_pos hlive]
                intro a s' hrun
                cases (Prod.mk.inj hrun).1
              · have hlive' : ¬ (!((s.graph.tree.cell b).storage.hasVertex v
                    && (s.graph.tree.cell b).storage.hasVertex w)) = true := hlive
                rw [if_neg hlive, if_neg hlive']
                exact (mapStorage_follows hm (Multiset.notMem_zero into) _).bind
                  (fun _ _ d s h => ih h.2)

theorem copyContent_follows (hm : d.Matches s) (source : Cluster) (into : ClusterId) :
    Follows (copyContent cloner source into) (Act.copyContent cloner source into) d s (Agree 0) := by
  rw [copyContent, Act.copyContent]
  refine Follows.after_look (fun b hb => ?_)
  have hrewrite : Follows
      (rewrite into (fun k => k.mapCluster (fun k => { k with properties := source.properties })))
      (Act.edit (fun t => t.mapCluster into (fun k => { k with properties := source.properties }))) d s
      (Agree 0) :=
    Follows.after_read (cell_of_find? hm.arena (Tree.of_require hb))
      (edit_follows hm _ _ (hm.arena.mapCluster (Multiset.notMem_zero into) (fun _ => rfl)))
  refine hrewrite.bind (fun _ _ d s h => ?_)
  refine (copyVertices_follows cloner _ h.2 into).bind (fun names names' d s h => ?_)
  obtain ⟨rfl, hm⟩ := h
  exact (copyEdges_follows cloner names _ hm into).bind (fun _ _ d s h => pure_follows h.2 names)

end Content

/-! ## Nested clusters -/

/-- A new cluster is listed on a vertex that stands for no other. -/
theorem adopt_run {t : Tree} {serial : Nat} (hm : d.Matches (s.reach t serial)) (ht : t.Roomy)
    (hb : t.find? into = some b) {w : LocalVertex} (hw : w ∉ b.inside.entries.map Prod.fst) :
    (alloc into w d = .error .overflow ∧ 2 ^ 64 ≤ t.nextClusterId + 1)
      ∨ ∃ between hung, alloc into w d = .ok (.ok ⟨t.nextClusterId⟩, between)
        ∧ rewrite into (Cell.hang w ⟨t.nextClusterId⟩) between = .ok (.ok (), hung)
        ∧ hung.Matches (s.reach (t.hang into (.single w ⟨t.config.newCluster ⟨t.nextClusterId⟩, .nil⟩)
          (t.nextClusterId + 1)) serial) := by
  rcases alloc_run hm.arena ht.bound hb hw with hover | ⟨grown, halloc, hgrown, hhung⟩
  · exact Or.inl hover
  · obtain ⟨k, hget, -⟩ := hgrown.exists_get? (b := b) hb
    have hcell : cell into (d.withArena grown) = .ok (.ok k, d.withArena grown) := by
      rw [cell, look_run, Desk.arena_withArena, Arena.require, hget]
    exact Or.inr ⟨d.withArena grown, _, halloc, bind_of_ok hcell,
      ⟨hhung, hm.ids, hm.serial, hm.reported⟩⟩

section Nested

variable (cloner : Cloner Nat) {source : Arena} {tree : Tree} (hsource : source.Lays tree)
include hsource

/-- A cluster is copied with everything inside it, if what is inside it is. -/
theorem copyCluster_reaches {k : Cluster} {inside : Forest} (hk : tree.find? c = some ⟨k, inside⟩)
    {names : Renaming} {s1 s2 : Session} {ids : List ClusterId} {depth : Nat} (hm : d.Matches s)
    (hcontent : Act.copyContent cloner k into s = (.ok names, s1))
    (hinside : ∀ d1 : Desk, d1.Matches s1 → Reaches (copyChildren
      (fun child copy => copyCluster cloner source depth child copy) names into inside.entries) d1 ids
        s2) :
    Reaches (copyCluster cloner source (depth + 1) c into) d (c :: ids) s2 := by
  have hread : settle (source.require c) d = .ok (.ok (tree.cell ⟨k, inside⟩), d) := by
    rw [settle, hsource.require, Tree.require_of_find? hk]
    rfl
  obtain ⟨names', d1, hrun, rfl, hm1⟩ := copyContent_follows cloner hm k into _ _ hcontent
  rw [copyCluster]
  refine Reaches.step hread (Reaches.step hrun ?_)
  refine (hinside d1 hm1).bind (Nat.le_refl _) (fun d2 hm2 => Or.inr ⟨d2, rfl, hm2⟩)

/-- The clusters that a cluster lists are copied as the forest inside it is.  A
    copy is listed before it is filled, so the induction is on the forest, with
    a tree that grows from one cluster to the next. -/
theorem copyChildren_reaches {config : Config} {f : Forest} (hlives : f.LivesIn tree)
    (hf : ∀ n ∈ f.nodes, n.Sound config) (hkeys : (f.entries.map Prod.fst).Nodup) {names : Renaming}
    (hnames : ∀ e ∈ f.entries, ∃ w, names.handle? e.1 = some w)
    (hinj : ∀ v u w, names.handle? v = some w → names.handle? u = some w → v = u)
    {t : Tree} (ht : t.Roomy) (hb : t.find? into = some b)
    (hfresh : ∀ e ∈ f.entries, ∀ w, names.handle? e.1 = some w → w ∉ b.inside.entries.map Prod.fst)
    {serial : Nat} (hm : d.Matches (s.reach t serial)) {depth : Nat} (hdepth : f.clusters.length ≤ depth)
    {out : (Forest × Nat) × Nat} (hout : f.clone cloner names t.nextClusterId serial = out) :
    Reaches (copyChildren (fun child copy => copyCluster cloner source depth child copy) names into
      f.entries) d (f.clusters.map Cluster.id) (s.reach (t.hang into out.1.1 out.1.2) out.2) := by
  induction f generalizing names t into b d serial out depth with
  | nil =>
      obtain rfl := hout
      refine Or.inr ⟨d, rfl, ?_⟩
      show d.Matches (s.reach (t.hang into .nil t.nextClusterId) serial)
      rwa [Tree.hang_nil]
  | cons v k inside rest ihInside ihRest =>
      obtain ⟨hk, hin, hin'⟩ := Forest.forall_nodes_cons.mp hf
      have hstored : k.storage.Sound := hk.storage
      obtain ⟨w, storage, inner, serial1, inside', next', serial2, rest', next'', serial3, hw,
        hstorage, hcopies, hinside, hgrows, hrest, hgrows', hclone⟩ :=
        Forest.exists_clone_cons cloner hk hin hin' hnames t.nextClusterId serial
      obtain rfl := hclone.symm.trans hout
      have hinner : ∀ e ∈ inside.entries, ∃ w, inner.handle? e.1 = some w :=
        fun e he => hcopies.exists_handle? (hk.held e he)
      have hmem : into ∈ t.ids := Tree.mem_ids_iff.mpr ⟨b, hb⟩
      rw [Forest.entries_cons, List.map_cons, List.nodup_cons] at hkeys
      -- The new cluster is listed before it has content.
      have hstart : copyChildren (fun child copy => copyCluster cloner source depth child copy) names
          into (Forest.cons v k inside rest).entries = (do
            let copy ← alloc into w
            rewrite into (Cell.hang w copy)
            let filled ← copyCluster cloner source depth k.id copy
            return filled ++ (← copyChildren
              (fun child copy => copyCluster cloner source depth child copy) names into
                rest.entries)) := by
        rw [Forest.entries_cons, copyChildren, hw]
      rw [hstart]
      rcases adopt_run hm ht hb (hfresh _ List.mem_cons_self w hw) with
        ⟨hover, hnext⟩ | ⟨between, d1, halloc, hhang, hm1⟩
      · exact Or.inl ⟨bind_of_halt hover, hnext.trans (hgrows.later.trans hgrows'.later)⟩
      refine Reaches.step halloc (Reaches.step hhang ?_)
      -- What is inside it is copied into it.
      let child : ClusterId := ⟨t.nextClusterId⟩
      let copy : Cluster := ⟨child, storage, k.properties, false⟩
      have hadopts : t.Adopts into b w copy inside' next' :=
        ht.adopts hb w rfl hgrows.later hgrows.distinct hgrows.bound
      rw [Forest.clusters, List.length_append, List.length_cons] at hdepth
      have hbeside : rest.clusters.length ≤ depth := by omega
      obtain ⟨depth, rfl⟩ : ∃ n, depth = n + 1 := ⟨depth - 1, by omega⟩
      have hwithin : inside.clusters.length ≤ depth := by omega
      have hchild : Reaches (copyCluster cloner source (depth + 1) k.id child) d1
          (k.id :: inside.clusters.map Cluster.id)
          (s.reach (t.hang into (.single w ⟨copy, inside'⟩) next') serial2) := by
        refine copyCluster_reaches cloner hsource hlives.1 hm1
          (Act.copyContent_hang cloner ht hmem w hstored hstorage) (fun d2 hm2 => ?_)
        have hinto := ihInside hlives.2.1 hin hk.keys hinner (fun _ _ _ => hcopies.injective)
          hadopts.leafRoomy hadopts.leaf (fun _ _ _ _ => List.not_mem_nil) hm2 hwithin hinside
        rwa [hadopts.whole] at hinto
      refine hchild.bind hgrows'.later (fun d3 hm3 => ?_)
      -- The rest of the forest hangs beside it.
      have hlast := ihRest hlives.2.2 hin' hkeys.2 (fun e he => hnames e (List.mem_cons_of_mem _ he))
        hinj hadopts.roomy hadopts.around (fun e he u hu => ?_) hm3 hbeside hrest
      · rw [Tree.hang_hang] at hlast
        refine hlast.bind (Nat.le_refl _) (fun d4 hm4 => Or.inr ⟨d4, ?_, hm4⟩)
        rw [Forest.clusters, List.map_append]
        rfl
      · rw [Forest.entries_append, List.map_append, List.mem_append, not_or]
        refine ⟨hfresh e (List.mem_cons_of_mem _ he) u hu, fun hmem => hkeys.1 ?_⟩
        obtain rfl : u = w := by simpa using hmem
        have hev : e.1 = v := hinj e.1 v u hu hw
        exact List.mem_map.mpr ⟨e, he, hev⟩

/-- A cluster and what is inside it are copied into a cluster that has nothing. -/
theorem copyCluster_withBranch {config : Config} {branch x : Branch} (htree : tree.Distinct)
    (hbranch : tree.find? branch.cluster.id = some branch)
    (hnodes : ∀ n ∈ branch.nodes, n.Sound config) {t : Tree} {k : Cluster}
    (hb : t.find? k.id = some x)
    (hroom : ∀ k' : Cluster, k'.id = k.id → (t.withBranch ⟨k', .nil⟩).Roomy)
    (hblank : k.storage.Blank) {serial serial1 serial2 next : Nat} {storage : Storage}
    {names : Renaming} {inside : Forest}
    (hstorage : cloneStorage cloner branch.cluster.storage k.storage serial
      = ((storage, names), serial1))
    (hinside : branch.inside.clone cloner names t.nextClusterId serial1 = ((inside, next), serial2))
    (hm : d.Matches (s.reach (t.withBranch ⟨k, .nil⟩) serial)) {depth : Nat}
    (hdepth : branch.clusters.length ≤ depth) :
    Reaches (copyCluster cloner source depth branch.cluster.id k.id) d
      (branch.clusters.map Cluster.id)
      (s.reach (Tree.withBranch { t with nextClusterId := next }
        ⟨{ k with storage := storage, properties := branch.cluster.properties }, inside⟩) serial2) := by
  have hnode : branch.node.Sound config := hnodes _ branch.node_mem_nodes
  have hstored : branch.cluster.storage.Sound := hnode.storage
  obtain ⟨hcopies, -⟩ := cloneStorage_spec cloner hstored hblank serial
  rw [hstorage] at hcopies
  have hinner : ∀ e ∈ branch.inside.entries, ∃ w, names.handle? e.1 = some w := fun e he =>
    hcopies.exists_handle? (hnode.held e he)
  let filled : Branch :=
    ⟨{ k with storage := storage, properties := branch.cluster.properties }, .nil⟩
  have hcontent : Act.copyContent cloner branch.cluster k.id (s.reach (t.withBranch ⟨k, .nil⟩) serial)
      = (.ok names, s.reach (t.withBranch filled) serial1) :=
    Act.copyContent_withBranch s cloner hstored (b := ⟨k, .nil⟩) hb (hroom k rfl).distinct hblank
      serial hstorage
  rw [Branch.clusters, List.length_cons] at hdepth
  obtain ⟨depth, rfl⟩ : ∃ n, depth = n + 1 := ⟨depth - 1, by omega⟩
  have hfind : tree.find? branch.cluster.id = some ⟨branch.cluster, branch.inside⟩ := hbranch
  refine copyCluster_reaches cloner hsource hfind hm hcontent (fun d1 hm1 => ?_)
  have hnested := copyChildren_reaches cloner hsource (htree.livesIn hbranch)
    (fun n hn => hnodes n (Multiset.mem_cons_of_mem hn)) hnode.keys hinner
    (fun _ _ _ => hcopies.injective) (hroom filled.cluster rfl)
    (Tree.find?_withBranch (b := filled) hb) (fun _ _ _ _ => List.not_mem_nil) hm1
    (Nat.le_of_succ_le_succ hdepth) hinside
  rwa [show k.id = filled.cluster.id from rfl, Tree.hang_withBranch] at hnested

end Nested

/-! ## The content that goes -/

/-- Children are gone one after the other, while the cluster still lists them. -/
theorem teardownAll_run {t : Tree} {a : Arena} (ha : a.Lays t) (hs : t.Sound) {f : Forest}
    (hlives : f.LivesIn t) (hnodup : (f.clusters.map Cluster.id).Nodup) (cs : List ClusterId)
    (hcs : ∀ e ∈ f.clusters.map Cluster.id, e ∉ cs) (hd : d.arena = a.without cs) :
    teardownAll (f.entries.map Prod.snd) d = .ok (.ok (),
      { d with
        arena := a.without (f.clusters.map Cluster.id ++ cs)
        reported := d.reported ++ f.removals }) := by
  induction f generalizing d cs with
  | nil =>
      rw [Forest.removals, List.append_nil, Forest.clusters, List.map_nil, List.nil_append, ← hd]
      rfl
  | cons v k inside rest _ ihRest =>
      rw [Forest.clusters, List.map_append] at hnodup hcs
      obtain ⟨-, hrest, hdisj⟩ := List.nodup_append.mp hnodup
      let gone := (Branch.clusters ⟨k, inside⟩).map Cluster.id ++ cs
      have hfirst := teardown_run ha hs (b := ⟨k, inside⟩) hlives.1 cs
        (fun e he => hcs e (List.mem_append_left _ he)) hd
      have hothers := ihRest hlives.2.2 hrest gone
        (d := { d with
          arena := a.without gone
          reported := d.reported ++ Branch.removals ⟨k, inside⟩ })
        (fun e he hin => (List.mem_append.mp hin).elim (fun hin => hdisj e hin e he rfl)
          (hcs e (List.mem_append_right _ he))) rfl
      refine (bind_of_ok hfirst).trans (hothers.trans ?_)
      have hsame : a.without (rest.clusters.map Cluster.id ++ gone)
          = a.without ((Forest.cons v k inside rest).clusters.map Cluster.id ++ cs) := by
        refine Arena.without_congr a (fun e => ?_)
        rw [Forest.clusters, List.map_append, List.append_assoc, List.mem_append, List.mem_append,
          List.mem_append, List.mem_append]
        exact or_left_comm
      rw [hsame, Forest.removals, List.append_assoc]
      rfl

/-- A cluster loses all that is in it and inside it, and nobody hears of what
    was removed. -/
theorem clearContent_run {t : Tree} (hl : d.arena.Lays t) (hs : t.Sound)
    (hb : t.find? b.cluster.id = some b) :
    ∃ a : Arena, clearContent b.cluster.id d = .ok (.ok (), d.withArena a) ∧ a.Lays (t.emptied b) := by
  obtain ⟨names, hinside, hnames⟩ := subtreeGlobals_run hl hs hb
  have hlive : b.cluster.id ∈ t.ids := Tree.mem_ids_iff.mpr ⟨b, hb⟩
  obtain ⟨a, hpurge, hl'⟩ := purgeAbove_clears hl hs hlive (GlobalEdge.touches b.globals)
  let purged : Desk := { d with
    arena := a
    reported := d.reported
      ++ (t.matchingAbove (GlobalEdge.touches b.globals) b.cluster.id).map .edge }
  have hs' := hs.withdrawAbove (GlobalEdge.touches b.globals) b.cluster.id
  have hb' := hs.distinct.find?_withdrawAbove (GlobalEdge.touches b.globals) hb
  have hread : read (fun a => a.get? b.cluster.id) purged = .ok (.ok (some
      ((t.withdrawAbove (GlobalEdge.touches b.globals) b.cluster.id).cell b)), purged) := by
    rw [read, hl'.get?, hb']
    rfl
  have hids := (hs'.distinct.nodup_inside hb').2
  rw [Forest.ids_eq_clusters, Multiset.coe_nodup] at hids
  have hgone := teardownAll_run (d := purged) hl' hs' (hs'.distinct.livesIn hb') hids []
    (fun _ _ => List.not_mem_nil) (Arena.without_nil a).symm
  rw [List.append_nil] at hgone
  refine ⟨(a.without (b.inside.clusters.map Cluster.id)).modify b.cluster.id Cell.clear, ?_, ?_⟩
  · have htouches := congrArg (fun p => purgeAbove p b.cluster.id d) (GlobalEdge.touches_congr hnames)
    rw [clearContent]
    refine (silently_run ((bind_of_ok hinside).trans ((bind_of_ok (htouches.trans hpurge)).trans
      ((bind_of_ok hread).trans ((bind_of_ok hgone).trans rfl))))).trans rfl
  · rw [← Arena.without_modify (f := Cell.clear) (fun _ => rfl)]
    exact (hl'.clear hb').without (Forest.ids_eq_clusters _).symm

/-! ## Whole copies -/

theorem setCopyMode_follows (hm : d.Matches s) (c : ClusterId) (on : Bool) :
    Follows (setCopyMode c on) (Act.setCopyMode c on) d s (Agree 0) := by
  rw [setCopyMode, Act.setCopyMode]
  exact Follows.after_look (fun b hb => Follows.after_read
    (cell_of_find? hm.arena (Tree.of_require hb))
    (edit_follows hm _ _ (hm.arena.mapCluster (Multiset.notMem_zero c) (fun _ => rfl))))

theorem Reaches.attempt {x : Job α} {a : α} (h : Reaches x d a s) :
    Reaches (attempt x) d (.ok a) s := by
  rcases h with ⟨hover, hnext⟩ | ⟨d', hx, hm⟩
  · exact Or.inl ⟨by rw [Job.attempt, hover], hnext⟩
  · exact Or.inr ⟨d', by rw [Job.attempt, hx], hm⟩

section Whole

variable (cloner : Cloner Nat) {source : Arena} {tree t : Tree} (hsource : source.Lays tree)

/-- The ids that stay are looked for in the clusters that stay. -/
theorem keptIds_run (hl : d.arena.Lays t) (hs : t.Sound) (hb : t.find? b.cluster.id = some b) :
    ∃ ids, keptIds b.cluster.id d = .ok (.ok ids, d) ∧ ∀ id, id ∈ ids ↔ id ∈ t.remainingIds b := by
  obtain ⟨names, hinside, hnames⟩ := subtreeGlobals_run hl hs hb
  obtain ⟨r, hr, -, -, hids⟩ := hs.ends_collectKept hb names
  refine ⟨r.state, (bind_of_ok hinside).trans (traverse_run ?_), hids hnames⟩
  rw [hl.links, hl.count, hl.root]
  exact hr _ (Nat.le_refl _)

include hsource

/-- The first id in the way is the one that the check of the copy names. -/
theorem firstIdIn_run (htree : tree.Sound) {branch : Branch}
    (hbranch : tree.find? branch.cluster.id = some branch) {ids kept : List UInt64}
    (hids : ∀ id, id ∈ ids ↔ id ∈ kept) :
    firstIdIn source ids branch.cluster.id d
      = .ok (.ok ((branch.clustersLastFirst.flatMap (fun k => k.storage.ids)).find?
        (fun id => decide (id ∈ kept))), d) := by
  obtain ⟨r, hr, -, hfound⟩ := htree.ends_seekId hbranch ids
  have hsame : (fun id => decide (id ∈ ids)) = fun id => decide (id ∈ kept) :=
    funext fun id => decide_eq_decide.mpr (hids id)
  refine (traverse_run (r := r) ?_).trans ?_
  · rw [hsource.links, hsource.count]
    exact hr _ (Nat.le_refl _)
  · rw [hfound.1, hsame]

/-- What is checked before a copy is what the tree checks. -/
theorem copyInto_run (htree : tree.Sound) (hl : d.arena.Lays t) (hs : t.Sound) (count : UInt64)
    (c into : ClusterId) :
    copyInto cloner source count c into d
      = (settle (tree.copyable c t into) >>= fun place => do
          prepare count into
          let result ← attempt (copyCluster cloner source source.count c into)
          setCopyMode into place.2.cluster.copyMode
          let _ ← settle result) d := by
  rw [copyInto, bind_of_ok (config_run hl), hsource.config, Tree.copyable]
  by_cases hcompat : (!tree.config.compatible t.config) = true
  · rw [if_pos hcompat, if_pos hcompat]
    exact (refused _).symm
  · rw [if_neg hcompat, if_neg hcompat]
    have hread : settle (source.require c) d = .ok (tree.cell <$> tree.require c, d) := by
      rw [settle, hsource.require]
    refine bind_of_checks_map hread (fun branch hbranch => ?_)
    refine bind_of_checks_map (cell_run hl into) (fun place hplace => ?_)
    have hbranch := Tree.of_require hbranch
    have hplace := Tree.of_require hplace
    obtain rfl := Tree.id_of_find? hbranch
    obtain rfl := Tree.id_of_find? hplace
    obtain ⟨ids, hkept, hids⟩ := keptIds_run hl hs hplace
    refine (bind_of_ok hkept).trans ((bind_of_ok (firstIdIn_run hsource htree hbranch hids)).trans ?_)
    dsimp only
    cases (branch.clustersLastFirst.flatMap (fun k => k.storage.ids)).find?
        (fun id => decide (id ∈ t.remainingIds place)) with
    | some id => exact (refused _).symm
    | none =>
        show _ = (settle (Except.ok (branch, place)) >>= _) d
        rw [checked]
        rfl

section Place

variable {place : Branch} (hm : d.Matches s) (hs : s.graph.tree.Sound)
  (hplace : s.graph.tree.find? place.cluster.id = some place)
include hm hs hplace

omit hsource in
/-- A cluster is empty, and in copy mode, when the copy starts. -/
theorem prepare_run (count : UInt64) :
    ∃ d', prepare count place.cluster.id d = .ok (.ok (), d')
      ∧ d'.Matches ((s.withGraph ⟨s.graph.tree, s.graph.ids.raise count⟩).reach
        ((s.graph.tree.withdrawAbove (GlobalEdge.touches place.globals) place.cluster.id).withBranch
          ⟨{ place.cluster.cleared with copyMode := true }, .nil⟩) s.serial) := by
  let base := s.withGraph ⟨s.graph.tree, s.graph.ids.raise count⟩
  let around := s.graph.tree.withdrawAbove (GlobalEdge.touches place.globals) place.cluster.id
  let emptied : Branch := ⟨place.cluster.cleared, .nil⟩
  have hfind : around.find? place.cluster.id = some place :=
    hs.distinct.find?_withdrawAbove _ hplace
  obtain ⟨a, hclear, hl⟩ := clearContent_run hm.arena hs hplace
  rw [hs.emptied_withBranch hplace] at hl
  have hm' : Desk.Matches { d.withArena a with ids := d.ids.raise count }
      (base.reach (around.withBranch emptied) s.serial) :=
    ⟨hl, congrArg (fun ids => ids.raise count) hm.ids, hm.serial, hm.reported⟩
  obtain ⟨_, d', hopen, -, hm''⟩ := setCopyMode_follows hm' place.cluster.id true _ _
    (Act.setCopyMode_withBranch base (b := emptied) hfind true s.serial)
  exact ⟨d', (bind_of_ok hclear).trans ((bind_of_ok rfl).trans hopen), hm''⟩

/-- The clusters of a branch are copied into a cluster that was made ready, in the
    order of the branch. -/
theorem copyCluster_prepared (htree : tree.Sound) (count : UInt64) {branch : Branch}
    (hbranch : tree.find? branch.cluster.id = some branch) {ready : Desk}
    (hready : prepare count place.cluster.id d = .ok (.ok (), ready)) {depth : Nat}
    (hdepth : source.count ≤ depth) {storage : Storage} {names : Renaming} {serial1 serial2 : Nat}
    (hstorage : cloneStorage cloner branch.cluster.storage place.cluster.cleared.storage s.serial
      = ((storage, names), serial1)) {inside : Forest} {next : Nat}
    (hinside : branch.inside.clone cloner names s.graph.tree.nextClusterId serial1
      = ((inside, next), serial2)) :
    Reaches (copyCluster cloner source depth branch.cluster.id place.cluster.id) ready
      (branch.clusters.map Cluster.id)
      ((s.withGraph ⟨s.graph.tree, s.graph.ids.raise count⟩).reach (Tree.withBranch
        { s.graph.tree.withdrawAbove (GlobalEdge.touches place.globals) place.cluster.id with
          nextClusterId := next }
        ⟨{ place.cluster.cleared with
            storage := storage, properties := branch.cluster.properties, copyMode := true }, inside⟩)
        serial2) := by
  obtain ⟨ready', hrun, hm'⟩ := prepare_run hm hs hplace count
  obtain ⟨-, rfl⟩ := Prod.mk.inj (Except.ok.inj (hready.symm.trans hrun))
  have hnext := Tree.nextClusterId_withdrawAbove s.graph.tree (GlobalEdge.touches place.globals)
    place.cluster.id
  rw [hsource.count] at hdepth
  exact copyCluster_withBranch cloner hsource htree.distinct hbranch (htree.of_find? hbranch)
    (k := { place.cluster.cleared with copyMode := true })
    (hs.distinct.find?_withdrawAbove _ hplace) (fun _ hk => hs.roomy_bare hplace _ hk)
    (Storage.blank_clear _) hstorage (hnext.symm ▸ hinside) hm'
    ((Tree.clusters_length_le hbranch).trans hdepth)

/-- A copy that is not refused goes through, or the numbers run out. -/
theorem replace_reaches (htree : tree.Sound) (count : UInt64) {branch : Branch}
    (hbranch : tree.find? branch.cluster.id = some branch) {serial : Nat}
    (hout : s.graph.tree.replaceContent cloner place branch s.serial = (t, serial)) :
    Reaches (do
        prepare count place.cluster.id
        let result ← attempt (copyCluster cloner source source.count branch.cluster.id place.cluster.id)
        setCopyMode place.cluster.id place.cluster.copyMode
        let _ ← settle result) d ()
      { s with graph := ⟨t, s.graph.ids.raise count⟩, serial := serial } := by
  generalize hstorage : cloneStorage cloner branch.cluster.storage place.cluster.cleared.storage
    s.serial = out1
  obtain ⟨⟨storage, names⟩, serial1⟩ := out1
  generalize hinside : branch.inside.clone cloner names s.graph.tree.nextClusterId serial1 = out2
  obtain ⟨⟨inside, next⟩, serial2⟩ := out2
  rw [Tree.replaceContent_eq, Branch.clone_of cloner hstorage hinside] at hout
  obtain ⟨rfl, rfl⟩ := Prod.mk.inj hout
  let around := s.graph.tree.withdrawAbove (GlobalEdge.touches place.globals) place.cluster.id
  have hfind : around.find? place.cluster.id = some place :=
    hs.distinct.find?_withdrawAbove _ hplace
  let nested : Branch := ⟨{ place.cluster.cleared with
    storage := storage, properties := branch.cluster.properties, copyMode := true }, inside⟩
  let base := s.withGraph ⟨s.graph.tree, s.graph.ids.raise count⟩
  let grown : Tree := { around with nextClusterId := next }
  obtain ⟨ready, hready, -⟩ := prepare_run hm hs hplace count
  have hwork := (copyCluster_prepared cloner hsource hm hs hplace htree count hbranch hready
    (Nat.le_refl _) hstorage hinside).attempt
  refine Reaches.step hready (hwork.bind (Nat.le_refl _) (fun d' hm' => ?_))
  obtain ⟨_, d'', hclose, -, hm''⟩ := setCopyMode_follows hm' place.cluster.id place.cluster.copyMode _ _
    (Act.setCopyMode_withBranch base (t := grown) (b := nested) hfind place.cluster.copyMode serial2)
  exact Reaches.step hclose (Or.inr ⟨d'', rfl, hm''⟩)

end Place

end Whole

/-- A copy from one arena into another ends as the copy from tree to tree. -/
theorem copyInto_performs (cloner : Cloner Nat) {source : Arena} {g : Graph}
    (hsource : source.Lays g.tree) (hg : g.tree.Sound) (hm : d.Matches s) (hs : s.graph.tree.Sound)
    (c into : ClusterId) :
    Performs (copyInto cloner source g.ids.count c into) (Act.copyInto cloner g c into) d s := by
  have hrun := copyInto_run cloner hsource hg hm.arena hs g.ids.count c into
  cases h : g.tree.copyable c s.graph.tree into with
  | error e =>
      rw [h, refused] at hrun
      exact .of_error hrun (Act.copyInto_of_error cloner h)
  | ok place =>
      obtain ⟨branch, place⟩ := place
      obtain ⟨-, hbranch, hplace, -⟩ := Tree.of_copyable h
      obtain rfl := Tree.id_of_find? hbranch
      obtain rfl := Tree.id_of_find? hplace
      generalize hout : s.graph.tree.replaceContent cloner place branch s.serial = out
      obtain ⟨t, serial⟩ := out
      rw [h, checked] at hrun
      rw [Performs, Act.copyInto_of_ok cloner hg hs h hout]
      exact (replace_reaches cloner hsource hm hs hplace hg g.ids.count hbranch hout).congr hrun

end Job

end NestedGraph
