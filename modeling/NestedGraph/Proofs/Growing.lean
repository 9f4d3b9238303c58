import NestedGraph.Proofs.Following

/-! # Growing — new vertices, clusters and edges in an arena

    The checks of an operation read the arena, and come to what they come
    to on the tree.  What is done after them follows what is done to the
    tree, where it cannot fail.  Only a new cluster may find that there is
    no number left for it. -/

namespace NestedGraph.Job

variable {α : Type} {d : Desk} {s : Session}

/-! ## Vertices -/

theorem putNewVertex_follows (hm : d.Matches s) (c : ClusterId) :
    Follows (putNewVertex c) (Act.bringInNew c) d s (Agree 0) := by
  rw [putNewVertex, Act.bringInNew]
  refine Follows.after_look (fun b hb => ?_)
  refine Follows.after_read (cell_of_find? hm.arena (Tree.of_require hb)) ?_
  refine (mint_follows hm).bind (fun id id' d s h => ?_)
  obtain ⟨rfl, hm⟩ := h
  have hconfig : read (fun a => a.config.newVertex ⟨id⟩) d
      = .ok (.ok (s.graph.tree.config.newVertex ⟨id⟩), d) := by
    rw [read, hm.arena.config]
  refine Follows.after_look (fun record hrecord => Follows.after_read hconfig ?_)
  obtain rfl := Except.ok.inj hrecord
  refine (putVertex_follows hm _).bind (fun v v' d s h => ?_)
  obtain ⟨rfl, hm⟩ := h
  exact pure_follows hm _

theorem addVertex_performs (hm : d.Matches s) (c : ClusterId) :
    Performs (addVertex c) (Act.addVertex c) d s := by
  cases hc : s.graph.tree.require c with
  | error e =>
      have hcell := cell_run hm.arena c
      rw [hc] at hcell
      exact .of_error (bind_of_error (bind_of_error hcell))
        (Act.bind_of_error (Act.bringInNew_of_error hc))
  | ok b =>
      have hfollows : Follows (addVertex c) (Act.addVertex c) d s (Agree 0) := by
        rw [addVertex, Act.addVertex]
        refine (putNewVertex_follows hm c).bind (fun new new' d s h => ?_)
        obtain ⟨rfl, hm⟩ := h
        exact (mark_follows hm (Multiset.notMem_zero c)).bind (fun _ _ d s h => pure_follows h.2 new)
      exact .of_follows hfollows (Act.bind_of_ok (Act.bringInNew_run (Tree.of_require hc)))

/-- A vertex whose id the caller chose is added as it is to the tree. -/
theorem addVertexNamed_meets {g : Graph} (hl : d.arena.Lays g.tree) (hids : d.ids = g.ids)
    (hs : g.tree.Sound) (c : ClusterId) (global : GlobalVertex) :
    Meets (addVertexNamed c global) d (g.addVertexNamed c global) := by
  rw [addVertexNamed, Graph.addVertexNamed]
  by_cases husable : (!global.isUsable) = true
  · rw [if_pos husable, if_pos husable]
    exact rfl
  · rw [if_neg husable, if_neg husable]
    refine Meets.bind_map (cell_run hl c) (fun b hb => ?_)
    have hb := Tree.of_require hb
    have hlocal := localVertex_run hl hs c global true
    have hrep : g.tree.localVertex? c global true = b.representative? global := by
      rw [Tree.localVertex?, hb]
      rfl
    rw [hrep] at hlocal
    refine Meets.bind_ok hlocal ?_
    cases b.representative? global with
    | some v => exact ⟨d.arena, by rw [← hids]; rfl, hl⟩
    | none =>
        have hc := Multiset.notMem_zero (α := ClusterId) c
        have hconfig : read (fun a => a.config.newVertex global) d
            = .ok (.ok (g.tree.config.newVertex global), d) := by
          rw [read, hl.config]
        have hput := hl.mapStorage hc (fun st => st.addVertex (g.tree.config.newVertex global))
        refine Meets.bind_ok hconfig ⟨_, ?_, hput.mark hc⟩
        refine (bind_of_ok (bind_of_ok (cell_of_find? hl hb))).trans ?_
        rw [← hids]
        rfl

/-! ## Clusters -/

section Alloc

variable {t : Tree} {c : ClusterId} {b : Branch}

/-- A new cluster is kept under the next number, unless that is the last one that
    there is. -/
theorem alloc_run (hl : d.arena.Lays t) (hbound : ∀ e ∈ t.ids, e.id < t.nextClusterId)
    (hb : t.find? c = some b) {v : LocalVertex} (hkeys : v ∉ b.inside.entries.map Prod.fst) :
    let child : ClusterId := ⟨t.nextClusterId⟩
    let started : Tree := { t with nextClusterId := t.nextClusterId + 1 }
    (alloc c v d = .error .overflow ∧ 2 ^ 64 ≤ t.nextClusterId + 1)
      ∨ ∃ grown : Arena, alloc c v d = .ok (.ok child, d.withArena grown)
        ∧ grown.Lays started (Branch.nodes ⟨t.config.newCluster child, .nil⟩)
        ∧ (grown.modify c (Cell.hang v child)).Lays
          (started.graft c v ⟨t.config.newCluster child, .nil⟩) := by
  intro child started
  by_cases hroom : d.arena.next + 1 = 0
  · refine Or.inl ⟨if_pos hroom, ?_⟩
    have hzero : (d.arena.next.toNat + 1) % 2 ^ 64 = 0 := by
      have h := congrArg UInt64.toNat hroom
      rwa [UInt64.toNat_add] at h
    rw [← hl.next]
    exact Nat.le_of_dvd (Nat.succ_pos _) (Nat.dvd_of_mod_eq_zero hzero)
  · obtain ⟨hgrown, hhung⟩ := hl.adopt hbound hroom hb hkeys
    have hid : (⟨d.arena.next.toNat⟩ : ClusterId) = child := congrArg ClusterId.mk hl.next
    refine Or.inr ⟨_, ?_, hgrown, hhung⟩
    rw [alloc]
    dsimp only
    rw [if_neg hroom, hid]
    rfl

end Alloc

theorem addCluster_performs (hm : d.Matches s) (hs : s.graph.tree.Sound) (c : ClusterId) :
    Performs (addCluster c) (Act.addCluster c) d s := by
  cases hc : s.graph.tree.require c with
  | error e =>
      have hcell := cell_run hm.arena c
      rw [hc] at hcell
      exact .of_error (bind_of_error (bind_of_error hcell))
        (Act.bind_of_error (Act.bringInNew_of_error hc))
  | ok b =>
      have hb := Tree.of_require hc
      obtain ⟨new, d1, hrun, rfl, hm1⟩ := putNewVertex_follows hm c _ _ (Act.bringInNew_run hb)
      let record := s.graph.tree.config.newVertex ⟨s.graph.ids.next⟩
      let t := s.graph.tree.receive c record none
      -- The vertex for the child is there already when its cluster is numbered, and adds no id.
      have hbound : ∀ e ∈ t.ids, e.id < t.nextClusterId := fun e he => by
        have hids : t.ids = s.graph.tree.ids :=
          hs.distinct.ids_mapCluster c (f := fun k => { k with storage := k.storage.addVertex record })
            (fun _ => rfl)
        exact hs.bound e (hids ▸ he)
      have hfind : t.find? c = some (b.receive record none) :=
        Tree.find?_mapStorage_self hb (fun st => st.addVertex record)
      have hkeys := (hs.nodes _ (Tree.node_mem_of_find? hb)).nextHandle_notMem
      have halloc := alloc_run (v := b.nextVertex) hm1.arena hbound hfind hkeys
      rw [Performs, Act.addCluster, Act.bind_of_ok (Act.bringInNew_run hb)]
      rcases halloc with ⟨hover, hnext⟩ | ⟨grown, halloc, hgrown, hhung⟩
      · refine Or.inl ⟨(bind_of_ok hrun).trans (bind_of_halt hover), hnext⟩
      · refine Or.inr ⟨_, (bind_of_ok hrun).trans ((bind_of_ok halloc).trans rfl), ?_⟩
        exact ⟨hhung.mark (Multiset.notMem_zero c), hm1.ids, hm1.serial, hm1.reported⟩

/-! ## Edges -/

section Checks

variable {β γ δ : Type} {x : Job α} {f : α → Job β} {rest : δ → Job β}

/-- A check that is read off the arena in a form of its own is one of several
    checks in a row. -/
theorem bind_of_checks_map {r : Except Error γ} {φ : γ → α} {k : γ → Except Error δ}
    (h : x d = .ok (φ <$> r, d)) (hf : ∀ a, r = .ok a → f (φ a) d = (settle (k a) >>= rest) d) :
    (x >>= f) d = (settle (r >>= k) >>= rest) d := by
  cases r with
  | error e => exact bind_of_error h
  | ok a => exact (bind_of_ok h).trans (hf a rfl)

theorem bind_of_checks {r : Except Error α} {k : α → Except Error δ} (h : x d = .ok (r, d))
    (hf : ∀ a, r = .ok a → f a d = (settle (k a) >>= rest) d) :
    (x >>= f) d = (settle (r >>= k) >>= rest) d := by
  cases r with
  | error e => exact bind_of_error h
  | ok a => exact (bind_of_ok h).trans (hf a rfl)

/-- All checks passed. -/
theorem checked (rest : δ → Job β) (a : δ) : (settle (.ok a) >>= rest) d = rest a d := bind_of_ok rfl

/-- A check failed. -/
theorem refused (e : Error) : (settle (.error e) >>= rest) d = .ok (.error e, d) := bind_of_error rfl

variable {g : Graph} (hl : d.arena.Lays g.tree)
include hl

theorem requireOrdinary_run (c : ClusterId) (v : LocalVertex) (global : GlobalVertex) :
    requireOrdinary c v global d = .ok (g.requireOrdinary c v global, d) := by
  rw [requireOrdinary, bind_of_ok (childAt_run hl c v), Graph.requireOrdinary, Tree.isClusterVertex]
  cases g.tree.childAt? c v <;> rfl

/-- The two ends of a new edge are checked as they are in the tree. -/
theorem addEdge_run (c : ClusterId) (v w : LocalVertex) :
    addEdge c v w d = (settle (g.edgeEnds c v w) >>= fun ends =>
      attachNew c v w ends.2.1 ends.2.2) d := by
  rw [addEdge, Graph.edgeEnds]
  by_cases hvw : v = w
  · rw [if_pos hvw, if_pos hvw]
    exact (refused _).symm
  · rw [if_neg hvw, if_neg hvw]
    refine bind_of_checks_map (requireVertex_run hl c v) (fun b _ => ?_)
    have hsource : (g.tree.cell b).storage.global? v = b.cluster.storage.global? v := rfl
    have htarget : (g.tree.cell b).storage.global? w = b.cluster.storage.global? w := rfl
    rw [hsource, htarget]
    cases b.cluster.storage.global? v with
    | none => exact (refused _).symm
    | some source =>
        cases b.cluster.storage.global? w with
        | none => exact (refused _).symm
        | some target =>
            refine bind_of_checks (requireOrdinary_run hl c v source) (fun _ _ => ?_)
            refine bind_of_checks (requireOrdinary_run hl c w target) (fun _ _ => ?_)
            show _ = (settle (Except.ok (b, source, target)) >>= _) d
            rw [checked]

variable (hs : g.tree.Sound)
include hs

theorem requireRepresentative_run {c : ClusterId} {b : Branch} (hb : g.tree.find? c = some b)
    (global : GlobalVertex) :
    requireRepresentative c global d = .ok (Graph.requireRepresentative b global, d) := by
  have hlocal := localVertex_run hl hs c global true
  have hrep : g.tree.localVertex? c global true = b.representative? global := by
    rw [Tree.localVertex?, hb]
    rfl
  rw [hrep] at hlocal
  rw [requireRepresentative, bind_of_ok hlocal, Graph.requireRepresentative]
  cases b.representative? global <;> rfl

theorem requireOrdinaryGlobal_run (c : ClusterId) (global : GlobalVertex) :
    requireOrdinaryGlobal c global d = .ok (g.requireOrdinaryGlobal c global, d) := by
  rw [requireOrdinaryGlobal, bind_of_ok (vertexOwner_run hl hs c global),
    Graph.requireOrdinaryGlobal]
  cases g.tree.vertexOwner? c global with
  | none => rfl
  | some place => exact requireOrdinary_run hl place.1 place.2 global

/-- The place of a new edge is looked for as it is in the tree. -/
theorem edgePlace_run (c : ClusterId) (source target : GlobalVertex) :
    edgePlace c source target d
      = .ok ((fun (b, v, w) => (b.cluster.id, v, w)) <$> g.edgePlace c source target, d) := by
  let place : Branch × LocalVertex × LocalVertex → Job (ClusterId × LocalVertex × LocalVertex) :=
    fun (b, v, w) => pure (b.cluster.id, v, w)
  have hmap : ∀ r : Except Error (Branch × LocalVertex × LocalVertex),
      (.ok ((fun (b, v, w) => (b.cluster.id, v, w)) <$> r, d)
        : Except Halt (Except Error (ClusterId × LocalVertex × LocalVertex) × Desk))
        = (settle r >>= place) d := by
    intro r
    cases r <;> rfl
  rw [hmap, edgePlace, Graph.edgePlace]
  refine bind_of_checks_map (cell_run hl c) (fun b hb => ?_)
  have hb := Tree.of_require hb
  obtain rfl := Tree.id_of_find? hb
  refine bind_of_checks (requireRepresentative_run hl hs hb source) (fun v _ => ?_)
  refine bind_of_checks (requireRepresentative_run hl hs hb target) (fun w _ => ?_)
  refine bind_of_checks (requireOrdinaryGlobal_run hl hs _ source) (fun _ _ => ?_)
  refine bind_of_checks (requireOrdinaryGlobal_run hl hs _ target) (fun _ _ => ?_)
  by_cases hvw : v ≠ w
  · rw [if_pos hvw, if_pos hvw]
    exact (checked place (b, v, w)).symm
  · rw [if_neg hvw, if_neg hvw]
    have hchild := childAt_run hl b.cluster.id v
    rw [Tree.childAt?, hb, Option.bind_some] at hchild
    refine (bind_of_ok hchild).trans ?_
    cases hx : b.inside.branchAt? v with
    | none => exact (refused _).symm
    | some child =>
        have hfind := hs.distinct.find?_of_branchAt? hb hx
        refine bind_of_checks (requireRepresentative_run hl hs hfind source) (fun v _ => ?_)
        refine bind_of_checks (requireRepresentative_run hl hs hfind target) (fun w _ => ?_)
        by_cases hvw : v = w
        · rw [if_pos hvw, if_pos hvw]
          exact (refused _).symm
        · rw [if_neg hvw, if_neg hvw]
          exact (checked place (child, v, w)).symm

end Checks

theorem addEdge_performs (hm : d.Matches s) (c : ClusterId) (v w : LocalVertex) :
    Performs (addEdge c v w) (Act.addEdge c v w) d s := by
  have hrun := addEdge_run hm.arena c v w
  cases hends : s.graph.edgeEnds c v w with
  | error e =>
      rw [hends] at hrun
      exact .of_error (hrun.trans (refused e)) (Act.bind_of_error (Act.look_of_error hends))
  | ok ends =>
      obtain ⟨b, source, target⟩ := ends
      obtain ⟨-, hb, hsource, htarget, -, -⟩ := Graph.of_edgeEnds hends
      have hact := Act.attachNew_run hb (Storage.hasVertex_of_global? hsource)
        (Storage.hasVertex_of_global? htarget) source target
      obtain ⟨new, d', hjob, rfl, hm'⟩ := attachNew_follows hm c v w source target _ _ hact
      rw [hends] at hrun
      rw [Performs, Act.addEdge, Act.bind_of_ok (Act.look_of_ok hends)]
      dsimp only
      rw [hact]
      exact Or.inr ⟨d', hrun.trans ((checked _ (b, source, target)).trans hjob), hm'⟩

theorem connect_performs (hm : d.Matches s) (hs : s.graph.tree.Sound) (c : ClusterId)
    (source target : GlobalVertex) :
    Performs (connect c source target) (Act.connect c source target) d s := by
  rw [connect, Act.connect]
  refine .check_map (edgePlace_run hm.arena hs c source target) (fun place hplace => ?_)
  obtain ⟨b, v, w⟩ := place
  obtain ⟨-, hb, hv, hw, -⟩ := Graph.of_edgePlace hs hplace
  have hsound := hs.nodes _ (Tree.node_mem_of_find? hb)
  have hact := Act.attachNew_run hb (Tree.Node.Sound.hasVertex_of_representative? hsound hv)
    (Tree.Node.Sound.hasVertex_of_representative? hsound hw) source target
  refine .of_follows ((attachNew_follows hm b.cluster.id v w source target).bind
    (fun new new' d s h => ?_)) (Act.bind_of_ok hact)
  obtain ⟨rfl, hm⟩ := h
  exact pure_follows hm _

end NestedGraph.Job
