import NestedGraph.Proofs.Connection
import NestedGraph.Proofs.Hierarchy
import NestedGraph.Tree.Traversal

/-! # Climbing — traversals that go up

    Going from cluster to cluster along the names of the clusters around
    ASCENDS: the way is the path of the cluster it starts from, so it comes
    by no cluster twice, and it ends at the root if nothing ends it
    earlier.  Since no two clusters of a path are the same, as many steps
    as there are clusters are enough.  A visit may change the tree that the
    way is read from, as long as the clusters stay where they are. -/

namespace NestedGraph

/-- A traversal ends with any number of steps from `bound` on, always the same
    way. -/
def EndsWithin {σ : Type} (bound : Nat) (run : Nat → Option (Trace σ)) (P : Trace σ → Prop) :
    Prop :=
  ∃ r, (∀ steps, bound ≤ steps → run steps = some r) ∧ P r

namespace Trace

variable {σ : Type} {r : Trace σ} {next : σ → Trace σ} {cs ds : List ClusterId}

/-- Goes on where a traversal came to, if nothing ended it. -/
def andThen (r : Trace σ) (next : σ → Trace σ) : Trace σ :=
  if r.stopped then r
  else { next r.state with visited := r.visited ++ (next r.state).visited }

theorem andThen_of_stop (h : r.stopped = true) : r.andThen next = r := if_pos h

theorem andThen_of_go (h : r.stopped = false) :
    r.andThen next = { next r.state with visited := r.visited ++ (next r.state).visited } :=
  if_neg (by rw [h]; exact Bool.false_ne_true)

/-- The clusters are visited in order, and all of them if nothing ends the
    traversal. -/
structure Through (r : Trace σ) (cs : List ClusterId) : Prop where
  sound : r.visited <+: cs
  complete : r.stopped = false → r.visited = cs

theorem through_refl (s : σ) (cs : List ClusterId) (stopped : Bool) :
    Through ⟨s, cs, stopped⟩ cs :=
  ⟨List.prefix_refl cs, fun _ => rfl⟩

theorem Through.andThen (h : r.Through cs) (h' : (next r.state).Through ds) :
    (r.andThen next).Through (cs ++ ds) := by
  cases hstop : r.stopped with
  | true =>
      rw [andThen_of_stop hstop]
      exact ⟨h.sound.trans (List.prefix_append ..), fun hgo => nomatch hstop.symm.trans hgo⟩
  | false =>
      rw [andThen_of_go hstop, h.complete hstop]
      exact ⟨(List.prefix_append_right_inj cs).mpr h'.sound,
        fun hgo => congrArg (cs ++ ·) (h'.complete hgo)⟩

end Trace

/-! ## Along a way that is known -/

section Along

variable {σ ι : Type} (visit : σ → ClusterId → Option ι → σ × Bool)

/-- Visits a cluster and, if that does not end the way, those around it. -/
def climbAlong : List (ClusterId × ι) → σ → ClusterId → Option ι → Trace σ
  | [], s, c, via => ⟨(visit s c via).1, [c], (visit s c via).2⟩
  | (parent, link) :: rest, s, c, via =>
      Trace.andThen ⟨(visit s c via).1, [c], (visit s c via).2⟩
        (fun s => climbAlong rest s parent (some link))

variable {visit} {way : List (ClusterId × ι)} {s : σ} {c p : ClusterId} {link : ι} {via : Option ι}

theorem climbAlong_cons_of_stop (h : (visit s c via).2 = true) :
    climbAlong visit ((p, link) :: way) s c via = ⟨(visit s c via).1, [c], true⟩ :=
  (Trace.andThen_of_stop h).trans (by rw [h])

theorem climbAlong_cons_of_go (h : (visit s c via).2 = false) :
    climbAlong visit ((p, link) :: way) s c via
      = (climbAlong visit way (visit s c via).1 p (some link)).after c :=
  Trace.andThen_of_go h

theorem climbAlong_through : (climbAlong visit way s c via).Through (c :: way.map Prod.fst) := by
  induction way generalizing s c via with
  | nil => exact Trace.through_refl ..
  | cons step rest ih => exact (Trace.through_refl _ [c] _).andThen ih

/-- Visits that end nothing do not end the way. -/
theorem stopped_climbAlong (h : ∀ s d via, (visit s d via).2 = false) :
    (climbAlong visit way s c via).stopped = false := by
  induction way generalizing s c via with
  | nil => exact h s c via
  | cons step rest ih =>
      rw [climbAlong_cons_of_go (h s c via)]
      exact ih

end Along

/-- A traversal that goes from a cluster to the ones around it, by no cluster
    twice, and to the root if nothing ends it. -/
structure Trace.Ascends {σ : Type} (r : Trace σ) (l : Links) (count : Nat) (root c : ClusterId) :
    Prop where
  start : r.visited.head? = some c
  links : r.visited.IsChain (fun d p => l.parent? d = some p)
  once : r.visited.Nodup
  bound : r.visited.length ≤ count
  root : r.stopped = false → r.visited.getLast? = some root

theorem Trace.Ascends.of_visited {σ τ : Type} {r : Trace σ} {r' : Trace τ} {l : Links} {count : Nat}
    {root c : ClusterId} (h : r.Ascends l count root c) (hvisited : r'.visited = r.visited)
    (hstopped : r'.stopped = r.stopped) : r'.Ascends l count root c :=
  ⟨hvisited ▸ h.start, hvisited ▸ h.links, hvisited ▸ h.once, hvisited ▸ h.bound,
    fun hgo => hvisited ▸ h.root (hstopped.symm.trans hgo)⟩

section Related

variable {σ τ ι : Type} {up? : σ → ClusterId → Option (ClusterId × ι)}
  {visit : σ → ClusterId → Option ι → σ × Bool} {up?' : τ → ClusterId → Option (ClusterId × ι)}
  {visit' : τ → ClusterId → Option ι → τ × Bool} {s : σ} {s' : τ} {c : ClusterId} {via : Option ι}

/-- More steps than are enough lead to the same. -/
theorem climb_add {steps : Nat} {r : Trace σ} (h : climb up? visit steps s c via = some r)
    (more : Nat) : climb up? visit (steps + more) s c via = some r := by
  induction steps generalizing s c via r with
  | zero => exact nomatch h
  | succ steps ih =>
      rw [Nat.succ_add, climb]
      rw [climb] at h
      rcases hv : visit s c via with ⟨x, _ | _⟩
      · rw [hv] at h
        cases hlink : up? x c with
        | none => simpa only [hlink] using h
        | some step =>
            simp only [hlink] at h ⊢
            obtain ⟨q, hq, rfl⟩ := Option.map_eq_some_iff.mp h
            rw [ih hq]
            rfl
      · rwa [hv] at h

variable {R : σ → τ → Prop} (hup : ∀ s s', R s s' → ∀ d, up? s d = up?' s' d)
  (hvisit : ∀ s s' d via, R s s' →
    R (visit s d via).1 (visit' s' d via).1 ∧ (visit s d via).2 = (visit' s' d via).2)
include hup hvisit

/-- Two ways up that read the same links, and change related states alike, come
    by the same clusters to related states. -/
theorem climb_related {steps : Nat} (hs : R s s') {r' : Trace τ}
    (h : climb up?' visit' steps s' c via = some r') :
    ∃ r, climb up? visit steps s c via = some r ∧ R r.state r'.state ∧ r.visited = r'.visited
      ∧ r.stopped = r'.stopped := by
  induction steps generalizing s s' c via r' with
  | zero => exact nomatch h
  | succ steps ih =>
      obtain ⟨hnext, hstop⟩ := hvisit s s' c via hs
      rw [climb] at h ⊢
      rcases hv : visit s c via with ⟨x, stop⟩
      rcases hv' : visit' s' c via with ⟨x', stop'⟩
      rw [hv, hv'] at hnext hstop
      rw [hv'] at h
      obtain rfl : stop = stop' := hstop
      cases stop with
      | true =>
          obtain rfl := Option.some.inj h
          exact ⟨_, rfl, hnext, rfl, rfl⟩
      | false =>
          have hlink := hup x x' hnext c
          cases hlink' : up?' x' c with
          | none =>
              simp only [hlink'] at h
              obtain rfl := Option.some.inj h
              simp only [hlink, hlink']
              exact ⟨_, rfl, hnext, rfl, rfl⟩
          | some step =>
              obtain ⟨p, link⟩ := step
              simp only [hlink'] at h
              obtain ⟨q, hq, rfl⟩ := Option.map_eq_some_iff.mp h
              obtain ⟨r, hr, hstate, hvisited, hstopped⟩ := ih hnext hq
              simp only [hlink, hlink', hr]
              exact ⟨_, rfl, hstate, congrArg (c :: ·) hvisited, hstopped⟩

variable (up? visit) in
theorem EndsWithin.climb {bound : Nat} {P : Trace τ → Prop}
    (h : EndsWithin bound (fun steps => climb up?' visit' steps s' c via) P) (hs : R s s') :
    EndsWithin bound (fun steps => climb up? visit steps s c via)
      (fun r => ∃ r', P r' ∧ R r.state r'.state ∧ r.visited = r'.visited ∧ r.stopped = r'.stopped) := by
  obtain ⟨r', hr', hP⟩ := h
  obtain ⟨r, hr, hrelated⟩ := climb_related hup hvisit hs (hr' bound (Nat.le_refl _))
  refine ⟨r, fun steps hsteps => ?_, r', hP, hrelated⟩
  rw [← Nat.add_sub_cancel' hsteps]
  exact climb_add hr _

end Related

namespace Tree

variable {σ ι : Type} {t t' : Tree} {c d last : ClusterId} {v : LocalVertex}

/-! ## The way up is a path -/

/-- The clusters on a path are alive. -/
theorem Distinct.mem_ids_of_mem_path (hd : t.Distinct) (h : (d, v) ∈ t.path c) : d ∈ t.ids := by
  obtain ⟨n, hn, rfl, -⟩ := hd.exists_child_of_mem_path h
  exact Multiset.mem_map_of_mem Node.id hn

/-- Each cluster of a path is around the one before. -/
theorem Distinct.isChain_path (hd : t.Distinct) (c : ClusterId) :
    (c :: (t.path c).map Prod.fst).IsChain (fun d p => t.parent? d = some p) := by
  induction hpath : t.path c generalizing c with
  | nil => exact List.isChain_singleton c
  | cons step rest ih =>
      obtain ⟨rfl, -⟩ := hd.path_eq_cons hpath
      refine List.isChain_cons_cons.mpr ⟨?_, ih step.1 rfl⟩
      rw [parent?, place?, hpath]
      rfl

theorem Distinct.nodup_way (hd : t.Distinct) (c : ClusterId) :
    (c :: (t.path c).map Prod.fst).Nodup := by
  refine List.nodup_cons.mpr ⟨fun hmem => ?_, hd.nodup_path c⟩
  obtain ⟨⟨_, v⟩, hstep, rfl⟩ := List.mem_map.mp hmem
  exact Nat.lt_irrefl _ (hd.length_path_lt hstep)

/-- A path from a live cluster ends at the root. -/
theorem Distinct.getLast?_way (hd : t.Distinct) (hc : c ∈ t.ids) :
    (c :: (t.path c).map Prod.fst).getLast? = some t.root := by
  induction hpath : t.path c generalizing c with
  | nil =>
      by_cases hroot : c = t.root
      · rw [hroot]
        rfl
      · obtain ⟨n, hn, v, hv⟩ := exists_parent hc hroot
        cases hpath.symm.trans (hd.path_child hn hv)
  | cons step rest ih =>
      obtain ⟨rfl, n, hn, hid, -⟩ := hd.path_eq_cons hpath
      have hlive : step.1 ∈ t.ids := hid ▸ Multiset.mem_map_of_mem _ hn
      rw [List.map_cons, List.getLast?_cons_cons]
      exact ih hlive rfl

theorem Distinct.length_path_lt_count (hd : t.Distinct) (hc : c ∈ t.ids) :
    (t.path c).length < t.clusterCount := by
  have hlive : ∀ d ∈ c :: (t.path c).map Prod.fst, d ∈ t.clusters.map Cluster.id := by
    intro d hmem
    rw [← Multiset.mem_coe, ← ids_eq_clusters]
    rcases List.mem_cons.mp hmem with rfl | hmem
    · exact hc
    · obtain ⟨⟨_, v⟩, hstep, rfl⟩ := List.mem_map.mp hmem
      exact hd.mem_ids_of_mem_path hstep
  have hle := (List.subperm_of_subset (hd.nodup_way c) hlive).length_le
  rw [List.length_cons, List.length_map, List.length_map] at hle
  exact hle

/-! ## Every traversal that goes up -/

/-- The way up, with something else in place of the vertices on it. -/
def pathBy (t : Tree) (link : LocalVertex → ι) (c : ClusterId) : List (ClusterId × ι) :=
  (t.path c).map (Prod.map (fun c => c) link)

section Climb

variable {link : LocalVertex → ι} {up? : σ → ClusterId → Option (ClusterId × ι)}
  {visit : σ → ClusterId → Option ι → σ × Bool} {s : σ} {via : Option ι} {steps : Nat}

theorem pathBy_fst (t : Tree) (link : LocalVertex → ι) (c : ClusterId) :
    (t.pathBy link c).map Prod.fst = (t.path c).map Prod.fst := by
  rw [pathBy, List.map_map]
  rfl

theorem pathBy_self (t : Tree) (c : ClusterId) : t.pathBy (fun v => v) c = t.path c :=
  List.map_id' _

theorem map_place?_self (t : Tree) (d : ClusterId) :
    t.place? d = (t.place? d).map (Prod.map (fun c => c) (fun v => v)) := Option.map_id'.symm

/-- The way that is found link by link is the path, as long as no visit changes
    where clusters are. -/
theorem Distinct.climb_eq (hd : t.Distinct) {Keeps : σ → Prop}
    (hup : ∀ s, Keeps s → ∀ d, up? s d = (t.place? d).map (Prod.map (fun c => c) link))
    (hvisit : ∀ s d via, Keeps s → Keeps (visit s d via).1) (hs : Keeps s)
    (hsteps : (t.path c).length < steps) :
    climb up? visit steps s c via = some (climbAlong visit (t.pathBy link c) s c via) := by
  induction steps generalizing s c via with
  | zero => exact absurd hsteps (Nat.not_lt_zero _)
  | succ steps ih =>
      have hnext := hup _ (hvisit s c via hs) c
      rw [place?] at hnext
      rw [climb, pathBy]
      cases hpath : t.path c with
      | nil =>
          rw [hpath, List.head?_nil, Option.map_none] at hnext
          rcases hv : visit s c via with ⟨s', _ | _⟩
          · rw [hv] at hnext
            simp only [hnext, List.map_nil, climbAlong, hv]
          · simp only [List.map_nil, climbAlong, hv]
      | cons step rest =>
          obtain ⟨p, v⟩ := step
          obtain ⟨rfl, -⟩ := hd.path_eq_cons hpath
          rw [hpath, List.head?_cons, Option.map_some] at hnext
          rw [hpath] at hsteps
          have hgo := hvisit s c via hs
          rcases hv : visit s c via with ⟨s', _ | _⟩
          · rw [hv] at hnext hgo
            rw [List.map_cons]
            refine Eq.trans ?_ (congrArg some (climbAlong_cons_of_go (by rw [hv]))).symm
            simp only [hv, hnext, Prod.map_apply,
              ih hgo (Nat.lt_of_succ_lt_succ hsteps), Option.map_some, pathBy]
          · rw [List.map_cons]
            refine Eq.trans ?_ (congrArg some (climbAlong_cons_of_stop (by rw [hv]))).symm
            rw [hv]

theorem Distinct.ascends_climbAlong (hd : t.Distinct) (hc : c ∈ t.ids) :
    (climbAlong visit (t.pathBy link c) s c via).Ascends t.links t.clusterCount t.root c := by
  have hthrough : (climbAlong visit (t.pathBy link c) s c via).Through
      (c :: (t.path c).map Prod.fst) := by
    rw [← t.pathBy_fst link c]
    exact climbAlong_through
  obtain ⟨rest, hrest⟩ := hthrough.sound
  refine ⟨?_, (hrest ▸ hd.isChain_path c).left_of_append,
    (hd.nodup_way c).sublist hthrough.sound.sublist, ?_, fun h => ?_⟩
  · cases hpath : t.pathBy link c with
    | nil => rfl
    | cons step rest =>
        rw [climbAlong, Trace.andThen]
        split <;> rfl
  · refine hthrough.sound.length_le.trans ?_
    rw [List.length_cons, List.length_map]
    exact hd.length_path_lt_count hc
  · rw [hthrough.complete h]
    exact hd.getLast?_way hc

/-- As many steps as there are clusters are enough to go up. -/
theorem Distinct.ends_climb (hd : t.Distinct) (hc : c ∈ t.ids) (link : LocalVertex → ι)
    (Keeps : σ → Prop)
    (hup : ∀ s, Keeps s → ∀ d, up? s d = (t.place? d).map (Prod.map (fun c => c) link))
    (hvisit : ∀ s d via, Keeps s → Keeps (visit s d via).1) (hs : Keeps s) {P : Trace σ → Prop}
    (hP : P (climbAlong visit (t.pathBy link c) s c via)) :
    EndsWithin t.clusterCount (fun steps => climb up? visit steps s c via)
      (fun r => r.Ascends t.links t.clusterCount t.root c ∧ P r) :=
  ⟨_, fun _ hsteps => hd.climb_eq hup hvisit hs
      (Nat.lt_of_lt_of_le (hd.length_path_lt_count hc) hsteps), hd.ascends_climbAlong hc, hP⟩

end Climb

theorem map_parent? (t : Tree) (d : ClusterId) :
    (t.parent? d).map (fun p => (p, ())) = (t.place? d).map (Prod.map (fun c => c) (fun _ => ())) := by
  rw [parent?, Option.map_map]
  rfl

theorem map_parent?_vertex? (t : Tree) (d : ClusterId) :
    (t.parent? d).map (fun p => (p, t.vertex? d)) = (t.place? d).map (Prod.map (fun c => c) some) := by
  rw [parent?, vertex?]
  cases t.place? d <;> rfl

/-! ## The traversals that only read -/

section Reads

variable {a : ClusterId} {w : LocalVertex}

/-- A search for the vertex by which `scope` is reached. -/
theorem climbAlong_seekRepresentative (scope : ClusterId) (way : List (ClusterId × LocalVertex))
    (c : ClusterId) (s : Option LocalVertex) (v : LocalVertex) :
    let r := climbAlong (fun _ d (via : Option (Option LocalVertex)) =>
      if d = scope then (via.join, true) else (none, false))
      (way.map (Prod.map (fun c => c) some)) s c (some (some v))
    r.stopped = decide (scope ∈ c :: way.map Prod.fst) ∧ r.state.isSome = r.stopped
      ∧ ∀ w, r.state = some w → (scope, w) ∈ (c, v) :: way := by
  induction way generalizing s c v with
  | nil =>
      by_cases hc : c = scope
      · simp [climbAlong, hc]
      · simp [climbAlong, hc, Ne.symm hc]
  | cons step rest ih =>
      rw [List.map_cons]
      by_cases hc : c = scope
      · rw [show Prod.map (fun c => c) some step = (step.1, some step.2) from rfl,
          climbAlong_cons_of_stop (by rw [if_pos hc])]
        simp [hc]
      · rw [show Prod.map (fun c => c) some step = (step.1, some step.2) from rfl,
          climbAlong_cons_of_go (by rw [if_neg hc]), if_neg hc]
        obtain ⟨hstop, hsome, hfound⟩ := ih step.1 none step.2
        refine ⟨hstop.trans (decide_eq_decide.mpr ⟨List.mem_cons_of_mem c, fun hmem => ?_⟩),
          hsome, fun w hw => List.mem_cons_of_mem _ (hfound w hw)⟩
        exact (List.mem_cons.mp hmem).resolve_left (Ne.symm hc)

/-- A search for what stands for a vertex in a cluster around it finds the vertex
    that leads to it. -/
theorem Distinct.ends_seekRepresentative (hd : t.Distinct) (hc : c ∈ t.ids) (scope : ClusterId)
    (v : LocalVertex) :
    EndsWithin t.clusterCount (fun steps => t.links.seekRepresentative steps scope c v)
      (fun r => r.Ascends t.links t.clusterCount t.root c ∧ r.stopped = t.isAncestor scope c
        ∧ r.state.isSome = r.stopped ∧ ∀ w, r.state = some w → t.Leads scope w c v) := by
  obtain ⟨hstop, hsome, hfound⟩ := climbAlong_seekRepresentative scope (t.path c) c none v
  refine hd.ends_climb hc some (fun _ => True) (fun _ _ => t.map_parent?_vertex?)
    (fun _ _ _ h => h) trivial ⟨hstop, hsome, fun w hw => ?_⟩
  rcases List.mem_cons.mp (hfound w hw) with heq | hmem
  · obtain ⟨rfl, rfl⟩ := Prod.mk.inj heq
    exact .here scope w
  · exact leads_of_mem_path hd hmem v

end Reads

/-! ## Trees that change on the way -/

/-- A tree in which ids are distinct and every cluster is where it is in
    another one. -/
structure StaysAs (t t' : Tree) : Prop extends t.SameShape t' where
  distinct : t'.Distinct

theorem Distinct.staysAs (hd : t.Distinct) : t.StaysAs t :=
  ⟨⟨fun _ => rfl, fun _ => rfl, fun _ => rfl⟩, hd⟩

theorem StaysAs.place? (h : t.StaysAs t') (d : ClusterId) : t'.place? d = t.place? d := by
  rw [Tree.place?, Tree.place?, h.path]

theorem StaysAs.mapCluster (h : t.StaysAs t') (c : ClusterId) {f : Cluster → Cluster}
    (hf : ∀ k : Cluster, (f k).id = k.id) : t.StaysAs (t'.mapCluster c f) := by
  have hshape := h.distinct.sameShape_mapCluster c hf
  exact ⟨⟨fun d => (hshape.live d).trans (h.live d),
    fun d => (hshape.children d).trans (h.children d),
    fun d => (hshape.path d).trans (h.path d)⟩, h.distinct.mapCluster c hf⟩

theorem climbAlong_mark (c last : ClusterId) (way : List (ClusterId × Unit)) (t : Tree)
    (via : Option Unit) :
    let r := climbAlong (fun t d _ => (t.mark d, decide (d = last))) way t c via
    r.state = (wayUp.upTo last (c :: way.map Prod.fst)).foldl mark t
      ∧ r.visited = wayUp.upTo last (c :: way.map Prod.fst) := by
  induction way generalizing t c via with
  | nil =>
      have hway : wayUp.upTo last [c] = [c] := by
        rw [wayUp.upTo]
        split <;> rfl
      rw [List.map_nil, hway]
      exact ⟨rfl, rfl⟩
  | cons step rest ih =>
      by_cases hc : c = last
      · rw [climbAlong_cons_of_stop (decide_eq_true hc), wayUp.upTo, if_pos hc]
        exact ⟨rfl, rfl⟩
      · rw [climbAlong_cons_of_go (decide_eq_false hc), wayUp.upTo, if_neg hc]
        obtain ⟨hstate, hvisited⟩ := ih step.1 (t.mark c) (some step.2)
        exact ⟨hstate, congrArg (c :: ·) hvisited⟩

/-- Marking the clusters that a way up comes by marks those up to `last`. -/
theorem Distinct.ends_mark (hd : t.Distinct) (hc : c ∈ t.ids) (last : ClusterId) :
    EndsWithin t.clusterCount
      (fun steps => climb (fun t d => (t.parent? d).map (fun p => (p, ())))
        (fun t d _ => (t.mark d, decide (d = last))) steps t c none)
      (fun r => r.Ascends t.links t.clusterCount t.root c ∧ r.state = t.markUpTo c last
        ∧ r.visited = t.wayUp c last) := by
  have halong := climbAlong_mark c last (t.pathBy (fun _ => ()) c) t none
  rw [t.pathBy_fst] at halong
  refine hd.ends_climb hc (fun _ => ()) t.StaysAs (fun t' h d => ?_)
    (fun _ d _ h => h.mapCluster d (fun _ => Cluster.id_mark ..)) hd.staysAs halong
  rw [← h.place? d]
  exact t'.map_parent? d

end Tree

end NestedGraph
