import NestedGraph.Proofs.Descending
import NestedGraph.Proofs.Purging

/-! # Traversal — every traversal ends, and visits what it should

    The traversals of a tree know clusters only by the names that clusters
    have of each other.  After any run those that go up ascend, and those
    that go down COVER the clusters inside, or those outside: they visit
    each of them once, and no other.  Each comes to what the program reads
    off the nesting of clusters. -/

namespace NestedGraph

/-! ## What is covered -/

namespace Trace

variable {σ : Type} {r : Trace σ} {cs : List ClusterId} {P : ClusterId → Prop}

/-- Visits clusters of one kind, each once, and all of them if nothing ends the
    traversal. -/
structure Covers (r : Trace σ) (P : ClusterId → Prop) : Prop where
  once : r.visited.Nodup
  sound : ∀ d ∈ r.visited, P d
  complete : r.stopped = false → ∀ d, P d → d ∈ r.visited

theorem Through.covers (h : r.Through cs) (hd : cs.Nodup) (hP : ∀ d, d ∈ cs ↔ P d) :
    r.Covers P := by
  refine ⟨hd.sublist h.sound.sublist, fun d hmem => (hP d).mp (h.sound.subset hmem),
    fun hgo d hd => ?_⟩
  rw [h.complete hgo]
  exact (hP d).mpr hd

/-- A search that ends with what it finds. -/
structure Finds {α : Type} (r : Trace (Option α)) (found : Option α) : Prop where
  state : r.state = found
  stopped : r.stopped = found.isSome

/-- What the first part finds is found, and else what the second does. -/
theorem Finds.andThen {α : Type} {r : Trace (Option α)} {next : Option α → Trace (Option α)}
    {x y : Option α} (h : r.Finds x) (h' : (next none).Finds y) :
    (r.andThen next).Finds (x.or y) := by
  cases x with
  | some a =>
      rw [andThen_of_stop h.stopped]
      exact h
  | none =>
      rw [andThen_of_go h.stopped, h.state, Option.none_or]
      exact ⟨h'.state, h'.stopped⟩

end Trace

section Sweep

variable {α : Type} {ks : List Cluster}

/-- A sweep that ends with the first thing found. -/
theorem sweep_finds {find? : ClusterId → Option α} {own? : Cluster → Option α}
    (h : ∀ k ∈ ks, find? k.id = own? k) :
    (sweep (fun _ d => (find? d, (find? d).isSome)) (ks.map Cluster.id) none).Finds
      (ks.findSome? own?) := by
  induction ks with
  | nil => exact ⟨rfl, rfl⟩
  | cons k rest ih =>
      have hself : Trace.Finds ⟨find? k.id, [k.id], (find? k.id).isSome⟩ (find? k.id) := ⟨rfl, rfl⟩
      have hboth := hself.andThen (ih (fun k hk => h k (List.mem_cons_of_mem _ hk)))
      rw [List.findSome?_cons, ← h k List.mem_cons_self, List.map_cons, sweep]
      cases hk : find? k.id <;> rw [hk] at hboth <;> exact hboth

/-- A sweep that collects something from each cluster. -/
theorem sweep_collects (collect : ClusterId → List α) {own : Cluster → List α}
    (h : ∀ k ∈ ks, collect k.id = own k) (found : List α) :
    sweep (fun found d => (found ++ collect d, false)) (ks.map Cluster.id) found
      = ⟨found ++ ks.flatMap own, ks.map Cluster.id, false⟩ := by
  induction ks generalizing found with
  | nil => rw [List.flatMap_nil, List.append_nil, List.map_nil, sweep]
  | cons k rest ih =>
      rw [List.map_cons, sweep, Trace.andThen_of_go rfl,
        ih (fun k hk => h k (List.mem_cons_of_mem _ hk)), List.flatMap_cons,
        ← h k List.mem_cons_self, ← List.append_assoc]
      rfl

end Sweep

namespace Visitor

variable {σ : Type} {w : Visitor σ} {s : σ} {c : ClusterId} {inner : σ → Trace σ}

/-- No visit ends the traversal. -/
def Passes (w : Visitor σ) : Prop := ∀ s c, (w.enter s c).2 = false

theorem Passes.around (hw : w.Passes) (hinner : ∀ s, (inner s).stopped = false) :
    w.around c inner s = ⟨w.leave (inner (w.enter s c).1).state c,
      c :: (inner (w.enter s c).1).visited, false⟩ := by
  rw [Visitor.around, Trace.andThen_of_go (hw s c)]
  dsimp only
  rw [Trace.andThen_of_go (hinner _), List.append_nil]
  rfl

theorem Passes.stopped_along (hw : w.Passes) (f : Forest) (s : σ) :
    (w.along f s).stopped = false := by
  induction f generalizing s with
  | nil => rfl
  | cons v k inside rest ihInside ihRest =>
      rw [along, hw.around ihInside, Trace.andThen_of_go rfl]
      exact ihRest _

theorem Passes.state_along_cons (hw : w.Passes) (v : LocalVertex) (k : Cluster)
    (inside rest : Forest) (s : σ) :
    (w.along (.cons v k inside rest) s).state
      = (w.along rest (w.leave
          (w.along inside (w.enter (w.announce s k.id) k.id).1).state k.id)).state := by
  rw [along, hw.around (hw.stopped_along inside), Trace.andThen_of_go rfl]

end Visitor

/-- Of the vertices inside it only matters which they are. -/
theorem GlobalEdge.touches_congr {inside inside' : List GlobalVertex}
    (h : ∀ g, g ∈ inside ↔ g ∈ inside') : GlobalEdge.touches inside = GlobalEdge.touches inside' := by
  funext e
  simp only [GlobalEdge.touches, h]

/-! ## The visitors -/

/-- What a search finds in a cluster itself. -/
def Cluster.hit? {α : Type} (find? : Storage → Option α) (k : Cluster) : Option (ClusterId × α) :=
  (find? k.storage).map (fun a => (k.id, a))

namespace Tree

variable {t : Tree}

theorem storage?_links (t : Tree) (c : ClusterId) : t.links.storage? c = t.storage? c := rfl

section Searcher

variable {α : Type} (t : Tree) (find? : Storage → Option α)

theorem reads_searcher : (t.links.searcher find?).Reads t (fun _ => True) (fun _ => []) :=
  ⟨fun _ _ => rfl, fun _ _ => rfl, fun _ _ => rfl, fun _ _ => List.nil_subset _,
    fun h _ => h, fun h _ => h, fun h _ => h⟩

theorem finds_around_searcher {k : Cluster} (hk : t.storage? k.id = some k.storage)
    {inner : Option (ClusterId × α) → Trace (Option (ClusterId × α))}
    {x : Option (ClusterId × α)} (h : (inner none).Finds x) :
    ((t.links.searcher find?).around k.id inner none).Finds ((k.hit? find?).or x) := by
  have hself : Trace.Finds ⟨k.hit? find?, [k.id], (k.hit? find?).isSome⟩ (k.hit? find?) :=
    ⟨rfl, rfl⟩
  have hend : Trace.Finds (α := ClusterId × α) ⟨none, [], false⟩ none := ⟨rfl, rfl⟩
  have henter : (t.links.searcher find?).enter none k.id
      = (k.hit? find?, (k.hit? find?).isSome) := by
    simp only [Links.searcher, storage?_links, hk, Option.bind_some]
    rfl
  rw [Visitor.around, henter]
  refine hself.andThen ?_
  rw [← Option.or_none (o := x)]
  exact h.andThen hend

/-- A search finds what is first found by the clusters in their order. -/
theorem finds_searcher {f : Forest} (hf : ∀ k ∈ f.clusters, t.storage? k.id = some k.storage) :
    ((t.links.searcher find?).along f none).Finds (f.clusters.findSome? (Cluster.hit? find?)) := by
  induction f with
  | nil => exact ⟨rfl, rfl⟩
  | cons v k inside rest ihInside ihRest =>
      rw [Forest.clusters] at hf
      have hinside := ihInside (fun k hk => hf k (by simp [hk]))
      have hrest := ihRest (fun k hk => hf k (by simp [hk]))
      have hboth := (finds_around_searcher t find? (hf k (by simp)) hinside).andThen hrest
      rw [Forest.clusters, List.findSome?_append, List.findSome?_cons]
      cases hk : k.hit? find? <;> rw [hk] at hboth <;> exact hboth

end Searcher

end Tree

/-! ## In forests that live in a tree -/

namespace Forest

variable {t : Tree} {f : Forest} {c : ClusterId}

/-- With nothing left out, a stack brings up later siblings first. -/
theorem LivesIn.stackOrder (h : f.LivesIn t) :
    f.stackOrder t.childIds? = f.clustersLastFirst.map Cluster.id := by
  induction f with
  | nil => rfl
  | cons v k inside rest ihInside ihRest =>
      rw [Forest.stackOrder, Tree.childIds?_of_find? h.1, Option.isSome_some, if_pos rfl,
        clustersLastFirst, List.map_append, List.map_cons, ihInside h.2.1, ihRest h.2.2]

/-- With a cluster left out, it brings up what is left of the forest. -/
theorem LivesIn.stackOrder_prune (h : f.LivesIn t) (c : ClusterId) :
    f.stackOrder (fun d => if d = c then none else t.childIds? d)
      = (f.prune c).clustersLastFirst.map Cluster.id := by
  induction f with
  | nil => rfl
  | cons v k inside rest ihInside ihRest =>
      rw [Forest.stackOrder, ihInside h.2.1, ihRest h.2.2, prune]
      by_cases hk : k.id = c
      · rw [if_pos hk, if_pos hk, Option.isSome_none, if_neg Bool.false_ne_true, List.append_nil]
      · rw [if_neg hk, if_neg hk, Tree.childIds?_of_find? h.1, Option.isSome_some, if_pos rfl,
          clustersLastFirst, List.map_append, List.map_cons]

end Forest

/-- The clusters outside are those of the tree with one left out. -/
theorem Tree.coe_outside (t : Tree) (c : ClusterId) (v : LocalVertex) :
    (((Forest.single v t.top).prune c).clustersLastFirst : Multiset Cluster) = t.outside c := by
  rw [Forest.coe_clustersLastFirst, outside, Forest.single, Forest.prune]
  by_cases hc : t.top.cluster.id = c
  · rw [if_pos hc, if_pos hc]
    rfl
  · rw [if_neg hc, if_neg hc]
    simp [Forest.clusters, Forest.prune]

theorem Branch.coe_ids_lastFirst (b : Branch) :
    (b.clustersLastFirst.map Cluster.id : Multiset ClusterId) = b.clusters.map Cluster.id := by
  rw [← Multiset.map_coe, ← Multiset.map_coe, clustersLastFirst, clusters, ← Multiset.cons_coe,
    ← Multiset.cons_coe, Forest.coe_clustersLastFirst]

namespace Tree

variable {t : Tree} {c : ClusterId} {b : Branch}

theorem Distinct.livesIn_single (hd : t.Distinct) (hb : t.find? b.cluster.id = some b)
    (v : LocalVertex) : (Forest.single v b).LivesIn t := ⟨hb, hd.livesIn hb, trivial⟩

theorem clusters_length_le (hb : t.find? c = some b) :
    b.clusters.length ≤ t.clusterCount := by
  have hle := Multiset.card_le_card (nodes_le_of_find? hb)
  have hcard : ∀ b : Branch, b.clusters.length = b.nodes.card := by
    intro b
    rw [← Multiset.coe_card, Branch.coe_clusters, Multiset.card_map]
  rw [clusterCount, clusters, hcard, hcard]
  exact hle

theorem Distinct.storage?_of_mem_clusters (hd : t.Distinct) (hb : t.find? c = some b) {k : Cluster}
    (hk : k ∈ b.clusters) : t.storage? k.id = some k.storage := by
  obtain ⟨n, hn, rfl⟩ := Branch.mem_clusters.mp hk
  exact hd.storage?_of_mem (Multiset.mem_of_le (nodes_le_of_find? hb) hn)

theorem Distinct.storage?_of_mem_lastFirst (hd : t.Distinct) (hb : t.find? c = some b) {k : Cluster}
    (hk : k ∈ b.clustersLastFirst) : t.storage? k.id = some k.storage :=
  hd.storage?_of_mem_clusters hb (Branch.mem_clusters.mpr (Branch.mem_clustersLastFirst.mp hk))

theorem Distinct.storage?_of_mem_outside (hd : t.Distinct) (hb : t.find? b.cluster.id = some b)
    {k : Cluster} (hk : k ∈ t.outside b.cluster.id) : t.storage? k.id = some k.storage := by
  obtain ⟨n, hn, -, rfl⟩ := (hd.mem_outside hb).mp hk
  exact hd.storage?_of_mem hn

/-! ## Inside and outside -/

/-- The clusters inside a live one are those of its branch. -/
theorem Sound.inside_iff_mem_ids (hs : t.Sound) (hb : t.find? c = some b) {d : ClusterId} :
    t.links.Inside c d ↔ d ∈ b.ids := by
  refine ⟨fun h => ?_, fun h => ?_⟩
  · have hd : d ∈ t.ids := (hs.distinct.reachable_iff).mp
      ((hs.distinct.reachable (mem_ids_iff.mpr ⟨b, hb⟩)).trans h)
    exact (hs.isAncestor_iff_mem_ids hb).mp ((hs.distinct.isAncestor_iff hd).mpr h)
  · have hd : d ∈ t.ids := Multiset.mem_of_le (Multiset.map_le_map (nodes_le_of_find? hb)) h
    exact (hs.distinct.isAncestor_iff hd).mp ((hs.isAncestor_iff_mem_ids hb).mpr h)

theorem Sound.covers_inside {σ : Type} (hs : t.Sound) (hb : t.find? c = some b) {r : Trace σ}
    {cs : List ClusterId} (h : r.Through cs)
    (hcs : (cs : Multiset ClusterId) = b.clusters.map Cluster.id) : r.Covers (t.links.Inside c) := by
  have hids : b.ids = cs := b.ids_eq_clusters.trans hcs.symm
  refine h.covers ?_ (fun d => ?_)
  · rw [← Multiset.coe_nodup, ← hids]
    exact hs.distinct.nodup_branch hb
  · rw [hs.inside_iff_mem_ids hb, hids, Multiset.mem_coe]

theorem Sound.covers_outside {σ : Type} (hs : t.Sound) (hb : t.find? b.cluster.id = some b)
    {r : Trace σ} {cs : List ClusterId} (h : r.Through cs)
    (hcs : (cs : Multiset ClusterId) = (t.outside b.cluster.id).map Cluster.id) :
    r.Covers (t.links.Outside b.cluster.id) := by
  have hids : t.ids = b.ids + cs := by
    rw [ids_eq_clusters, Branch.ids_eq_clusters, hcs, clusters, ← Multiset.map_coe,
      hs.distinct.coe_clusters_outside hb, Multiset.map_add, Multiset.map_coe, Multiset.map_coe]
  have hd := hs.distinct
  rw [Distinct, hids, Multiset.nodup_add] at hd
  obtain ⟨-, hnodup, hdisj⟩ := hd
  refine h.covers (Multiset.coe_nodup.mp hnodup) (fun d => ?_)
  have hlive : (t.links.storage? d).isSome = t.isLive d := Option.isSome_map
  rw [Links.Outside, hlive, isLive_iff, hids, Multiset.mem_add, Multiset.mem_coe,
    hs.inside_iff_mem_ids hb]
  constructor
  · exact fun hmem => ⟨Or.inr hmem, fun hin => Multiset.disjoint_left.mp hdisj hin hmem⟩
  · exact fun hmem => hmem.1.resolve_left hmem.2

/-! ## Traversals with a stack -/

section Stack

variable (hs : t.Sound) (hb : t.find? b.cluster.id = some b)
include hs hb

/-- A sweep with a stack goes through the clusters of a branch, later siblings
    first. -/
theorem Sound.drain_eq {σ : Type} (visit : σ → ClusterId → σ × Bool) (s : σ) {steps : Nat}
    (hsteps : t.clusterCount ≤ steps) :
    drain t.links.childIds? visit steps s [b.cluster.id]
      = some (sweep visit (b.clustersLastFirst.map Cluster.id) s) := by
  have hlives := hs.distinct.livesIn_single hb ⟨0, 0⟩
  refine (drain_branch (hlives.known (fun _ _ h => h)) s
    ((clusters_length_le hb).trans hsteps)).trans ?_
  rw [hlives.stackOrder]
  rfl

theorem Sound.ends_collectGlobals :
    EndsWithin t.clusterCount (fun steps => t.links.collectGlobals steps b.cluster.id)
      (fun r => r.Covers (t.links.Inside b.cluster.id) ∧ r.stopped = false
        ∧ ∀ g, g ∈ r.state ↔ g ∈ b.globals) := by
  refine ⟨_, fun steps hsteps => hs.drain_eq hb _ [] hsteps,
    hs.covers_inside hb (sweep_through ..) b.coe_ids_lastFirst, ?_⟩
  have hown : ∀ k ∈ b.clustersLastFirst, t.links.globals k.id = k.storage.globals := by
    intro k hk
    rw [Links.globals, storage?_links, hs.distinct.storage?_of_mem_lastFirst hb hk]
  rw [sweep_collects t.links.globals hown]
  refine ⟨rfl, fun g => ?_⟩
  simp only [List.nil_append, Branch.globals, List.mem_flatMap, Branch.mem_clustersLastFirst,
    ← Branch.mem_clusters]

theorem Sound.ends_seekId (ids : List UInt64) :
    EndsWithin t.clusterCount (fun steps => t.links.seekId steps ids b.cluster.id)
      (fun r => r.Covers (t.links.Inside b.cluster.id) ∧ r.Finds
        ((b.clustersLastFirst.flatMap (fun k => k.storage.ids)).find?
          (fun id => decide (id ∈ ids)))) := by
  refine ⟨_, fun steps hsteps => hs.drain_eq hb _ none hsteps,
    hs.covers_inside hb (sweep_through ..) b.coe_ids_lastFirst, ?_⟩
  rw [List.find?_flatMap]
  refine sweep_finds (fun k hk => ?_)
  rw [storage?_links, hs.distinct.storage?_of_mem_lastFirst hb hk]
  rfl

theorem Sound.ends_collectKept (inside : List GlobalVertex) :
    EndsWithin t.clusterCount (fun steps => t.links.collectKept steps inside t.root b.cluster.id)
      (fun r => r.Covers (t.links.Outside b.cluster.id) ∧ r.stopped = false
        ∧ ((∀ g, g ∈ inside ↔ g ∈ b.globals) → ∀ id, id ∈ r.state ↔ id ∈ t.remainingIds b)) := by
  have htop : t.find? t.top.cluster.id = some t.top := if_pos rfl
  have hlives := hs.distinct.livesIn_single htop ⟨0, 0⟩
  have hout := t.coe_outside b.cluster.id ⟨0, 0⟩
  have hknown : (Forest.single ⟨0, 0⟩ t.top).Known
      (fun d => if d = b.cluster.id then none else t.childIds? d) := by
    refine hlives.known (fun d ds h => ?_)
    rwa [if_neg (fun hd => nomatch (if_pos hd).symm.trans h)] at h
  refine ⟨_, fun steps hsteps => drain_branch hknown [] hsteps, ?_⟩
  rw [hlives.stackOrder_prune]
  refine ⟨hs.covers_outside hb (sweep_through ..) ?_, ?_⟩
  · rw [← Multiset.map_coe, hout, Multiset.map_coe]
  have hown : ∀ k ∈ ((Forest.single ⟨0, 0⟩ t.top).prune b.cluster.id).clustersLastFirst,
      t.links.idsBeyond inside k.id = k.storage.globals.map GlobalVertex.id
        ++ (k.storage.allCarried.filter (fun e => !e.touches inside)).map GlobalEdge.id := by
    intro k hk
    rw [← Multiset.mem_coe, hout] at hk
    rw [Links.idsBeyond, storage?_links, hs.distinct.storage?_of_mem_outside hb hk]
  have hmem : ∀ k, k ∈ ((Forest.single ⟨0, 0⟩ t.top).prune b.cluster.id).clustersLastFirst
      ↔ k ∈ t.outside b.cluster.id := by
    intro k
    rw [← Multiset.mem_coe, hout, Multiset.mem_coe]
  rw [sweep_collects (t.links.idsBeyond inside) hown]
  refine ⟨rfl, fun hin id => ?_⟩
  rw [GlobalEdge.touches_congr hin]
  simp only [List.nil_append, Tree.remainingIds, List.mem_flatMap, hmem]

end Stack

/-! ## Traversals by recursion -/

section Recursive

variable (hs : t.Sound) (hb : t.find? b.cluster.id = some b)
include hs hb

/-- A recursion goes through the clusters of a branch. -/
theorem Sound.ends_visit {σ : Type} {w : Visitor σ} {Keeps : σ → Prop} {gone : σ → List ClusterId}
    (hw : w.Reads t Keeps gone) {s : σ} (hkeeps : Keeps s)
    (hgone : ∀ d ∈ b.clusters.map Cluster.id, d ∉ gone s) {P : Trace σ → Prop}
    (hP : P (w.around b.cluster.id (w.along b.inside) s)) :
    EndsWithin (2 * t.clusterCount) (fun steps => w.visit steps s b.cluster.id)
      (fun r => r.Covers (t.links.Inside b.cluster.id) ∧ P r) := by
  have hcount := clusters_length_le hb
  exact ⟨_, fun steps hsteps => hw.visit_branch hs.distinct hb hkeeps hgone (by omega),
    hs.covers_inside hb (Visitor.around_through (Visitor.along_through b.inside)) rfl, hP⟩

theorem Sound.ends_searcher {α : Type} (find? : Storage → Option α) :
    EndsWithin (2 * t.clusterCount)
      (fun steps => (t.links.searcher find?).visit steps none b.cluster.id)
      (fun r => r.Covers (t.links.Inside b.cluster.id)
        ∧ r.Finds (b.clusters.findSome? (Cluster.hit? find?))) := by
  have hstored := fun k hk => hs.distinct.storage?_of_mem_clusters (k := k) hb hk
  have hinside := t.finds_searcher find? (fun k hk => hstored k (List.mem_cons_of_mem _ hk))
  have hfinds := t.finds_around_searcher find? (hstored b.cluster List.mem_cons_self) hinside
  refine hs.ends_visit hb (t.reads_searcher find?) trivial (fun _ _ => List.not_mem_nil) ?_
  rw [Branch.clusters, List.findSome?_cons]
  cases hk : b.cluster.hit? find? <;> rw [hk] at hfinds <;> exact hfinds

theorem Sound.ends_vertexOwner (global : GlobalVertex) :
    EndsWithin (2 * t.clusterCount) (fun steps => t.links.seekVertex steps global b.cluster.id)
      (fun r => r.Covers (t.links.Inside b.cluster.id)
        ∧ r.Finds (t.vertexOwner? b.cluster.id global)) := by
  rw [vertexOwner?, hb]
  exact hs.ends_searcher hb (fun s => s.vertexOf? global)

theorem Sound.ends_edgeOwner (global : GlobalEdge) :
    EndsWithin (2 * t.clusterCount) (fun steps => t.links.seekEdge steps global b.cluster.id)
      (fun r => r.Covers (t.links.Inside b.cluster.id)
        ∧ r.Finds (t.edgeOwner? b.cluster.id global)) := by
  rw [edgeOwner?, hb]
  exact hs.ends_searcher hb (fun s => s.edgeOf? global)

end Recursive

end Tree

/-! ## Lookup by name, loop by loop -/

/-- The first cluster that stores a vertex lies in the first branch that has
    one. -/
theorem Forest.exists_branch_of_findSome? {f : Forest} {g : GlobalVertex}
    {place : ClusterId × LocalVertex}
    (h : f.clusters.findSome? (Cluster.hit? (fun s => s.vertexOf? g)) = some place) :
    ∃ w x, f.branches.find? (fun entry => (entry.2.vertexOwner? g).isSome) = some (w, x)
      ∧ x.vertexOwner? g = some place := by
  induction f with
  | nil => exact nomatch h
  | cons v k inside rest _ ih =>
      have hfirst : (k :: inside.clusters).findSome? (Cluster.hit? (fun s => s.vertexOf? g))
          = Branch.vertexOwner? ⟨k, inside⟩ g := rfl
      rw [clusters, List.findSome?_append, hfirst] at h
      rw [branches, List.find?_cons]
      cases ho : Branch.vertexOwner? ⟨k, inside⟩ g with
      | some owner =>
          rw [ho] at h
          exact ⟨v, ⟨k, inside⟩, rfl, ho.trans h⟩
      | none =>
          rw [ho] at h
          exact ih h

namespace Tree

variable {t : Tree} {c : ClusterId} {b : Branch}

/-- What stands for a vertex is the vertex that leads to its owner. -/
theorem exists_leadingVertex? (hb : t.find? c = some b) {g : GlobalVertex}
    (hown : b.cluster.storage.vertexOf? g = none) {o : ClusterId} {u : LocalVertex}
    (ho : b.vertexOwner? g = some (o, u)) : ∃ w, b.leadingVertex? g = some w ∧ t.Leads c w o u := by
  obtain rfl := id_of_find? hb
  have hinside : b.inside.clusters.findSome? (Cluster.hit? (fun s => s.vertexOf? g))
      = some (o, u) := by
    have hall : (b.cluster :: b.inside.clusters).findSome? (Cluster.hit? (fun s => s.vertexOf? g))
        = some (o, u) := ho
    rwa [List.findSome?_cons, show Cluster.hit? (fun s => s.vertexOf? g) b.cluster = none by
      rw [Cluster.hit?, hown]; rfl] at hall
  obtain ⟨w, x, hfind, hx⟩ := Forest.exists_branch_of_findSome? hinside
  refine ⟨w, by rw [Branch.leadingVertex?, hfind]; rfl, ?_⟩
  have hbranch := List.mem_of_find?_eq_some hfind
  have hle : x.nodes ≤ t.nodes := (Forest.nodes_le_of_mem_branches hbranch).trans
    ((Multiset.le_cons_self ..).trans (nodes_le_of_find? hb))
  obtain ⟨n, hn, rfl, -⟩ := Branch.of_vertexOwner? hx
  obtain ⟨v, hlead⟩ := exists_leads_of_mem_nodes hle hn u
  exact .inside (node_mem_of_find? hb) (Forest.mem_branches_entries hbranch) hlead

/-- The owner of a vertex is alive. -/
theorem mem_ids_of_vertexOwner? {g : GlobalVertex} {place : ClusterId × LocalVertex}
    (h : t.vertexOwner? c g = some place) : place.1 ∈ t.ids := by
  obtain ⟨b, hb, ho⟩ := Option.bind_eq_some_iff.mp h
  obtain ⟨n, hn, hid, -⟩ := Branch.of_vertexOwner? (o := place.1) (u := place.2) ho
  rw [← hid]
  exact Multiset.mem_map_of_mem Node.id (Multiset.mem_of_le (nodes_le_of_find? hb) hn)

/-- A lookup by name looks in the cluster itself, then for the owner inside it,
    and then for what stands for that one on the way up from there. -/
theorem Sound.localVertex?_eq (hs : t.Sound) (c : ClusterId) (g : GlobalVertex) :
    t.localVertex? c g true = (t.localVertex? c g false).or
      ((t.vertexOwner? c g).bind (fun (owner, u) =>
        (t.links.seekRepresentative t.clusterCount c owner u).bind Trace.state)) := by
  cases hb : t.find? c with
  | none => rw [localVertex?, localVertex?, vertexOwner?, hb]; rfl
  | some b =>
      have howner : t.vertexOwner? c g = b.vertexOwner? g := by
        rw [vertexOwner?, hb]
        rfl
      have hself : t.localVertex? c g false = b.cluster.storage.vertexOf? g := by
        rw [localVertex?, hb]
        rfl
      have hall : t.localVertex? c g true = b.representative? g := by
        rw [localVertex?, hb]
        rfl
      rw [hself, hall]
      cases hown : b.cluster.storage.vertexOf? g with
      | some v => rw [Branch.representative?, hown]; rfl
      | none =>
          rw [Option.none_or]
          cases ho : t.vertexOwner? c g with
          | none => exact (hs.vertexOwner?_eq_none_iff hb).mp ho
          | some place =>
              obtain ⟨o, u⟩ := place
              obtain ⟨w, hw, hlead⟩ := exists_leadingVertex? hb hown (howner ▸ ho)
              obtain ⟨r, hr, -, hstop, hsome, hfound⟩ :=
                hs.distinct.ends_seekRepresentative (mem_ids_of_vertexOwner? ho) c u
              have hstate : r.state.isSome = true := by
                rw [hsome, hstop]
                exact hlead.isAncestor hs.distinct
              obtain ⟨w', hw'⟩ := Option.isSome_iff_exists.mp hstate
              have hrun : t.links.seekRepresentative t.clusterCount c o u = some r :=
                hr _ (Nat.le_refl _)
              have hloop : (t.links.seekRepresentative t.clusterCount c o u).bind Trace.state
                  = some w' := by
                rw [hrun]
                exact hw'
              rw [Branch.representative?, hown, hw, hlead.unique hs.distinct (hfound w' hw')]
              exact hloop.symm

end Tree

end NestedGraph
