import NestedGraph.Arena.Job
import NestedGraph.Proofs.Passages

/-! # Jobs — steps on an arena that meet what is done to a tree

    A job MEETS what an operation on a graph leads to when it ends with the
    same answer and leaves an arena that lays out the new tree, or when it
    fails with the same error and leaves its desk as it was.  What only
    reads comes to what is read off the tree; the loops among it end. -/

namespace NestedGraph

/-- The desk with another arena. -/
def Desk.withArena (d : Desk) (a : Arena) : Desk := { d with arena := a }

@[simp] theorem Desk.arena_withArena (d : Desk) (a : Arena) : (d.withArena a).arena = a := rfl

/-- The graph with another tree, and no answer. -/
def Graph.settled (g : Graph) (t : Tree) : Graph × Unit := ({ g with tree := t }, ())

/-- What is listed on a vertex hangs there. -/
theorem Tree.Sound.exists_branch_of_children {t : Tree} (hs : t.Sound) {c child : ClusterId}
    {v : LocalVertex} (h : (v, child) ∈ t.children c) :
    ∃ b x, t.find? c = some b ∧ b.inside.branchAt? v = some x ∧ x.cluster.id = child := by
  cases hb : t.find? c with
  | none =>
      rw [children, hb] at h
      exact absurd h List.not_mem_nil
  | some b =>
      rw [children_of_find? hb] at h
      obtain ⟨x, hx, hid⟩ := Forest.branchAt?_of_mem_entries (hs.nodes _ (node_mem_of_find? hb)).keys h
      exact ⟨b, x, rfl, hx, hid⟩

namespace Job

variable {α β : Type} {d d' : Desk}

/-! ## Running steps -/

theorem bind_of_ok {x : Job α} {f : α → Job β} {a : α} (h : x d = .ok (.ok a, d')) :
    (x >>= f) d = f a d' := by
  show Except.bind (x d) _ = _
  rw [h]
  rfl

theorem bind_of_error {x : Job α} {f : α → Job β} {e : Error} (h : x d = .ok (.error e, d')) :
    (x >>= f) d = .ok (.error e, d') := by
  show Except.bind (x d) _ = _
  rw [h]
  rfl

theorem bind_of_halt {x : Job α} {f : α → Job β} {halt : Halt} (h : x d = .error halt) :
    (x >>= f) d = .error halt := by
  show Except.bind (x d) _ = _
  rw [h]
  rfl

theorem map_of_ok {x : Job α} {f : α → β} {a : α} (h : x d = .ok (.ok a, d')) :
    (f <$> x) d = .ok (.ok (f a), d') := by
  show Except.bind (x d) _ = _
  rw [h]
  rfl

theorem map_of_error {x : Job α} {f : α → β} {e : Error} (h : x d = .ok (.error e, d')) :
    (f <$> x) d = .ok (.error e, d') := by
  show Except.bind (x d) _ = _
  rw [h]
  rfl

theorem look_run (f : Arena → Except Error α) (d : Desk) : look f d = .ok (f d.arena, d) := rfl

/-- What is found out first, in a form of its own, decides about what is found
    out next. -/
theorem bind_of_reads {γ : Type} {x : Job α} {f : α → Job β} {r : Except Error γ} {φ : γ → α}
    {k : γ → Except Error β} (h : x d = .ok (φ <$> r, d))
    (hf : ∀ a, r = .ok a → f (φ a) d = .ok (k a, d)) : (x >>= f) d = .ok (r >>= k, d) := by
  cases r with
  | error e => exact bind_of_error h
  | ok a => exact (bind_of_ok h).trans (hf a rfl)

theorem traverse_run {σ : Type} {f : Arena → Option (Trace σ)} {r : Trace σ}
    (h : f d.arena = some r) : traverse f d = .ok (.ok r.state, d) := by
  rw [traverse, h]

theorem silently_run {x : Job α} {r : Except Error α} {d' : Desk} (h : x d = .ok (r, d')) :
    silently x d = .ok (r, { d' with reported := d.reported }) := by
  rw [silently, h]

/-! ## What only reads -/

section Reading

variable {t : Tree} {c : ClusterId} {b : Branch} (hl : d.arena.Lays t)
include hl

theorem cell_of_find? (hb : t.find? c = some b) : cell c d = .ok (.ok (t.cell b), d) := by
  rw [cell, look_run, hl.require, Tree.require_of_find? hb]
  rfl

theorem cell_run (c : ClusterId) : cell c d = .ok (t.cell <$> t.require c, d) := by
  rw [cell, look_run, hl.require]

theorem requireVertex_run (c : ClusterId) (v : LocalVertex) :
    look (fun a => a.requireVertex c v) d = .ok (t.cell <$> t.requireVertex c v, d) := by
  rw [look_run, hl.requireVertex]

theorem requireChildAt_run (c : ClusterId) (v : LocalVertex) :
    look (fun a => a.requireChildAt c v) d = .ok (t.requireChildAt c v, d) := by
  rw [look_run, hl.requireChildAt]

theorem childAt_run (c : ClusterId) (v : LocalVertex) :
    read (fun a => a.childAt? c v) d = .ok (.ok (t.childAt? c v), d) := by
  rw [read, hl.childAt? (Multiset.notMem_zero c)]

theorem config_run : read Arena.config d = .ok (.ok t.config, d) := by
  rw [read, hl.config]

/-- A loop that goes on for as many steps as there are clusters ends. -/
theorem traverse_ends {σ : Type} (bound : Nat → Nat) (run : Links → Nat → Option (Trace σ))
    {P : Trace σ → Prop} (h : EndsWithin (bound t.clusterCount) (run t.links) P) :
    ∃ r, traverse (fun a => run a.links (bound a.count)) d = .ok (.ok r.state, d) ∧ P r := by
  obtain ⟨r, hr, hP⟩ := h
  refine ⟨r, traverse_run ?_, hP⟩
  rw [hl.links, hl.count]
  exact hr _ (Nat.le_refl _)

/-- A search of a cluster that is not there finds nothing. -/
theorem search_of_dead {α : Type} (find? : Storage → Option α) (hb : t.find? c = none) :
    traverse (fun a => (a.links.searcher find?).visit (2 * a.count) none c) d = .ok (.ok none, d) := by
  refine traverse_run (r := ⟨none, [], false⟩) ?_
  have hids : (t.links.searcher find?).childIds? none c = none := by
    show t.childIds? c = none
    rw [Tree.childIds?, hb]
    rfl
  obtain ⟨n, hn⟩ : ∃ n, 2 * t.clusterCount = n + 1 := ⟨2 * t.clusterCount - 1, by
    have hpos : 0 < t.clusterCount := Nat.succ_pos _
    omega⟩
  rw [hl.links, hl.count, hn, Visitor.visit, hids]

variable (hs : t.Sound)
include hs

theorem vertexOwner_run (c : ClusterId) (global : GlobalVertex) :
    vertexOwner c global d = .ok (.ok (t.vertexOwner? c global), d) := by
  cases hb : t.find? c with
  | none =>
      rw [Tree.vertexOwner?, hb]
      exact search_of_dead hl _ hb
  | some b =>
      obtain rfl := Tree.id_of_find? hb
      obtain ⟨r, hr, -, hfinds⟩ := traverse_ends hl (2 * ·)
        (fun l steps => l.seekVertex steps global b.cluster.id) (hs.ends_vertexOwner hb global)
      exact hfinds.state ▸ hr

theorem edgeOwner_run (c : ClusterId) (global : GlobalEdge) :
    edgeOwner c global d = .ok (.ok (t.edgeOwner? c global), d) := by
  cases hb : t.find? c with
  | none =>
      rw [Tree.edgeOwner?, hb]
      exact search_of_dead hl _ hb
  | some b =>
      obtain rfl := Tree.id_of_find? hb
      obtain ⟨r, hr, -, hfinds⟩ := traverse_ends hl (2 * ·)
        (fun l steps => l.seekEdge steps global b.cluster.id) (hs.ends_edgeOwner hb global)
      exact hfinds.state ▸ hr

theorem representative_run (scope : ClusterId) (hc : c ∈ t.ids) (v : LocalVertex) :
    representative scope c v d
      = .ok (.ok ((t.links.seekRepresentative t.clusterCount scope c v).bind Trace.state), d) := by
  obtain ⟨r, hr, -⟩ := hs.distinct.ends_seekRepresentative hc scope v
  have hrun : t.links.seekRepresentative t.clusterCount scope c v = some r := hr _ (Nat.le_refl _)
  rw [hrun]
  refine traverse_run ?_
  rw [hl.links, hl.count]
  exact hrun

theorem localVertex_run (c : ClusterId) (global : GlobalVertex) (recursive : Bool) :
    localVertex c global recursive d = .ok (.ok (t.localVertex? c global recursive), d) := by
  have hread : read (fun a => a.get? c) d = .ok (.ok ((t.find? c).map t.cell), d) := by
    rw [read, hl.get?]
  rw [localVertex, bind_of_ok hread]
  cases hb : t.find? c with
  | none =>
      rw [Tree.localVertex?, hb]
      rfl
  | some b =>
      have hself : t.localVertex? c global false = b.cluster.storage.vertexOf? global := by
        rw [Tree.localVertex?, hb]
        rfl
      have hcell : (t.cell b).storage.vertexOf? global = b.cluster.storage.vertexOf? global := rfl
      -- In the tree the search goes down; here the owner is found first, and the way up from it.
      have heq := hs.localVertex?_eq c global
      dsimp only [Option.map_some]
      rw [hcell]
      cases hown : b.cluster.storage.vertexOf? global with
      | some v =>
          have hv : t.localVertex? c global recursive = some v := by
            cases recursive with
            | false => exact hself.trans hown
            | true => rw [heq, hself, hown]; rfl
          rw [hv]
          rfl
      | none =>
          cases recursive with
          | false =>
              rw [hself, hown]
              rfl
          | true =>
              rw [heq, hself, hown, Option.none_or, if_pos rfl]
              refine (bind_of_ok (vertexOwner_run hl hs c global)).trans ?_
              cases ho : t.vertexOwner? c global with
              | none => rfl
              | some place =>
                  have hlive := Tree.mem_ids_of_vertexOwner? ho
                  exact representative_run hl hs c hlive place.2

/-- The vertices of a cluster and of what is inside it. -/
theorem subtreeGlobals_run (hb : t.find? c = some b) :
    ∃ names, subtreeGlobals c d = .ok (.ok names, d) ∧ ∀ g, g ∈ names ↔ g ∈ b.globals := by
  obtain rfl := Tree.id_of_find? hb
  obtain ⟨r, hr, -, -, hnames⟩ := traverse_ends hl id
    (fun l steps => l.collectGlobals steps b.cluster.id) (hs.ends_collectGlobals hb)
  exact ⟨r.state, hr, hnames⟩

/-- The names that go with a vertex. -/
theorem moving_run (hb : t.find? c = some b) (v : LocalVertex) :
    ∃ names, moving c v d = .ok (.ok names, d) ∧ ∀ g, g ∈ names ↔ g ∈ b.travelling v := by
  have hchild : read (fun a => a.childAt? c v) d
      = .ok (.ok ((b.inside.branchAt? v).map (fun x : Branch => x.cluster.id)), d) := by
    rw [read, hl.childAt? (Multiset.notMem_zero c), Tree.childAt?, hb]
    rfl
  have hglobal : read (fun a => a.global? c v) d = .ok (.ok (b.cluster.storage.global? v), d) := by
    rw [read, hl.global? (Multiset.notMem_zero c), Tree.global?, Tree.storage?_of_find? hb]
    rfl
  have htail : ∀ inside : List GlobalVertex,
      (do return inside ++ (← read (fun a => a.global? c v)).toList : Job (List GlobalVertex)) d
        = .ok (.ok (inside ++ (b.cluster.storage.global? v).toList), d) :=
    fun inside => bind_of_ok hglobal
  rw [moving, bind_of_ok hchild, Branch.travelling]
  cases hx : b.inside.branchAt? v with
  | none => exact ⟨_, htail [], fun g => by simp⟩
  | some x =>
      obtain ⟨names, hrun, hnames⟩ :=
        subtreeGlobals_run hl hs (hs.distinct.find?_of_branchAt? hb hx)
      refine ⟨_, (bind_of_ok hrun).trans (htail names), fun g => ?_⟩
      rw [List.mem_append, List.mem_append, hnames, or_comm]

end Reading

/-! ## What an operation leads to -/

/-- The job leads to what is given: an answer with a graph, or an error. -/
def Meets (x : Job α) (d : Desk) : Except Error (Graph × α) → Prop
  | .ok (g, a) => ∃ arena : Arena,
      x d = .ok (.ok a, { d with arena := arena, ids := g.ids }) ∧ arena.Lays g.tree
  | .error e => x d = .ok (.error e, d)

namespace Meets

variable {x : Job α} {f : α → Job β}

theorem bind_ok {a : α} {r : Except Error (Graph × β)} (h : x d = .ok (.ok a, d))
    (hf : Meets (f a) d r) : Meets (x >>= f) d r := by
  rcases r with e | ⟨g, b⟩
  · exact (bind_of_ok h).trans hf
  · obtain ⟨arena, hrun, hl⟩ := hf
    exact ⟨arena, (bind_of_ok h).trans hrun, hl⟩

/-- What is looked up before decides about the rest in the same way. -/
theorem bind {result : Except Error α} {k : α → Except Error (Graph × β)}
    (h : x d = .ok (result, d)) (hf : ∀ a, result = .ok a → Meets (f a) d (k a)) :
    Meets (x >>= f) d (result >>= k) := by
  cases result with
  | error e => exact bind_of_error h
  | ok a => exact bind_ok h (hf a rfl)

theorem bind_map {γ : Type} {r : Except Error γ} {φ : γ → α} {k : γ → Except Error (Graph × β)}
    (h : x d = .ok (φ <$> r, d)) (hf : ∀ a, r = .ok a → Meets (f (φ a)) d (k a)) :
    Meets (x >>= f) d (r >>= k) := by
  cases r with
  | error e => exact bind_of_error h
  | ok a => exact bind_ok h (hf a rfl)

end Meets

/-! ## What writes -/

section Writing

variable {t : Tree} {c : ClusterId} {b : Branch} (hl : d.arena.Lays t)
include hl

theorem markUpTo_run (hc : c ∈ t.ids) (last : ClusterId) :
    ∃ a : Arena, markUpTo c last d = .ok (.ok (), d.withArena a) ∧ a.Lays (t.markUpTo c last) := by
  obtain ⟨r, hr, -, hlays, -⟩ := hl.ends_markUp hc last
  refine ⟨r.state, (bind_of_ok (traverse_run (r := r) ?_)).trans rfl, hlays⟩
  rw [hl.count]
  exact hr _ (Nat.le_refl _)

end Writing

end Job

end NestedGraph
