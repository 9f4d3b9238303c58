import NestedGraph.Proofs.Climbing
import NestedGraph.Proofs.Rooting
import NestedGraph.Proofs.Visits

/-! # Descending — traversals that go down

    A traversal that puts the children of a cluster onto a stack, or visits
    them by recursion, SWEEPS the clusters inside one after the other: with
    a stack later siblings come first, by recursion they come last.  It
    visits each of them once, and ends, because the children that clusters
    name are those of a forest.  A recursion may take clusters out of the
    tree that it reads, as long as it has left them. -/

namespace NestedGraph

/-! ## One after the other -/

section Sweep

variable {σ : Type}

theorem Trace.andThen_assoc (r : Trace σ) (next later : σ → Trace σ) :
    (r.andThen next).andThen later = r.andThen (fun s => (next s).andThen later) := by
  cases hstop : r.stopped with
  | true => rw [andThen_of_stop hstop, andThen_of_stop hstop, andThen_of_stop hstop]
  | false =>
      rw [andThen_of_go hstop, andThen_of_go hstop, andThen, andThen]
      cases (next r.state).stopped with
      | true => rfl
      | false => simp [List.append_assoc]

/-- What holds where the first part ends, and where the second would, holds at
    the end. -/
theorem Trace.state_andThen {r : Trace σ} {next : σ → Trace σ} {P : σ → Prop} (h : P r.state)
    (h' : P (next r.state).state) : P (r.andThen next).state := by
  rw [andThen]
  split
  · exact h
  · exact h'

/-- Visits clusters one after the other, until a visit ends it. -/
def sweep (visit : σ → ClusterId → σ × Bool) : List ClusterId → σ → Trace σ
  | [], s => ⟨s, [], false⟩
  | c :: rest, s => Trace.andThen ⟨(visit s c).1, [c], (visit s c).2⟩ (sweep visit rest)

theorem sweep_append (visit : σ → ClusterId → σ × Bool) (cs ds : List ClusterId) (s : σ) :
    sweep visit (cs ++ ds) s = (sweep visit cs s).andThen (sweep visit ds) := by
  induction cs generalizing s with
  | nil => rfl
  | cons c rest ih =>
      rw [List.cons_append, sweep, sweep, Trace.andThen_assoc]
      exact congrArg _ (funext ih)

theorem sweep_through (visit : σ → ClusterId → σ × Bool) (cs : List ClusterId) (s : σ) :
    (sweep visit cs s).Through cs := by
  induction cs generalizing s with
  | nil => exact Trace.through_refl ..
  | cons c rest ih => exact (Trace.through_refl _ [c] _).andThen (ih _)

end Sweep

/-- A live cluster names the children in its branch. -/
theorem Tree.childIds?_of_find? {t : Tree} {c : ClusterId} {b : Branch} (hb : t.find? c = some b) :
    t.childIds? c = some (b.inside.entries.map Prod.snd) := by
  rw [childIds?, hb]
  rfl

/-! ## With a stack -/

namespace Forest

theorem length_clusters_cons (v : LocalVertex) (k : Cluster) (inside rest : Forest) :
    (cons v k inside rest).clusters.length
      = inside.clusters.length + rest.clusters.length + 1 := by
  rw [clusters, List.cons_append, List.length_cons, List.length_append]

/-- The clusters that a stack brings up, if some may be left out. -/
def stackOrder (childIds? : ClusterId → Option (List ClusterId)) : Forest → List ClusterId
  | nil => []
  | cons _ k inside rest =>
      rest.stackOrder childIds?
        ++ if (childIds? k.id).isSome then k.id :: inside.stackOrder childIds? else []

/-- The children that clusters name are those of the forest. -/
def Known (childIds? : ClusterId → Option (List ClusterId)) : Forest → Prop
  | nil => True
  | cons _ k inside rest =>
      (∀ ds, childIds? k.id = some ds → ds = inside.entries.map Prod.snd)
        ∧ inside.Known childIds? ∧ rest.Known childIds?

end Forest

section Stack

variable {σ : Type} {childIds? : ClusterId → Option (List ClusterId)}
  {visit : σ → ClusterId → σ × Bool} {next : σ → Trace σ}

/-- The children of a cluster are swept before what is below them on the stack,
    by induction on the forest: the last child and all that is inside it come
    first. -/
theorem drain_forest {f : Forest} (hf : f.Known childIds?) {stack : List ClusterId} (bound : Nat)
    (hnext : ∀ s steps, bound ≤ steps → drain childIds? visit steps s stack = some (next s))
    (s : σ) {steps : Nat} (hsteps : bound + f.clusters.length ≤ steps) :
    drain childIds? visit steps s ((f.entries.map Prod.snd).reverse ++ stack)
      = some ((sweep visit (f.stackOrder childIds?) s).andThen next) := by
  induction f generalizing stack next bound s steps with
  | nil => exact hnext s steps hsteps
  | cons v k inside rest ihInside ihRest =>
      obtain ⟨hk, hinside, hrest⟩ := hf
      have hstack : ((Forest.cons v k inside rest).entries.map Prod.snd).reverse ++ stack
          = (rest.entries.map Prod.snd).reverse ++ k.id :: stack := by
        simp [Forest.entries, Forest.branches]
      rw [hstack, Forest.stackOrder, sweep_append, Trace.andThen_assoc]
      have hcount := Forest.length_clusters_cons v k inside rest
      -- The rest is drained with the first child and what is inside it still on the stack.
      refine ihRest hrest (bound + inside.clusters.length + 1) (fun s steps hsteps => ?_) s
        (by omega)
      cases steps with
      | zero => omega
      | succ steps =>
          rw [drain]
          cases hids : childIds? k.id with
          | none => exact hnext s steps (by omega)
          | some ds =>
              obtain rfl := hk ds hids
              rw [Option.isSome_some, if_pos rfl, sweep, Trace.andThen_assoc]
              rcases hv : visit s k.id with ⟨s', _ | _⟩
              · rw [Trace.andThen_of_go rfl]
                exact congrArg (Option.map (Trace.after k.id))
                  (ihInside hinside bound hnext s' (by omega))
              · rw [Trace.andThen_of_stop rfl]

/-- A traversal with a stack sweeps the branch that it starts from. -/
theorem drain_branch {b : Branch} {v : LocalVertex} (hb : (Forest.single v b).Known childIds?)
    (s : σ) {steps : Nat} (hsteps : b.clusters.length ≤ steps) :
    drain childIds? visit steps s [b.cluster.id]
      = some (sweep visit ((Forest.single v b).stackOrder childIds?) s) := by
  have hcount : (Forest.single v b).clusters.length = b.clusters.length := by
    simp [Forest.single, Forest.clusters, Branch.clusters]
  have hend : ∀ (s : σ) (steps : Nat), 0 ≤ steps →
      drain childIds? visit steps s [] = some ⟨s, [], false⟩ := by
    intro s steps _
    cases steps <;> rfl
  refine (drain_forest hb 0 hend s (by omega)).trans (congrArg some ?_)
  have hthrough := sweep_append visit ((Forest.single v b).stackOrder childIds?) [] s
  rw [List.append_nil] at hthrough
  exact hthrough.symm

end Stack

/-! ## By recursion -/

namespace Forest

/-- Every cluster of the forest is found in the tree, as a branch of it. -/
def LivesIn (t : Tree) : Forest → Prop
  | nil => True
  | cons _ k inside rest =>
      t.find? k.id = some ⟨k, inside⟩ ∧ inside.LivesIn t ∧ rest.LivesIn t

theorem livesIn_of_find? {t : Tree} {f : Forest} (hd : f.ids.Nodup)
    (h : ∀ d x, f.find? d = some x → t.find? d = some x) : f.LivesIn t := by
  induction f with
  | nil => trivial
  | cons v k inside rest ihInside ihRest =>
      rw [ids_cons, Multiset.nodup_cons, Multiset.nodup_add] at hd
      obtain ⟨hk, hin, hr, hdisj⟩ := hd
      have hid : ∀ {g : Forest} {d : ClusterId} {x : Branch}, g.find? d = some x → d ∈ g.ids := by
        intro g d x hx
        exact mem_ids_iff.mpr (by rw [hx]; rfl)
      refine ⟨h k.id _ (if_pos rfl), ihInside hin (fun d x hx => h d x ?_),
        ihRest hr (fun d x hx => h d x ?_)⟩
      · have hne : k.id ≠ d := by
          rintro rfl
          exact hk (Multiset.mem_add.mpr (Or.inl (hid hx)))
        rw [find?, if_neg hne, hx]
        rfl
      · have hne : k.id ≠ d := by
          rintro rfl
          exact hk (Multiset.mem_add.mpr (Or.inr (hid hx)))
        rw [find?, if_neg hne, find?_eq_none (Multiset.disjoint_right.mp hdisj (hid hx)), hx]
        rfl

theorem LivesIn.known {t : Tree} {f : Forest} (h : f.LivesIn t)
    {childIds? : ClusterId → Option (List ClusterId)}
    (hids : ∀ d ds, childIds? d = some ds → t.childIds? d = some ds) : f.Known childIds? := by
  induction f with
  | nil => trivial
  | cons v k inside rest ihInside ihRest =>
      refine ⟨fun ds hds => ?_, ihInside h.2.1, ihRest h.2.2⟩
      have hchildren := hids _ _ hds
      rw [Tree.childIds?_of_find? h.1] at hchildren
      exact (Option.some.inj hchildren).symm

end Forest

/-- What is inside a live cluster lives in the tree. -/
theorem Tree.Distinct.livesIn {t : Tree} (hd : t.Distinct) {c : ClusterId} {b : Branch}
    (hb : t.find? c = some b) : b.inside.LivesIn t :=
  Forest.livesIn_of_find? (hd.nodup_inside hb).2 (fun _ _ hx => hd.find?_inside hb hx)

namespace Visitor

variable {σ : Type} (w : Visitor σ)

/-- Visits a cluster, with what is done for its children in between. -/
def around (c : ClusterId) (inner : σ → Trace σ) (s : σ) : Trace σ :=
  Trace.andThen ⟨(w.enter s c).1, [c], (w.enter s c).2⟩ (fun s =>
    (inner s).andThen (fun s => ⟨w.leave s c, [], false⟩))

/-- Visits the clusters of a forest, each before those inside it. -/
def along : Forest → σ → Trace σ
  | .nil, s => ⟨s, [], false⟩
  | .cons _ k inside rest, s =>
      (w.around k.id (along inside) (w.announce s k.id)).andThen (along rest)

variable {w} {s : σ} {c : ClusterId} {inner : σ → Trace σ} {steps : Nat}

theorem around_through {cs : List ClusterId} (h : ∀ s, (inner s).Through cs) :
    (w.around c inner s).Through (c :: cs) := by
  refine (Trace.through_refl _ [c] _).andThen ?_
  rw [← List.append_nil cs]
  exact (h _).andThen (Trace.through_refl ..)

theorem along_through (f : Forest) (s : σ) : (w.along f s).Through (f.clusters.map Cluster.id) := by
  induction f generalizing s with
  | nil => exact Trace.through_refl ..
  | cons v k inside rest ihInside ihRest =>
      rw [Forest.clusters, List.map_append]
      exact (around_through ihInside).andThen (ihRest _)

/-- One cluster is visited as long as its children are. -/
theorem visit_eq {ds : List ClusterId} (hchildren : w.childIds? s c = some ds)
    (hinner : w.visitAll steps (w.enter s c).1 ds = some (inner (w.enter s c).1)) :
    w.visit (steps + 1) s c = some (w.around c inner s) := by
  rw [visit, hchildren, around]
  rcases hv : w.enter s c with ⟨s', _ | _⟩
  · rw [hv] at hinner
    rw [Trace.andThen_of_go rfl]
    simp only [hinner]
    rcases inner s' with ⟨s'', visited, _ | _⟩
    · simp [Trace.andThen]
    · simp [Trace.andThen]
  · rw [Trace.andThen_of_stop rfl]

/-- Children are visited one after the other. -/
theorem visitAll_cons {d : ClusterId} {ds : List ClusterId} {r : Trace σ} {next : σ → Trace σ}
    (hfirst : w.visit steps (w.announce s d) d = some r)
    (hlater : w.visitAll steps r.state ds = some (next r.state)) :
    w.visitAll (steps + 1) s (d :: ds) = some (r.andThen next) := by
  rw [visitAll, hfirst]
  rcases r with ⟨s', visited, _ | _⟩
  · simp only [hlater]
    rfl
  · rfl

/-- The children that a visitor reads are those in a tree, but for clusters that
    are gone.  A cluster goes only when the visitor leaves it. -/
structure Reads (w : Visitor σ) (t : Tree) (Keeps : σ → Prop) (gone : σ → List ClusterId) :
    Prop where
  childIds? : ∀ {s d}, Keeps s → d ∉ gone s → w.childIds? s d = t.childIds? d
  enter : ∀ s d, gone (w.enter s d).1 = gone s
  announce : ∀ s d, gone (w.announce s d) = gone s
  leave : ∀ s d, gone (w.leave s d) ⊆ d :: gone s
  keeps_enter : ∀ {s}, Keeps s → ∀ d, Keeps (w.enter s d).1
  keeps_announce : ∀ {s}, Keeps s → ∀ d, Keeps (w.announce s d)
  keeps_leave : ∀ {s}, Keeps s → ∀ d, Keeps (w.leave s d)

section Reads

variable {t : Tree} {Keeps : σ → Prop} {gone : σ → List ClusterId} (hw : w.Reads t Keeps gone)
include hw

theorem Reads.keeps_around (h : ∀ s, Keeps s → Keeps (inner s).state) (hs : Keeps s) :
    Keeps (w.around c inner s).state :=
  Trace.state_andThen (hw.keeps_enter hs c) (Trace.state_andThen (h _ (hw.keeps_enter hs c))
    (hw.keeps_leave (h _ (hw.keeps_enter hs c)) c))

theorem Reads.keeps_along (f : Forest) (s : σ) (hs : Keeps s) : Keeps (w.along f s).state := by
  induction f generalizing s with
  | nil => exact hs
  | cons v k inside rest ihInside ihRest =>
      have hself := hw.keeps_around (c := k.id) ihInside (hw.keeps_announce hs k.id)
      exact Trace.state_andThen hself (ihRest _ hself)

theorem Reads.gone_around {cs : List ClusterId}
    (h : ∀ s, ∀ d ∈ gone (inner s).state, d ∈ cs ∨ d ∈ gone s) :
    ∀ d ∈ gone (w.around c inner s).state, d ∈ c :: cs ∨ d ∈ gone s := by
  have hinner : ∀ d ∈ gone (inner (w.enter s c).1).state, d ∈ c :: cs ∨ d ∈ gone s := by
    intro d hmem
    have hor := h _ d hmem
    rw [hw.enter] at hor
    exact hor.imp_left (List.mem_cons_of_mem c)
  refine Trace.state_andThen (P := fun s' => ∀ d ∈ gone s', d ∈ c :: cs ∨ d ∈ gone s)
    (fun d hmem => ?_) (Trace.state_andThen
      (P := fun s' => ∀ d ∈ gone s', d ∈ c :: cs ∨ d ∈ gone s) hinner (fun d hmem => ?_))
  · exact Or.inr (hw.enter s c ▸ hmem)
  · rcases List.mem_cons.mp (hw.leave _ c hmem) with rfl | hmem
    · exact Or.inl List.mem_cons_self
    · exact hinner d hmem

/-- A visitor takes out no cluster but those that it visits. -/
theorem Reads.gone_along (f : Forest) (s : σ) :
    ∀ d ∈ gone (w.along f s).state, d ∈ f.clusters.map Cluster.id ∨ d ∈ gone s := by
  induction f generalizing s with
  | nil => exact fun d hmem => Or.inr hmem
  | cons v k inside rest ihInside ihRest =>
      have hself : ∀ d ∈ gone (w.around k.id (w.along inside) (w.announce s k.id)).state,
          d ∈ (Forest.cons v k inside rest).clusters.map Cluster.id ∨ d ∈ gone s := by
        intro d hmem
        have hor := hw.gone_around ihInside d hmem
        rw [hw.announce] at hor
        refine hor.imp_left (fun hin => ?_)
        rw [Forest.clusters, List.map_append]
        exact List.mem_append_left _ hin
      refine Trace.state_andThen (P := fun s' => ∀ d ∈ gone s',
        d ∈ (Forest.cons v k inside rest).clusters.map Cluster.id ∨ d ∈ gone s) hself
        (fun d hmem => ?_)
      rcases ihRest _ d hmem with hrest | hbefore
      · rw [Forest.clusters, List.map_append]
        exact Or.inl (List.mem_append_right _ hrest)
      · exact hself d hbefore

/-- Visiting children visits the forest of them, by induction on it.  What is
    gone before are clusters elsewhere, so the names of children are all
    read as they are in the tree. -/
theorem Reads.visitAll_eq {f : Forest} (hs : Keeps s) (hf : f.LivesIn t)
    (hd : (f.clusters.map Cluster.id).Nodup)
    (hgone : ∀ d ∈ f.clusters.map Cluster.id, d ∉ gone s)
    (hsteps : 2 * f.clusters.length < steps) :
    w.visitAll steps s (f.entries.map Prod.snd) = some (w.along f s) := by
  induction f generalizing s steps with
  | nil =>
      obtain ⟨steps, rfl⟩ := Nat.exists_eq_succ_of_ne_zero (Nat.ne_of_gt (Nat.zero_lt_of_lt hsteps))
      rfl
  | cons v k inside rest ihInside ihRest =>
      obtain ⟨hk, hinside, hrest⟩ := hf
      rw [Forest.clusters, List.map_append, List.map_cons] at hd hgone
      obtain ⟨hself, hdrest, hdisj⟩ := List.nodup_append.mp hd
      rw [List.nodup_cons] at hself
      have hcount := Forest.length_clusters_cons v k inside rest
      obtain ⟨steps, rfl⟩ : ∃ n, steps = n + 2 := ⟨steps - 2, by omega⟩
      -- The cluster and those inside it are not gone when it is announced.
      have hannounce : ∀ d ∈ k.id :: inside.clusters.map Cluster.id,
          d ∉ gone (w.announce s k.id) := by
        intro d hmem
        rw [hw.announce]
        exact hgone d (List.mem_append_left _ hmem)
      have hchildren : w.childIds? (w.announce s k.id) k.id
          = some (inside.entries.map Prod.snd) := by
        rw [hw.childIds? (hw.keeps_announce hs _) (hannounce _ List.mem_cons_self),
          Tree.childIds?_of_find? hk]
      have hinner : w.visitAll steps (w.enter (w.announce s k.id) k.id).1
            (inside.entries.map Prod.snd)
          = some (w.along inside (w.enter (w.announce s k.id) k.id).1) := by
        refine ihInside (hw.keeps_enter (hw.keeps_announce hs _) _) hinside hself.2
          (fun d hmem => ?_) (by omega)
        rw [hw.enter]
        exact hannounce d (List.mem_cons_of_mem _ hmem)
      have hvisit := visit_eq hchildren hinner
      -- None of its later siblings is gone after it, as they are others.
      have hlater : ∀ d ∈ rest.clusters.map Cluster.id,
          d ∉ gone (w.around k.id (w.along inside) (w.announce s k.id)).state := by
        intro d hmem hin
        rcases hw.gone_around (hw.gone_along inside) d hin with hsame | hbefore
        · exact hdisj d hsame d hmem rfl
        · rw [hw.announce] at hbefore
          exact hgone d (List.mem_append_right _ hmem) hbefore
      have hkeeps := hw.keeps_around (c := k.id) (hw.keeps_along inside) (hw.keeps_announce hs k.id)
      exact visitAll_cons hvisit (ihRest hkeeps hrest hdrest hlater (by omega))

theorem Reads.visit_branch (ht : t.Distinct) {b : Branch} (hb : t.find? c = some b) (hs : Keeps s)
    (hgone : ∀ d ∈ b.clusters.map Cluster.id, d ∉ gone s) (hsteps : 2 * b.clusters.length ≤ steps) :
    w.visit steps s c = some (w.around c (w.along b.inside) s) := by
  obtain rfl := Tree.id_of_find? hb
  have hnodup : (b.clusters.map Cluster.id).Nodup := by
    have hids := ht.nodup_branch hb
    rwa [Branch.ids_eq_clusters, Multiset.coe_nodup] at hids
  have hcount : b.clusters.length = b.inside.clusters.length + 1 := rfl
  rw [Branch.clusters, List.map_cons] at hnodup hgone
  obtain ⟨steps, rfl⟩ : ∃ n, steps = n + 1 := ⟨steps - 1, by omega⟩
  have hchildren : w.childIds? s b.cluster.id = some (b.inside.entries.map Prod.snd) := by
    rw [hw.childIds? hs (hgone _ List.mem_cons_self), Tree.childIds?_of_find? hb]
  refine visit_eq hchildren (hw.visitAll_eq (hw.keeps_enter hs _) (ht.livesIn hb)
    (List.nodup_cons.mp hnodup).2
    (fun d hmem => ?_) (by omega))
  rw [hw.enter]
  exact hgone d (List.mem_cons_of_mem _ hmem)

end Reads

end Visitor

end NestedGraph
