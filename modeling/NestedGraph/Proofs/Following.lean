import NestedGraph.Arena.Growth
import NestedGraph.Proofs.Writing

/-! # Following — jobs in step with acts

    A job FOLLOWS an act when each step of it does to the arena what a step
    of the act does to the tree.  So where the act comes to an end the job
    does, with the same answer.  Steps in a row follow steps in a row; this
    is all that is needed to follow what goes vertex by vertex and edge by
    edge. -/

namespace NestedGraph

/-- The desk of a session: its arena lays out the tree, but for clusters that
    are loose, and all else is the same. -/
structure Desk.Matches (d : Desk) (s : Session) (loose : Multiset Node := 0) : Prop where
  arena : d.arena.Lays s.graph.tree loose
  ids : d.ids = s.graph.ids
  serial : d.serial = s.serial
  reported : d.reported = s.reported

theorem Act.exists_of_bind {α β : Type} {x : Act α} {f : α → Act β} {s s' : Session} {b : β}
    (h : (x >>= f) s = (.ok b, s')) : ∃ a between, x s = (.ok a, between) ∧ f a between = (.ok b, s') := by
  rw [bind_run] at h
  rcases hx : x s with ⟨_ | a, between⟩
  · rw [hx] at h
    cases (Prod.mk.inj h).1
  · rw [hx] at h
    exact ⟨a, between, rfl, h⟩

namespace Job

variable {α α' β β' : Type} {d : Desk} {s : Session} {loose : Multiset Node}

/-- Where the act succeeds the job does, and the two ends are related. -/
def Follows (x : Job α) (y : Act β) (d : Desk) (s : Session)
    (post : α → β → Desk → Session → Prop) : Prop :=
  ∀ b s', y s = (.ok b, s') → ∃ a d', x d = .ok (.ok a, d') ∧ post a b d' s'

/-- The ends of a job and of an act with one answer. -/
def Agree (loose : Multiset Node) (a b : α) (d : Desk) (s : Session) : Prop :=
  a = b ∧ d.Matches s loose

/-! ## Steps in a row -/

namespace Follows

variable {x : Job α} {y : Act β} {f : α → Job α'} {g : β → Act β'}
  {post : α → β → Desk → Session → Prop} {post' : α' → β' → Desk → Session → Prop}

theorem bind (h : Follows x y d s post)
    (hf : ∀ a b d' s', post a b d' s' → Follows (f a) (g b) d' s' post') :
    Follows (x >>= f) (y >>= g) d s post' := by
  intro b' s'' hrun
  obtain ⟨b, s', hy, hg⟩ := Act.exists_of_bind hrun
  obtain ⟨a, d', hx, hpost⟩ := h b s' hy
  obtain ⟨a', d'', hfx, hend⟩ := hf a b d' s' hpost b' s'' hg
  exact ⟨a', d'', (bind_of_ok hx).trans hfx, hend⟩

/-- What the act does first is known. -/
theorem step {b : β} {s' : Session} (h : Follows x y d s post) (hy : y s = (.ok b, s'))
    (hf : ∀ a d', post a b d' s' → Follows (f a) (g b) d' s' post') :
    Follows (x >>= f) (y >>= g) d s post' := by
  intro b' s'' hrun
  obtain ⟨a, d', hx, hpost⟩ := h b s' hy
  rw [Act.bind_of_ok hy] at hrun
  obtain ⟨a', d'', hfx, hend⟩ := hf a d' hpost b' s'' hrun
  exact ⟨a', d'', (bind_of_ok hx).trans hfx, hend⟩

/-- The job looks at something first. -/
theorem after_read {post : α' → β → Desk → Session → Prop} {a : α} (hx : x d = .ok (.ok a, d))
    (hf : Follows (f a) y d s post) : Follows (x >>= f) y d s post := by
  intro b s' hrun
  obtain ⟨a', d', hfx, hend⟩ := hf b s' hrun
  exact ⟨a', d', (bind_of_ok hx).trans hfx, hend⟩

/-- The act looks at something first. -/
theorem after_look {post : α → β' → Desk → Session → Prop} {look? : Graph → Except Error β}
    (hg : ∀ b, look? s.graph = .ok b → Follows x (g b) d s post) :
    Follows x (Act.look look? >>= g) d s post := by
  intro b' s'' hrun
  obtain ⟨b, s', hy, hgb⟩ := Act.exists_of_bind hrun
  obtain ⟨hlook, rfl⟩ := Prod.mk.inj hy
  exact hg b hlook b' s'' hgb

end Follows

theorem pure_follows (hm : d.Matches s loose) (a : α) :
    Follows (pure a) (pure a) d s (Agree loose) := by
  rintro b s' hrun
  obtain ⟨hb, rfl⟩ := Prod.mk.inj hrun
  exact ⟨a, d, rfl, Except.ok.inj hb, hm⟩

theorem edit_follows {loose' : Multiset Node} (hm : d.Matches s loose) (f : Arena → Arena)
    (f' : Tree → Tree) (h : (f d.arena).Lays (f' s.graph.tree) loose') :
    Follows (edit f) (Act.edit f') d s (Agree loose') := by
  rintro b s' hrun
  obtain ⟨-, rfl⟩ := Prod.mk.inj hrun
  exact ⟨(), _, rfl, rfl, h, hm.ids, hm.serial, hm.reported⟩

theorem mapStorage_follows (hm : d.Matches s loose) {c : ClusterId} (hc : c ∉ loose.map Node.id)
    (f : Storage → Storage) :
    Follows (edit (fun a => a.mapStorage c f)) (Act.edit (fun t => t.mapStorage c f)) d s
      (Agree loose) :=
  edit_follows hm (fun a => a.mapStorage c f) (fun t => t.mapStorage c f)
    (hm.arena.mapStorage hc f)

theorem mint_follows (hm : d.Matches s loose) : Follows mint Act.mint d s (Agree loose) := by
  rintro b s' hrun
  obtain ⟨hb, rfl⟩ := Prod.mk.inj hrun
  refine ⟨d.ids.next, _, rfl, ?_, hm.arena, congrArg IdSource.advance hm.ids, hm.serial, hm.reported⟩
  rw [hm.ids]
  exact Except.ok.inj hb

/-! ## Clusters -/

variable {c : ClusterId} {v w : LocalVertex}

theorem mark_follows (hm : d.Matches s loose) (hc : c ∉ loose.map Node.id) :
    Follows (mark c) (Act.edit (fun t => t.mark c)) d s (Agree loose) :=
  edit_follows hm (fun a => a.mark c) (fun t => t.mark c) (hm.arena.mark hc)

section Cells

variable {b : Branch} (hm : d.Matches s loose) (hb : s.graph.tree.find? c = some b)
include hm hb

theorem cell_of_matches : ∃ k, cell c d = .ok (.ok k, d) ∧ k.node = b.node := by
  obtain ⟨k, hget, hk⟩ := hm.arena.exists_get? hb
  refine ⟨k, ?_, hk⟩
  rw [cell, look_run, Arena.require, hget]

theorem requireVertex_of_matches (hv : b.cluster.storage.hasVertex v = true) :
    ∃ k, look (fun a => a.requireVertex c v) d = .ok (.ok k, d) := by
  obtain ⟨k, hget, hk⟩ := hm.arena.exists_get? hb
  have hstorage : k.storage = b.cluster.storage := congrArg Node.storage hk
  refine ⟨k, ?_⟩
  rw [look_run, Arena.requireVertex, Arena.require, hget]
  show Except.ok ((if k.storage.hasVertex v = true then _ else _ : Except Error Cell), d) = _
  rw [hstorage, if_pos hv]
  rfl

theorem notMem_loose : c ∉ loose.map Node.id := by
  have honce := hm.arena.once
  rw [hm.arena.nodes, Multiset.map_add, Multiset.nodup_add] at honce
  exact Multiset.disjoint_left.mp honce.2.2 (Tree.mem_ids_iff.mpr ⟨b, hb⟩)

end Cells

/-- A vertex is put into the cluster that the act puts it into. -/
theorem putVertex_follows (hm : d.Matches s loose) (record : VertexRecord) :
    Follows (putVertex c record) (Act.bringIn c record none) d s (Agree loose) := by
  rw [putVertex, Act.bringIn]
  refine Follows.after_look (fun b hb => ?_)
  have hb := Tree.of_require hb
  obtain ⟨k, hcell, hk⟩ := cell_of_matches hm hb
  have hnext : k.storage.vertices.nextHandle = b.nextVertex :=
    congrArg (fun n : Node => n.storage.vertices.nextHandle) hk
  refine Follows.after_read hcell ?_
  rw [hnext]
  exact (mapStorage_follows hm (notMem_loose hm hb) (fun st => st.addVertex record)).bind
    (fun _ _ d' s' h => pure_follows h.2 b.nextVertex)

/-! ## Edges -/

/-- Global edges are put onto the edge that the act puts them onto. -/
theorem attach_follows (hm : d.Matches s loose) (properties : List Value)
    (carried : List CarriedEdge) :
    Follows (attach c v w properties carried) (Act.attach c v w properties carried) d s
      (Agree loose) := by
  rw [attach, Act.attach]
  refine Follows.after_look (fun b hb => ?_)
  have hb := Tree.of_require hb
  obtain ⟨k, hcell, hk⟩ := cell_of_matches hm hb
  have hstorage : k.storage = b.cluster.storage := congrArg Node.storage hk
  refine Follows.after_read hcell ?_
  rw [hstorage]
  have hlast := (mapStorage_follows hm (notMem_loose hm hb)
    (fun st => st.attach v w properties carried)).bind
      (fun _ _ d' s' h => pure_follows h.2 (b.cluster.storage.attachHandle v w))
  cases b.cluster.storage.edgeBetween? v w with
  | some e => exact hlast
  | none =>
      refine Follows.after_look (fun b' hv => Follows.after_look (fun b'' hw => ?_))
      obtain ⟨hb', hv⟩ := Tree.of_requireVertex hv
      obtain ⟨hb'', hw⟩ := Tree.of_requireVertex hw
      obtain ⟨k', hread⟩ := requireVertex_of_matches hm hb' hv
      obtain ⟨k'', hread'⟩ := requireVertex_of_matches hm hb'' hw
      exact Follows.after_read hread (Follows.after_read hread' hlast)

theorem attachLinks_follows (links : List Link) (hm : d.Matches s loose) :
    Follows (attachLinks c links) (Act.attachLinks c links) d s (Agree loose) := by
  induction links generalizing d s with
  | nil => exact pure_follows hm ()
  | cons l rest ih =>
      rw [attachLinks, Act.attachLinks]
      exact (attach_follows hm l.record.properties l.record.carried).bind (fun _ _ d s h => ih h.2)

/-- A new global edge takes the id that it takes in the act. -/
theorem attachNew_follows (hm : d.Matches s) (c : ClusterId) (v w : LocalVertex)
    (source target : GlobalVertex) :
    Follows (attachNew c v w source target) (Act.attachNew c v w source target) d s (Agree 0) := by
  rw [attachNew, Act.attachNew]
  refine (mint_follows hm).bind (fun id id' d s h => ?_)
  obtain ⟨rfl, hm⟩ := h
  refine Follows.after_look (fun config hconfig => Follows.after_read (config_run hm.arena) ?_)
  obtain rfl := Except.ok.inj hconfig
  refine (attach_follows hm _ _).bind (fun e e' d s h => ?_)
  obtain ⟨rfl, hm⟩ := h
  exact (mark_follows hm (Multiset.notMem_zero c)).bind (fun _ _ d s h => pure_follows h.2 _)

/-! ## Indices -/

theorem numberVertices_follows (vs : List LocalVertex) (hm : d.Matches s) (c : ClusterId) (k : Nat) :
    Follows (numberVertices c k vs) (Act.numberVertices c k vs) d s (Agree 0) := by
  induction vs generalizing d s k with
  | nil => exact pure_follows hm ()
  | cons v rest ih =>
      rw [numberVertices, Act.numberVertices]
      refine Follows.after_look (fun properties hwrite => ?_)
      have hread := vertexRecord_run hm.arena c v
      rcases hrecord : s.graph.tree.vertexRecord c v with e | record
      · rw [hrecord] at hwrite
        cases hwrite
      · rw [hrecord] at hwrite hread
        have hput : settle (s.graph.tree.config.vertex.write vertexIndex (.index k) record.properties)
            d = .ok (.ok properties, d) := congrArg (fun x => Except.ok (x, d)) hwrite
        refine Follows.after_read (config_run hm.arena) (Follows.after_read hread
          (Follows.after_read hput ?_))
        exact (mapStorage_follows hm (Multiset.notMem_zero c) _).bind
          (fun _ _ d s h => ih h.2 (k + 1))

theorem numberEdges_follows (es : List LocalEdge) (hm : d.Matches s) (c : ClusterId) (k : Nat) :
    Follows (numberEdges c k es) (Act.numberEdges c k es) d s (Agree 0) := by
  induction es generalizing d s k with
  | nil => exact pure_follows hm ()
  | cons e rest ih =>
      rw [numberEdges, Act.numberEdges]
      refine Follows.after_look (fun properties hwrite => ?_)
      have hread := edgeRecord_run hm.arena c e
      rcases hrecord : s.graph.tree.edgeRecord c e with error | record
      · rw [hrecord] at hwrite
        cases hwrite
      · rw [hrecord] at hwrite hread
        have hput : settle (s.graph.tree.config.edge.write edgeIndex (.index k) record.properties)
            d = .ok (.ok properties, d) := congrArg (fun x => Except.ok (x, d)) hwrite
        refine Follows.after_read (config_run hm.arena) (Follows.after_read hread
          (Follows.after_read hput ?_))
        exact (mapStorage_follows hm (Multiset.notMem_zero c) _).bind
          (fun _ _ d s h => ih h.2 (k + 1))

/-! ## What a command comes to -/

/-- The job comes to an answer with a desk that matches, or there are no numbers
    left for all the clusters that there would be. -/
def Reaches (x : Job α) (d : Desk) (a : α) (s : Session) : Prop :=
  (x d = .error .overflow ∧ 2 ^ 64 ≤ s.graph.tree.nextClusterId)
    ∨ ∃ d', x d = .ok (.ok a, d') ∧ d'.Matches s

/-- The job ends as the act does: both fail and leave all as it was, or they come
    to the same answer. -/
def Performs (x : Job α) (y : Act α) (d : Desk) (s : Session) : Prop :=
  match y s with
  | (.error e, s') => x d = .ok (.error e, d) ∧ s' = s
  | (.ok a, s') => Reaches x d a s'

namespace Reaches

variable {x : Job α} {f : α → Job β} {a : α} {b : β} {s' : Session}

theorem of_follows {y : Act α} (h : Follows x y d s (Agree 0)) (hy : y s = (.ok a, s')) :
    Reaches x d a s' := by
  obtain ⟨a', d', hx, rfl, hm⟩ := h a s' hy
  exact Or.inr ⟨d', hx, hm⟩

theorem bind (h : Reaches x d a s)
    (hle : s.graph.tree.nextClusterId ≤ s'.graph.tree.nextClusterId)
    (hf : ∀ d', d'.Matches s → Reaches (f a) d' b s') : Reaches (x >>= f) d b s' := by
  rcases h with ⟨hover, hnext⟩ | ⟨d', hx, hm⟩
  · exact Or.inl ⟨bind_of_halt hover, Nat.le_trans hnext hle⟩
  · rcases hf d' hm with ⟨hover, hnext⟩ | ⟨d'', hfx, hm'⟩
    · exact Or.inl ⟨(bind_of_ok hx).trans hover, hnext⟩
    · exact Or.inr ⟨d'', (bind_of_ok hx).trans hfx, hm'⟩

/-- What the job does first is known. -/
theorem step {d' : Desk} (hx : x d = .ok (.ok a, d')) (hf : Reaches (f a) d' b s') :
    Reaches (x >>= f) d b s' := by
  rw [Reaches, bind_of_ok hx]
  exact hf

theorem congr {x' : Job α} (hx : x d = x' d) (h : Reaches x' d a s) : Reaches x d a s := by
  rw [Reaches, hx]
  exact h

theorem map (h : Reaches x d a s) (f : α → β) : Reaches (f <$> x) d (f a) s := by
  rcases h with ⟨hover, hnext⟩ | ⟨d', hx, hm⟩
  · exact Or.inl ⟨bind_of_halt hover, hnext⟩
  · exact Or.inr ⟨d', map_of_ok hx, hm⟩

end Reaches

namespace Performs

variable {x : Job α} {y : Act α}

theorem of_error {e : Error} (hx : x d = .ok (.error e, d)) (hy : y s = (.error e, s)) :
    Performs x y d s := by
  rw [Performs, hy]
  exact ⟨hx, rfl⟩

theorem of_follows {a : α} {s' : Session} (h : Follows x y d s (Agree 0)) (hy : y s = (.ok a, s')) :
    Performs x y d s := by
  rw [Performs, hy]
  exact .of_follows h hy

theorem congr {x' : Job α} {y' : Act α} (hx : x d = x' d) (hy : y s = y' s)
    (h : Performs x' y' d s) : Performs x y d s := by
  rcases hy' : y' s with ⟨e | a, s'⟩
  · rw [Performs, hy'] at h
    obtain ⟨hx', rfl⟩ := h
    exact of_error (hx.trans hx') (hy.trans hy')
  · rw [Performs, hy'] at h
    rw [Performs, hy, hy']
    exact h.congr hx

theorem map (h : Performs x y d s) (f : α → β) : Performs (f <$> x) (f <$> y) d s := by
  rcases hy : y s with ⟨e | a, s'⟩
  · rw [Performs, hy] at h
    obtain ⟨hx, rfl⟩ := h
    exact of_error (map_of_error hx) (Act.map_of_error hy)
  · rw [Performs, hy] at h
    rw [Performs, Act.map_of_ok hy]
    exact h.map f

section Checks

variable {γ : Type} {x : Job α} {f : α → Job β} {k : γ → Act β} {look? : Graph → Except Error γ}

/-- A check of the act is one of the job, in a form of its own. -/
theorem check_map {φ : γ → α} (h : x d = .ok (φ <$> look? s.graph, d))
    (hf : ∀ a, look? s.graph = .ok a → Performs (f (φ a)) (k a) d s) :
    Performs (x >>= f) (Act.look look? >>= k) d s := by
  cases hlook : look? s.graph with
  | error e =>
      rw [hlook] at h
      exact of_error (bind_of_error h) (Act.bind_of_error (Act.look_of_error hlook))
  | ok a =>
      rw [hlook] at h
      exact congr (bind_of_ok h) (Act.bind_of_ok (Act.look_of_ok hlook)) (hf a hlook)

theorem check {f : γ → Job β} {x : Job γ} (h : x d = .ok (look? s.graph, d))
    (hf : ∀ a, look? s.graph = .ok a → Performs (f a) (k a) d s) :
    Performs (x >>= f) (Act.look look? >>= k) d s := by
  refine check_map (φ := fun a => a) ?_ hf
  rw [h]
  cases look? s.graph <;> rfl

/-- The job looks at something that is there. -/
theorem after_read {y : Act β} {a : α} (h : x d = .ok (.ok a, d)) (hf : Performs (f a) y d s) :
    Performs (x >>= f) y d s :=
  congr (bind_of_ok h) rfl hf

/-- The act looks at something that is there. -/
theorem after_look {y : Job β} {a : γ} (h : look? s.graph = .ok a) (hf : Performs y (k a) d s) :
    Performs y (Act.look look? >>= k) d s :=
  congr rfl (Act.bind_of_ok (Act.look_of_ok h)) hf

end Checks

/-- What a job leads to is what the act does at once. -/
theorem of_meets {x : Job α} {r : Except Error (Graph × α)} (hm : d.Matches s) (h : Meets x d r)
    (f : α → Reply) (hf : ∀ a, (f a).removals = []) {command : Command}
    (hr : s.graph.perform command = (fun p => (p.1, f p.2)) <$> r) :
    Performs (f <$> x) (Act.atOnce (fun g => g.perform command)) d s := by
  rcases r with e | ⟨g, a⟩
  · exact of_error (map_of_error h) (Act.atOnce_of_error hr)
  · obtain ⟨arena, hrun, hl⟩ := h
    rw [Performs, Act.atOnce_of_ok hr]
    refine Or.inr ⟨_, map_of_ok hrun, hl, rfl, hm.serial, ?_⟩
    show d.reported = s.reported ++ (f a).removals
    rw [hf, List.append_nil, hm.reported]

end Performs

end Job

end NestedGraph
