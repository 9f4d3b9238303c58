import NestedGraph.Proofs.Transplant
import NestedGraph.Tree.Walk

/-! # Transcript — what a cloner is asked for

    While a branch is copied, the cloner is asked for one object after the
    other, and each answer is stored where the original was.  So a walk
    through the copy is the walk through the source, every object of it
    passed through the cloner once and in that order. -/

namespace NestedGraph

/-! ## One question after the other -/

section Transcribes

variable {σ α β : Type}

/-- Asking `f` for each element of a list in turn gives the second list, and
    leads from the first state to the second. -/
def Transcribes (f : α → StateM σ β) (l : List α) (state : σ) (l' : List β) (state' : σ) : Prop :=
  l.mapM f state = (l', state')

variable {f : α → StateM σ β} {state state1 state2 : σ}

theorem transcribes_nil (f : α → StateM σ β) (state : σ) : Transcribes f [] state [] state := rfl

theorem Transcribes.cons {a : α} {b : β} {l : List α} {l' : List β} (ha : f a state = (b, state1))
    (h : Transcribes f l state1 l' state2) : Transcribes f (a :: l) state (b :: l') state2 := by
  rw [Transcribes] at h ⊢
  rw [List.mapM_cons]
  show (match f a state with
    | (b, state1) => match l.mapM f state1 with
      | (l', state2) => (b :: l', state2)) = _
  rw [ha]
  dsimp only
  rw [h]

theorem Transcribes.append {l m : List α} {l' m' : List β} (hl : Transcribes f l state l' state1)
    (hm : Transcribes f m state1 m' state2) : Transcribes f (l ++ m) state (l' ++ m') state2 := by
  rw [Transcribes] at hl hm ⊢
  rw [List.mapM_append]
  show (match l.mapM f state with
    | (l', state1) => match m.mapM f state1 with
      | (m', state2) => (l' ++ m', state2)) = _
  rw [hl]
  dsimp only
  rw [hm]

end Transcribes

/-- What a step of a walk becomes in a copy: the cluster is the one that
    corresponds, and the object is the one that the cloner makes. -/
def WalkStep.copied {σ : Type} (cloner : Cloner σ) (φ : ClusterId → ClusterId) :
    WalkStep → StateM σ WalkStep
  | .cluster c => return .cluster (φ c)
  | .object original => do return .object (← cloner original)

theorem Transcribes.steps {σ : Type} {cloner : Cloner σ} {l l' : List TypedObject}
    {state state' : σ} (h : Transcribes cloner l state l' state') (φ : ClusterId → ClusterId) :
    Transcribes (WalkStep.copied cloner φ) (l.map .object) state (l'.map .object) state' := by
  induction l generalizing l' state with
  | nil =>
      obtain ⟨rfl, rfl⟩ := Prod.mk.inj h
      exact transcribes_nil ..
  | cons object rest ih =>
      rw [Transcribes, List.mapM_cons] at h
      obtain ⟨rfl, rfl⟩ := Prod.mk.inj h
      exact .cons rfl (ih rfl)

/-! ## One cluster -/

/-- The objects in the slots of an entity. -/
abbrev filled (slots : List (Option TypedObject)) : List TypedObject := slots.filterMap id

section Content

variable {σ : Type} (cloner : Cloner σ)

theorem transcribes_cloneSlots (slots : List (Option TypedObject)) (state : σ) :
    Transcribes cloner (filled slots) state (filled (cloneSlots cloner slots state).1)
      (cloneSlots cloner slots state).2 := by
  induction slots generalizing state with
  | nil => exact transcribes_nil ..
  | cons slot rest ih =>
      cases slot with
      | none => exact ih state
      | some object => exact .cons rfl (ih (cloner object state).2)

theorem transcribes_cloneCarried (carried : List CarriedEdge) (state : σ) :
    Transcribes cloner (carried.flatMap (fun x => filled x.objects)) state
      ((cloneCarried cloner carried state).1.flatMap (fun x => filled x.objects))
      (cloneCarried cloner carried state).2 := by
  induction carried generalizing state with
  | nil => exact transcribes_nil ..
  | cons x rest ih =>
      exact (transcribes_cloneSlots cloner x.objects state).append
        (ih (cloneSlots cloner x.objects state).2)

/-- The objects on vertices, in their order. -/
def vertexObjects (records : List VertexRecord) : List TypedObject :=
  records.flatMap (fun r => filled r.objects)

/-- The objects on the global edges of edges, in their order. -/
def edgeObjects (links : List Link) : List TypedObject :=
  links.flatMap (fun l => l.record.carried.flatMap (fun x => filled x.objects))

theorem Storage.objects_filled (s : Storage) :
    s.objects filled = vertexObjects s.vertices.values ++ edgeObjects s.edges.values := rfl

/-- The vertices that are added hold the answers, after those that were
    there. -/
theorem transcribes_cloneVertices (entries : List (LocalVertex × VertexRecord)) {target : Storage}
    (hfree : target.vertices.free = []) (state : σ) :
    ∃ objects, Transcribes cloner (vertexObjects (entries.map Prod.snd)) state objects
        (cloneVertices cloner target entries state).2
      ∧ vertexObjects (cloneVertices cloner target entries state).1.1.vertices.values
        = vertexObjects target.vertices.values ++ objects := by
  induction entries generalizing target state with
  | nil => exact ⟨[], transcribes_nil .., (List.append_nil _).symm⟩
  | cons entry rest ih =>
      obtain ⟨v, r⟩ := entry
      let copy : VertexRecord := { r with objects := (cloneSlots cloner r.objects state).1 }
      have hfree' : (target.addVertex copy).vertices.free = [] := SlotStore.free_insert hfree copy
      obtain ⟨objects, hasked, hstored⟩ := ih hfree' (cloneSlots cloner r.objects state).2
      refine ⟨filled copy.objects ++ objects,
        (transcribes_cloneSlots cloner r.objects state).append hasked, hstored.trans ?_⟩
      have hvalues : (target.addVertex copy).vertices.values = target.vertices.values ++ [copy] :=
        SlotStore.values_insert hfree copy
      rw [hvalues, ← List.append_assoc]
      simp [vertexObjects]

/-- The edges that are added hold the answers.  The ends of each need new
    handles, or the cloner would not be asked for what it carries. -/
theorem transcribes_cloneEdges {names : Renaming} {links : List Link}
    (hnames : ∀ l ∈ links, ∃ a b, names.handle? l.first = some a ∧ names.handle? l.second = some b)
    {target : Storage} (hfree : target.edges.free = []) (state : σ) :
    ∃ objects, Transcribes cloner (edgeObjects links) state objects
        (cloneEdges cloner names target links state).2
      ∧ edgeObjects (cloneEdges cloner names target links state).1.edges.values
        = edgeObjects target.edges.values ++ objects := by
  induction links generalizing target state with
  | nil => exact ⟨[], transcribes_nil .., (List.append_nil _).symm⟩
  | cons l rest ih =>
      obtain ⟨a, b, ha, hb⟩ := hnames l (List.mem_cons_self ..)
      let copy : EdgeRecord :=
        { l.record with carried := (cloneCarried cloner l.record.carried state).1 }
      have hrun : cloneEdges cloner names target (l :: rest) state
          = cloneEdges cloner names (target.addEdge a b copy) rest
            (cloneCarried cloner l.record.carried state).2 := by
        rw [cloneEdges, ha, hb]
        rfl
      have hfree' : (target.addEdge a b copy).edges.free = [] := SlotStore.free_insert hfree _
      obtain ⟨objects, hasked, hstored⟩ := ih (fun m hm => hnames m (List.mem_cons_of_mem _ hm))
        hfree' (cloneCarried cloner l.record.carried state).2
      rw [hrun]
      refine ⟨copy.carried.flatMap (fun x => filled x.objects) ++ objects,
        (transcribes_cloneCarried cloner l.record.carried state).append hasked, hstored.trans ?_⟩
      have hvalues : (target.addEdge a b copy).edges.values
          = target.edges.values ++ [⟨a, b, copy⟩] := SlotStore.values_insert hfree _
      rw [hvalues, ← List.append_assoc]
      simp [edgeObjects]

theorem vertices_cloneEdges (names : Renaming) (target : Storage) (links : List Link) (state : σ) :
    (cloneEdges cloner names target links state).1.vertices = target.vertices := by
  induction links generalizing target state with
  | nil => rfl
  | cons l rest ih =>
      rw [cloneEdges]
      cases names.handle? l.first with
      | none => exact ih ..
      | some a =>
          cases names.handle? l.second with
          | none => exact ih ..
          | some b => exact (ih ..).trans (Storage.vertices_addEdge ..)

/-- All objects of a cluster are cloned: those on its vertices, then those on
    its edges. -/
theorem transcribes_cloneStorage {source target : Storage} (hs : source.Sound) (hb : target.Blank)
    (state : σ) :
    Transcribes cloner (source.objects filled) state
      ((cloneStorage cloner source target state).1.1.objects filled)
      (cloneStorage cloner source target state).2 := by
  obtain ⟨hcopies, -⟩ := cloneStorage_spec cloner hs hb state
  obtain ⟨-, -, -, -, -, hedges, -⟩ := cloneVertices_spec cloner source.vertices.entries
    hb.freeVertices hb.sound.vertices state
  obtain ⟨onVertices, hasked, hstored⟩ := transcribes_cloneVertices cloner source.vertices.entries
    hb.freeVertices state
  generalize hout : cloneVertices cloner target source.vertices.entries state = out at *
  obtain ⟨⟨result, names⟩, state'⟩ := out
  dsimp only at hedges hasked hstored
  rw [cloneStorage_of cloner hout] at hcopies ⊢
  have hnames : ∀ l ∈ source.edges.values, ∃ a b,
      names.handle? l.first = some a ∧ names.handle? l.second = some b := by
    intro l hl
    obtain ⟨⟨e, l⟩, hmem, rfl⟩ := List.mem_map.mp hl
    obtain ⟨hfirst, hsecond⟩ := hs.live e l (SlotStore.mem_entries.mp hmem)
    obtain ⟨a, ha⟩ := hcopies.exists_handle? hfirst
    obtain ⟨b, hb⟩ := hcopies.exists_handle? hsecond
    exact ⟨a, b, ha, hb⟩
  have hfree : result.edges.free = [] := by
    rw [hedges]
    exact hb.freeEdges
  obtain ⟨onEdges, hasked', hstored'⟩ := transcribes_cloneEdges cloner hnames hfree state'
  have hvertices : vertexObjects target.vertices.values = [] := by
    rw [SlotStore.values, SlotStore.entries_of_slots_eq_nil hb.vertexSlots]
    rfl
  have hnone : edgeObjects result.edges.values = [] := by
    rw [hedges, SlotStore.values, SlotStore.entries_of_slots_eq_nil hb.edgeSlots]
    rfl
  rw [Storage.objects_filled, Storage.objects_filled, vertices_cloneEdges, hstored, hstored',
    hvertices, hnone]
  exact hasked.append hasked'

end Content

/-! ## Nested clusters -/

namespace Forest

/-- The clusters of the second forest are those that correspond to the
    clusters of the first, in the same order. -/
def Follows (φ : ClusterId → ClusterId) (f f' : Forest) : Prop :=
  f'.clusters.map Cluster.id = f.clusters.map (fun k => φ k.id)

variable {σ : Type} {cloner : Cloner σ} {φ : ClusterId → ClusterId}

theorem Copies.length_clusters {names : Renaming} {f f' : Forest} (h : f.Copies cloner names f') :
    f'.clusters.length = f.clusters.length := by
  induction h with
  | nil => rfl
  | cons _ _ _ _ _ ihInside ihRest =>
      rw [clusters, clusters, List.length_append, List.length_append, List.length_cons,
        List.length_cons, ihInside, ihRest]

theorem Follows.of_cons {v w : LocalVertex} {k k' : Cluster} {inside inside' rest rest' : Forest}
    (h : (cons v k inside rest).Follows φ (cons w k' inside' rest'))
    (hlen : inside'.clusters.length = inside.clusters.length) :
    k'.id = φ k.id ∧ inside.Follows φ inside' ∧ rest.Follows φ rest' := by
  rw [Follows, clusters, clusters, List.map_append, List.map_append] at h
  obtain ⟨hfirst, hrest⟩ := List.append_inj h (by simp [hlen])
  obtain ⟨hk, hinside⟩ := List.cons.inj hfirst
  exact ⟨hk, hinside, hrest⟩

/-- A walk through a copied forest. -/
theorem transcribes_clone {config : Config} {f f' : Forest} (hs : ∀ n ∈ f.nodes, n.Sound config)
    {names : Renaming} (hnames : ∀ e ∈ f.entries, ∃ w, names.handle? e.1 = some w)
    {next next' : Nat} {state state' : σ}
    (hrun : f.clone cloner names next state = ((f', next'), state')) (hφ : f.Follows φ f') :
    Transcribes (WalkStep.copied cloner φ) (f.walk filled) state (f'.walk filled) state' := by
  induction f generalizing f' names next next' state state' with
  | nil =>
      obtain ⟨hout, rfl⟩ := Prod.mk.inj hrun
      obtain ⟨rfl, rfl⟩ := Prod.mk.inj hout
      exact transcribes_nil ..
  | cons v k inside rest ihInside ihRest =>
      obtain ⟨hk, hin, hrest⟩ := forall_nodes_cons.mp hs
      have hstored : k.storage.Sound := hk.storage
      obtain ⟨w, storage, inner, state1, inside', next1, state2, rest', next2, state3, -, hstorage,
        hcopies, hinside, hgrows, hout, -, hclone⟩ :=
        exists_clone_cons cloner hk hin hrest hnames next state
      have hasked := transcribes_cloneStorage cloner hstored Storage.blank_empty state
      rw [hstorage] at hasked
      have hinner : ∀ e ∈ inside.entries, ∃ w, inner.handle? e.1 = some w :=
        fun e he => hcopies.exists_handle? (hk.held e he)
      -- The cloner is done with this cluster before it goes inside, and then with what is inside.
      rw [hclone] at hrun
      obtain ⟨hresult, rfl⟩ := Prod.mk.inj hrun
      obtain ⟨rfl, rfl⟩ := Prod.mk.inj hresult
      obtain ⟨hid, hfollows, hfollows'⟩ := hφ.of_cons hgrows.copies.length_clusters
      have hcluster :
          WalkStep.copied cloner φ (.cluster k.id) state = (.cluster ⟨next⟩, state) := by
        show (WalkStep.cluster (φ k.id), state) = _
        rw [← hid]
      exact ((Transcribes.cons hcluster (hasked.steps φ)).append
        (ihInside hin hinner hinside hfollows)).append
        (ihRest hrest (fun e he => hnames e (List.mem_cons_of_mem _ he)) hout hfollows')

end Forest

namespace Branch

variable {σ : Type} {cloner : Cloner σ} {φ : ClusterId → ClusterId} {b b' : Branch}

/-- The clusters of the second branch are those that correspond to the
    clusters of the first, in the same order. -/
def Follows (φ : ClusterId → ClusterId) (b b' : Branch) : Prop :=
  b'.clusters.map Cluster.id = b.clusters.map (fun k => φ k.id)

theorem follows_iff : b.Follows φ b'
    ↔ b'.cluster.id = φ b.cluster.id ∧ b.inside.Follows φ b'.inside := by
  rw [Follows, clusters, clusters, List.map_cons, List.map_cons, List.cons.injEq]
  exact Iff.rfl

/-- A walk through a copied branch. -/
theorem transcribes_clone {config : Config} (hs : ∀ n ∈ b.nodes, n.Sound config) {into : Cluster}
    (hinto : into.storage.Blank) {next next' : Nat} {state state' : σ}
    (hrun : b.clone cloner next into state = ((b', next'), state')) (hφ : b.Follows φ b') :
    Transcribes (WalkStep.copied cloner φ) (b.walk filled true) state (b'.walk filled true)
      state' := by
  have hb : b.node.Sound config := hs _ b.node_mem_nodes
  have hstored : b.cluster.storage.Sound := hb.storage
  obtain ⟨hcopies, -⟩ := cloneStorage_spec cloner hstored hinto state
  have hasked := transcribes_cloneStorage cloner hstored hinto state
  generalize hstorage : cloneStorage cloner b.cluster.storage into.storage state = out1
    at hcopies hasked
  obtain ⟨⟨storage, names⟩, state1⟩ := out1
  generalize hinside : b.inside.clone cloner names next state1 = out2
  obtain ⟨⟨inside', next1⟩, state2⟩ := out2
  rw [clone_of cloner hstorage hinside] at hrun
  obtain ⟨hresult, rfl⟩ := Prod.mk.inj hrun
  obtain ⟨rfl, rfl⟩ := Prod.mk.inj hresult
  obtain ⟨-, hfollows⟩ := follows_iff.mp hφ
  exact (hasked.steps φ).append (Forest.transcribes_clone
    (fun n hn => hs n (Multiset.mem_cons_of_mem hn))
    (fun e he => hcopies.exists_handle? (hb.held e he)) hinside hfollows)

end Branch

end NestedGraph
