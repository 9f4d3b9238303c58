import NestedGraph.Proofs.Hierarchy
import NestedGraph.Proofs.Likeness
import NestedGraph.Proofs.Transcript
import Mathlib.Data.Set.Function

/-! # Mirror — a copy in step with its source

    A copy MIRRORS its source.  Clusters correspond one to one, and hang
    in each other in the same order.  In corresponding clusters the k-th
    vertex is a copy of the k-th, the k-th edge runs between the vertices
    that correspond to its ends and carries the same global edges, and
    every child hangs on the vertex that corresponds to the one it hung
    on.  Of the objects each is what the cloner made of the original, and
    the cloner was asked for each of them once, in the order of a walk. -/

namespace NestedGraph

variable {σ : Type}

/-! ## Entities and their copies -/

/-- The same slots are filled, each with what the cloner made of what was
    there, in some state.  In which state is told by a walk. -/
def CopiedSlots (cloner : Cloner σ) : List (Option TypedObject) → List (Option TypedObject) → Prop :=
  List.Forall₂ (Option.Rel (fun object copy => ∃ state, (cloner object state).1 = copy))

/-- The second vertex is a copy of the first. -/
structure VertexRecord.Mirrors (cloner : Cloner σ) (r r' : VertexRecord) : Prop where
  global : r'.global = r.global
  properties : r'.properties = r.properties
  objects : CopiedSlots cloner r.objects r'.objects

/-- The second global edge is a copy of the first. -/
structure CarriedEdge.Mirrors (cloner : Cloner σ) (x x' : CarriedEdge) : Prop where
  global : x'.global = x.global
  objects : CopiedSlots cloner x.objects x'.objects

/-- The second edge is a copy of the first, global edge by global edge. -/
structure EdgeRecord.Mirrors (cloner : Cloner σ) (r r' : EdgeRecord) : Prop where
  properties : r'.properties = r.properties
  carried : List.Forall₂ (CarriedEdge.Mirrors cloner) r.carried r'.carried

theorem copiedSlots_cloneSlots (cloner : Cloner σ) (slots : List (Option TypedObject)) (state : σ) :
    CopiedSlots cloner slots (cloneSlots cloner slots state).1 := by
  induction slots generalizing state with
  | nil => exact .nil
  | cons slot rest ih =>
      cases slot with
      | none => exact .cons .none (ih state)
      | some object => exact .cons (.some ⟨state, rfl⟩) (ih (cloner object state).2)

theorem VertexRecord.Copies.mirrors {cloner : Cloner σ} {r r' : VertexRecord}
    (h : r.Copies cloner r') : r.Mirrors cloner r' := by
  obtain ⟨state, rfl⟩ := h
  exact ⟨rfl, rfl, copiedSlots_cloneSlots cloner r.objects state⟩

theorem mirrors_cloneCarried (cloner : Cloner σ) (carried : List CarriedEdge) (state : σ) :
    List.Forall₂ (CarriedEdge.Mirrors cloner) carried (cloneCarried cloner carried state).1 := by
  induction carried generalizing state with
  | nil => exact .nil
  | cons x rest ih =>
      exact .cons ⟨rfl, copiedSlots_cloneSlots cloner x.objects state⟩
        (ih (cloneSlots cloner x.objects state).2)

theorem Link.Copies.mirrors {cloner : Cloner σ} {names : Renaming} {l l' : Link}
    (h : l.Copies cloner names l') : l.record.Mirrors cloner l'.record := by
  obtain ⟨-, -, state, hr⟩ := h
  rw [hr]
  exact ⟨rfl, mirrors_cloneCarried cloner l.record.carried state⟩

/-! ## Clusters and their copies -/

namespace Tree

/-- The vertex that has the same place, by slot, in another cluster. -/
def counterpart? (t : Tree) (c : ClusterId) (t' : Tree) (c' : ClusterId) (v : LocalVertex) :
    Option LocalVertex :=
  Renaming.handle? ((t.vertices c).zip (t'.vertices c')) v

/-- A cluster of the second tree has what the cluster of the first tree has
    that it corresponds to, in the same order. -/
structure MirrorsAt (cloner : Cloner σ) (φ : ClusterId → ClusterId) (t t' : Tree) (c : ClusterId) :
    Prop where
  /-- The k-th vertex is a copy of the k-th. -/
  vertices : List.Forall₂ (fun v v' => ∃ r r', t.vertexRecord c v = .ok r
    ∧ t'.vertexRecord (φ c) v' = .ok r' ∧ r.Mirrors cloner r') (t.vertices c) (t'.vertices (φ c))
  /-- The k-th edge is a copy of the k-th, between the vertices that correspond
      to its ends, in the order given. -/
  edges : List.Forall₂ (fun e e' => ∃ a b a' b' r r', t.endpoints? c e = some (a, b)
    ∧ t'.endpoints? (φ c) e' = some (a', b') ∧ t.counterpart? c t' (φ c) a = some a'
    ∧ t.counterpart? c t' (φ c) b = some b' ∧ t.edgeRecord c e = .ok r
    ∧ t'.edgeRecord (φ c) e' = .ok r' ∧ r.Mirrors cloner r') (t.edges c) (t'.edges (φ c))
  /-- All properties have the same values, the change flag among them. -/
  properties : ∀ type value,
    t'.clusterProperty type (φ c) = .ok value ↔ t.clusterProperty type c = .ok value
  /-- The i-th child corresponds to the i-th, and its vertex to the vertex. -/
  children : List.Forall₂ (fun entry entry' => t.counterpart? c t' (φ c) entry.1 = some entry'.1
    ∧ entry'.2 = φ entry.2) (t.children c) (t'.children (φ c))

/-- What is inside a cluster of the second tree is a copy of what is inside a
    cluster of the first tree. -/
structure Mirrors (cloner : Cloner σ) (φ : ClusterId → ClusterId) (t : Tree) (c : ClusterId)
    (t' : Tree) (c' : ClusterId) : Prop where
  layouts : t.config.compatible t'.config = true
  bijective : Set.BijOn φ {d | t.isAncestor c d = true} {d | t'.isAncestor c' d = true}
  top : φ c = c'
  parent : ∀ d, t.isAncestor c d = true → d ≠ c →
    ∃ p, t.parent? d = some p ∧ t.isAncestor c p = true ∧ t'.parent? (φ d) = some (φ p)
  clusters : ∀ d, t.isAncestor c d = true → t.MirrorsAt cloner φ t' d

end Tree

/-! ### From the lists of one storage -/

theorem forall₂_map_of_mem {α β γ δ : Type} {R : α → β → Prop} {S : γ → δ → Prop} {f : α → γ}
    {g : β → δ} {l : List α} {l' : List β} (h : List.Forall₂ R l l')
    (himp : ∀ a ∈ l, ∀ b ∈ l', R a b → S (f a) (g b)) : List.Forall₂ S (l.map f) (l'.map g) := by
  induction h with
  | nil => exact .nil
  | cons hr _ ih =>
      refine .cons (himp _ (List.mem_cons_self ..) _ (List.mem_cons_self ..) hr) (ih ?_)
      exact fun a ha b hb => himp a (List.mem_cons_of_mem _ ha) b (List.mem_cons_of_mem _ hb)

/-- The children of a copied forest are the copies of its children, each on
    the new handle of its vertex. -/
theorem Forest.Copies.follows_entries {cloner : Cloner σ} {φ : ClusterId → ClusterId}
    {names : Renaming} {f f' : Forest} (h : f.Copies cloner names f') (hφ : f.Follows φ f') :
    List.Forall₂ (fun entry entry' => names.handle? entry.1 = some entry'.1
      ∧ entry'.2 = φ entry.2) f.entries f'.entries := by
  induction h with
  | nil => exact .nil
  | cons hv _ _ hin _ _ ih =>
      obtain ⟨hk, -, hrest⟩ := hφ.of_cons hin.length_clusters
      exact .cons ⟨hv, hk⟩ (ih hrest)

namespace Tree

variable {cloner : Cloner σ} {φ : ClusterId → ClusterId} {t t' : Tree}

theorem endpoints?_of_find? {c : ClusterId} {b : Branch} (hb : t.find? c = some b) {e : LocalEdge}
    {l : Link} (hl : b.cluster.storage.link? e = some l) :
    t.endpoints? c e = some (l.first, l.second) := by
  rw [endpoints?, storage?, hb, Option.map_some, Option.bind_some, Storage.endpoints?, hl]
  rfl

theorem clusterProperty_of_find? {c : ClusterId} {b : Branch} (hb : t.find? c = some b)
    (type : AttributeType) :
    t.clusterProperty type c = t.config.cluster.read type b.cluster.properties := by
  rw [clusterProperty, require_of_find? hb, ok_bind]

/-- Where one cluster is a copy of another, their content is in step. -/
theorem mirrorsAt_of_copies (hconfig : t.config.compatible t'.config = true) {names : Renaming}
    {c : ClusterId} {b b' : Branch} (hb : t.find? c = some b) (hb' : t'.find? (φ c) = some b')
    (h : b.Copies cloner names b') (hφ : b.Follows φ b') : t.MirrorsAt cloner φ t' c := by
  -- New handles were given in the order of the slots, so they are where `counterpart?` looks.
  have hcounterpart : ∀ {v w}, names.handle? v = some w → t.counterpart? c t' (φ c) v = some w := by
    intro v w hv
    rw [counterpart?, vertices_of_find? hb, vertices_of_find? hb', ← h.storage.named]
    exact hv
  obtain ⟨-, hfollows⟩ := Branch.follows_iff.mp hφ
  refine ⟨?_, ?_, fun type value => ?_, ?_⟩
  · rw [vertices_of_find? hb, vertices_of_find? hb']
    refine forall₂_map_of_mem h.storage.vertices ?_
    rintro ⟨v, r⟩ hr ⟨v', r'⟩ hr' hcopy
    exact ⟨r, r', vertexRecord_of_find? hb (SlotStore.mem_entries.mp hr),
      vertexRecord_of_find? hb' (SlotStore.mem_entries.mp hr'), hcopy.mirrors⟩
  · have hlinks : List.Forall₂ (fun entry entry' => Link.Copies cloner names entry.2 entry'.2)
        b.cluster.storage.edges.entries b'.cluster.storage.edges.entries :=
      List.forall₂_map_left_iff.mp (List.forall₂_map_right_iff.mp h.storage.edges)
    rw [edges_of_find? hb, edges_of_find? hb']
    refine forall₂_map_of_mem hlinks ?_
    rintro ⟨e, l⟩ hl ⟨e', l'⟩ hl' hcopy
    have hl : b.cluster.storage.link? e = some l := SlotStore.mem_entries.mp hl
    have hl' : b'.cluster.storage.link? e' = some l' := SlotStore.mem_entries.mp hl'
    exact ⟨l.first, l.second, l'.first, l'.second, l.record, l'.record,
      endpoints?_of_find? hb hl, endpoints?_of_find? hb' hl', hcounterpart hcopy.1,
      hcounterpart hcopy.2.1, edgeRecord_of_find? hb hl, edgeRecord_of_find? hb' hl',
      hcopy.mirrors⟩
  · obtain ⟨-, -, htypes, -⟩ := Config.compatible_iff.mp hconfig
    rw [clusterProperty_of_find? hb, clusterProperty_of_find? hb', h.properties]
    exact Layout.read_eq_ok_iff_of_types htypes.symm
  · rw [children_of_find? hb, children_of_find? hb']
    exact (h.inside.follows_entries hfollows).imp
      (fun _ _ hentry => ⟨hcounterpart hentry.1, hentry.2⟩)

/-! ### All clusters of a branch -/

/-- A list without repetitions is mapped to any list of its length. -/
theorem exists_map_eq {l l' : List ClusterId} (hl : l.Nodup) (hlen : l'.length = l.length) :
    ∃ φ : ClusterId → ClusterId, l' = l.map φ := by
  induction l generalizing l' with
  | nil => exact ⟨id, List.length_eq_zero_iff.mp hlen⟩
  | cons c rest ih =>
      obtain ⟨d, rest', rfl⟩ := List.exists_cons_of_length_eq_add_one hlen
      obtain ⟨hc, hrest⟩ := List.nodup_cons.mp hl
      obtain ⟨φ, rfl⟩ := ih hrest (Nat.succ.inj hlen)
      refine ⟨Function.update φ c d, ?_⟩
      rw [List.map_cons, Function.update_self]
      refine congrArg _ (List.map_congr_left (fun a ha => ?_))
      rw [Function.update_of_ne]
      rintro rfl
      exact hc ha

/-- The clusters of a copy can be told apart, so each corresponds to one. -/
theorem exists_follows {names : Renaming} {b b' : Branch} (hb : b.ids.Nodup)
    (h : b.Copies cloner names b') : ∃ φ, b.Follows φ b' := by
  rw [Branch.ids_eq_clusters] at hb
  have hlen : (b'.clusters.map Cluster.id).length = (b.clusters.map Cluster.id).length := by
    rw [List.length_map, List.length_map, Branch.clusters, Branch.clusters, List.length_cons,
      List.length_cons, h.inside.length_clusters]
  obtain ⟨φ, hφ⟩ := exists_map_eq hb hlen
  exact ⟨φ, hφ.trans List.map_map⟩

/-- Every cluster of a copied forest has its copy where it corresponds to. -/
theorem exists_copy (hs : t.Sound) (hs' : t'.Sound) {names : Renaming} {f f' : Forest}
    (h : f.Copies cloner names f') (hφ : f.Follows φ f')
    (hf : ∀ entry ∈ f.branches, t.find? entry.2.cluster.id = some entry.2)
    (hf' : ∀ entry ∈ f'.branches, t'.find? entry.2.cluster.id = some entry.2) {n : Node}
    (hn : n ∈ f.nodes) :
    ∃ b b' inner, b.node = n ∧ t.find? n.id = some b ∧ t'.find? (φ n.id) = some b'
      ∧ b.Copies cloner inner b' ∧ b.Follows φ b' := by
  induction h with
  | nil => exact absurd hn (Multiset.notMem_zero n)
  | @cons names inner v w k k' inside inside' rest rest' hv hk hp hin hrest ihInside ihRest =>
      -- What is inside a cluster has handles of its own, so `names` is another list there.
      obtain ⟨hid, hφin, hφrest⟩ := hφ.of_cons hin.length_clusters
      have hb := hf (v, ⟨k, inside⟩) (List.mem_cons_self ..)
      have hb' := hf' (w, ⟨k', inside'⟩) (List.mem_cons_self ..)
      rw [Forest.nodes, Multiset.mem_cons, Multiset.mem_add] at hn
      rcases hn with rfl | hn | hn
      · have hfind : t'.find? (φ k.id) = some ⟨k', inside'⟩ := by
          rw [← hid]
          exact hb'
        exact ⟨_, _, inner, rfl, hb, hfind, ⟨hk, hp, hin⟩, Branch.follows_iff.mpr ⟨hid, hφin⟩⟩
      · exact ihInside hφin (hs.find?_of_mem_inside hb) (hs'.find?_of_mem_inside hb') hn
      · exact ihRest hφrest (fun e he => hf e (List.mem_cons_of_mem _ he))
          (fun e he => hf' e (List.mem_cons_of_mem _ he)) hn

theorem exists_copy_branch (hs : t.Sound) (hs' : t'.Sound) {names : Renaming} {b b' : Branch}
    (h : b.Copies cloner names b') (hb : t.find? b.cluster.id = some b)
    (hb' : t'.find? b'.cluster.id = some b') (hφ : b.Follows φ b') {n : Node} (hn : n ∈ b.nodes) :
    ∃ d d' inner, d.node = n ∧ t.find? n.id = some d ∧ t'.find? (φ n.id) = some d'
      ∧ d.Copies cloner inner d' ∧ d.Follows φ d' := by
  obtain ⟨htop, hfollows⟩ := Branch.follows_iff.mp hφ
  rcases Multiset.mem_cons.mp hn with rfl | hn
  · have hfind : t'.find? (φ b.cluster.id) = some b' := by
      rw [← htop]
      exact hb'
    exact ⟨b, b', names, rfl, hb, hfind, h, hφ⟩
  · exact exists_copy hs hs' h.inside hfollows (hs.find?_of_mem_inside hb)
      (hs'.find?_of_mem_inside hb') hn

/-- The clusters of two branches correspond one to one. -/
theorem bijOn_of_follows {b b' : Branch} (hb' : b'.ids.Nodup) (hφ : b.Follows φ b') :
    Set.BijOn φ {d | d ∈ b.ids} {d | d ∈ b'.ids} := by
  have hlist : b'.clusters.map Cluster.id = (b.clusters.map Cluster.id).map φ :=
    hφ.trans List.map_map.symm
  rw [Branch.ids_eq_clusters, hlist] at hb'
  rw [Branch.ids_eq_clusters, Branch.ids_eq_clusters, hlist]
  refine ⟨fun d hd => ?_, fun d hd e he heq => ?_, fun d hd => ?_⟩
  · exact List.mem_map_of_mem hd
  · exact List.inj_on_of_nodup_map hb' hd he heq
  · exact List.mem_map.mp hd

/-- A copied branch mirrors its source. -/
theorem mirrors_of_copies (hs : t.Sound) (hs' : t'.Sound)
    (hconfig : t.config.compatible t'.config = true) {names : Renaming} {b b' : Branch}
    (hb : t.find? b.cluster.id = some b) (hb' : t'.find? b'.cluster.id = some b')
    (h : b.Copies cloner names b') (hφ : b.Follows φ b') :
    t.Mirrors cloner φ b.cluster.id t' b'.cluster.id := by
  have hmem : ∀ {d}, t.isAncestor b.cluster.id d = true ↔ d ∈ b.ids :=
    hs.isAncestor_iff_mem_ids hb
  have hmem' : ∀ {d}, t'.isAncestor b'.cluster.id d = true ↔ d ∈ b'.ids :=
    hs'.isAncestor_iff_mem_ids hb'
  have hat : ∀ n ∈ b.nodes, t.MirrorsAt cloner φ t' n.id := by
    intro n hn
    obtain ⟨d, d', inner, rfl, hd, hd', hcopies, hfollows⟩ :=
      exists_copy_branch hs hs' h hb hb' hφ hn
    exact mirrorsAt_of_copies hconfig hd hd' hcopies hfollows
  obtain ⟨htop, -⟩ := Branch.follows_iff.mp hφ
  refine ⟨hconfig, ?_, htop.symm, fun d hd hne => ?_, fun d hd => ?_⟩
  · simp only [hmem, hmem']
    exact bijOn_of_follows (hs'.distinct.nodup_branch hb') hφ
  · obtain ⟨n, hn, v, he⟩ := Branch.exists_parent (hmem.mp hd) hne
    have hnode : n ∈ t.nodes := Multiset.mem_of_le (nodes_le_of_find? hb) hn
    have hchild : (v, d) ∈ t.children n.id := by
      rw [hs.distinct.children_of_mem hnode]
      exact he
    -- Its copy hangs in the copy of its parent, since the children are in step.
    obtain ⟨⟨w, e⟩, hchild', -, rfl⟩ := exists_of_forall₂ (hat n hn).children.flip hchild
    refine ⟨n.id, ?_, hmem.mpr (Multiset.mem_map_of_mem Node.id hn), ?_⟩
    · exact hs.distinct.around_iff.mpr ⟨v, hchild⟩
    · exact hs'.distinct.around_iff.mpr ⟨w, hchild'⟩
  · obtain ⟨n, hn, rfl⟩ := Multiset.mem_map.mp (hmem.mp hd)
    exact hat n hn

theorem visitAll_of_find? {c : ClusterId} {b : Branch} (hb : t.find? c = some b)
    (recursive : Bool) : t.visitAll c recursive = .ok (b.walk filled recursive) := by
  rw [visitAll, require_of_find? hb]
  rfl

end Tree

/-! ## Copies that were made -/

/-- A copy mirrors its source, and a walk through it is the walk through the
    source as the cloner answers it. -/
theorem Graph.mirrors_copyInto {source g g' : Graph} (hs : source.tree.Sound) (hg : g.tree.Sound)
    {c into : ClusterId} {cloner : Cloner σ} {state state' : σ}
    (h : source.copyInto c g into cloner state = (.ok g', state')) :
    ∃ φ, source.tree.Mirrors cloner φ c g'.tree into
      ∧ ∃ steps steps', source.tree.visitAll c true = .ok steps
        ∧ g'.tree.visitAll into true = .ok steps'
        ∧ steps.mapM (WalkStep.copied cloner φ) state = (steps', state') := by
  have hbecomes := Graph.becomes_copyInto hs hg h
  obtain ⟨b, place, hcopyable, hreplace, -⟩ := Graph.of_copyInto h
  obtain ⟨hcompat, hb, hplace, -⟩ := Tree.of_copyable hcopyable
  obtain rfl := Tree.id_of_find? hb
  obtain rfl := Tree.id_of_find? hplace
  obtain ⟨names, hgrows⟩ := hs.grows cloner hcopyable state
  rw [Tree.replaceContent_eq] at hreplace
  generalize hrun : b.clone cloner g.tree.nextClusterId place.cluster.cleared state = out
    at hgrows hreplace
  obtain ⟨⟨b', next⟩, state''⟩ := out
  obtain ⟨htree, rfl⟩ := Prod.mk.inj hreplace
  have hid : b'.cluster.id = place.cluster.id := hgrows.id
  have hb' : g'.tree.find? b'.cluster.id = some b' := by
    rw [← htree]
    exact hg.distinct.find?_replaced hplace hid next
  have hconfig : source.tree.config.compatible g'.tree.config = true := by
    rw [hbecomes.config]
    exact hcompat
  have hcopies : b.Copies cloner names b' := hgrows.copies
  obtain ⟨φ, hφ⟩ := Tree.exists_follows (hs.distinct.nodup_branch hb) hcopies
  have hwalk := Branch.transcribes_clone (fun n hn => hs.of_find? hb n hn) (Storage.blank_clear _)
    hrun hφ
  rw [← hid]
  exact ⟨φ, Tree.mirrors_of_copies hs hbecomes.sound hconfig hb hb' hcopies hφ,
    b.walk filled true, b'.walk filled true, Tree.visitAll_of_find? hb true,
    Tree.visitAll_of_find? hb' true, hwalk⟩

namespace Workspace

/-- **FAITHFUL COPIES**: whatever was done before, a copy that succeeds mirrors
    its source.  A walk through the copy finds what the cloner made of the
    objects that a walk through the source finds, asked for each of them
    once and in that order, each time in the state that it was left in. -/
theorem mirrors_run (operations : List Operation) {number target : Nat} {m k : Member}
    (hm : (empty.run operations).members[number]? = some m)
    (hk : (empty.run operations).members[target]? = some k) {c into : ClusterId}
    {cloner : Cloner Nat} {w' : Workspace} {reply : Reply}
    (hstep : (empty.run operations).step (.copyInto number c target into cloner)
      = (w', .ok reply)) :
    ∃ k', w'.members[target]? = some k' ∧ ∃ φ, m.tree.Mirrors cloner φ c k'.tree into
      ∧ ∃ steps steps', m.tree.visitAll c true = .ok steps
        ∧ k'.tree.visitAll into true = .ok steps'
        ∧ steps.mapM (WalkStep.copied cloner φ) (empty.run operations).serial
          = (steps', w'.serial) := by
  have hw := sound_run operations
  obtain ⟨ids, hs⟩ := hw.exists_graph? hm
  obtain ⟨ids', hg⟩ := hw.exists_graph? hk
  obtain ⟨g', serial, hcopy, rfl⟩ := exists_copyInto hw hs hg hstep
  obtain ⟨φ, hmirrors, hwalk⟩ := Graph.mirrors_copyInto (hw.tree hs) (hw.tree hg) hcopy
  refine ⟨{ k with tree := g'.tree }, ?_, φ, hmirrors, hwalk⟩
  show ((empty.run operations).put target g').members[target]? = _
  rw [put_of_member hk]
  exact List.getElem?_set_self (List.getElem?_eq_some_iff.mp hk).1

/-- Objects of this type are passed through a cloner below. -/
def badge : AttributeType := ⟨"Badge", .unit, 0⟩

/-- The copy of a tree with a slot that was used twice, an edge and a child; the
    cloner numbers the objects that it makes. -/
theorem mirrors_nested :
    let operations := [Operation.newGraph (.declared [.object badge]) .fresh,
      .change 0 (.addCluster Tree.rootId), .change 0 (.addVertex Tree.rootId),
      .change 0 (.addVertex Tree.rootId), .change 0 (.removeVertex Tree.rootId ⟨1, 0⟩),
      .change 0 (.addVertex Tree.rootId), .change 0 (.addEdge Tree.rootId ⟨1, 1⟩ ⟨2, 0⟩),
      .change 0 (.addVertex ⟨1⟩), .placeObject 0 ⟨1⟩ (.localVertex ⟨0, 0⟩) badge .unit,
      .placeObject 0 Tree.rootId (.localEdge ⟨0, 0⟩) badge .unit,
      .newGraph (.sharedWith 0) .fresh]
    let cloner : Cloner Nat := fun object serial =>
      ({ object with serial := serial + 1 }, serial + 1)
    let w := empty.run operations
    ∃ m k' w', w.members[0]? = some m
      ∧ m.tree.vertices Tree.rootId = [⟨0, 0⟩, ⟨1, 1⟩, ⟨2, 0⟩]
      ∧ m.tree.children Tree.rootId = [(⟨0, 0⟩, ⟨1⟩)] ∧ m.tree.edges Tree.rootId = [⟨0, 0⟩]
      ∧ w.step (.copyInto 0 Tree.rootId 1 Tree.rootId cloner) = (w', .ok .done)
      ∧ w'.members[1]? = some k' ∧ w.serial = 2 ∧ w'.serial = 4
      ∧ ∃ φ, m.tree.Mirrors cloner φ Tree.rootId k'.tree Tree.rootId
        ∧ ∃ steps steps', m.tree.visitAll Tree.rootId true = .ok steps
          ∧ k'.tree.visitAll Tree.rootId true = .ok steps'
          ∧ steps.mapM (WalkStep.copied cloner φ) w.serial = (steps', w'.serial) := by
  intro operations cloner w
  have hm : ∃ m ∈ w.members[0]?, m.tree.vertices Tree.rootId = [⟨0, 0⟩, ⟨1, 1⟩, ⟨2, 0⟩]
      ∧ m.tree.children Tree.rootId = [(⟨0, 0⟩, ⟨1⟩)]
      ∧ m.tree.edges Tree.rootId = [⟨0, 0⟩] := by decide +kernel
  have hk : ∃ k ∈ w.members[1]?, k.tree.vertices Tree.rootId = [] := by decide +kernel
  have hreply : (w.step (.copyInto 0 Tree.rootId 1 Tree.rootId cloner)).2 = .ok .done := by
    decide +kernel
  have hserial : w.serial = 2
      ∧ (w.step (.copyInto 0 Tree.rootId 1 Tree.rootId cloner)).1.serial = 4 := by decide +kernel
  obtain ⟨m, hm, hvertices, hchildren, hedges⟩ := hm
  obtain ⟨k, hk, -⟩ := hk
  have hstep : w.step (.copyInto 0 Tree.rootId 1 Tree.rootId cloner)
      = ((w.step (.copyInto 0 Tree.rootId 1 Tree.rootId cloner)).1, .ok .done) := by
    rw [← hreply]
  obtain ⟨k', hk', hcopy⟩ := mirrors_run operations hm hk hstep
  exact ⟨m, k', _, hm, hvertices, hchildren, hedges, hstep, hk', hserial.1, hserial.2, hcopy⟩

end Workspace

end NestedGraph
