import NestedGraph.Proofs.Aggregation
import NestedGraph.Proofs.Persistence

/-! # Handles — what stays valid through an operation

    A handle belongs to one cluster, and stays with what it was given out
    for.  A vertex keeps its handle as long as it is in the cluster, an
    edge as long as anything runs between its two ends.  Slots that are
    freed are taken again, within one and the same operation even, but
    under the next generation: a handle that is given out was not valid
    before. -/

namespace NestedGraph

/-! ## Storages -/

namespace Storage

variable {s s' : Storage} {e : LocalEdge}

/-- An edge keeps its handle and its ends, or there is none between its ends
    any more. -/
def KeepsEdges (s s' : Storage) : Prop :=
  ∀ e l, s.link? e = some l →
    (∃ l', s'.link? e = some l' ∧ l'.first = l.first ∧ l'.second = l.second)
      ∨ s'.link? e = none ∧ ∀ k m, s'.link? k = some m → m.ends ≠ l.ends

theorem Persists.keepsEdges (h : s.Persists s') : s.KeepsEdges s' :=
  fun e l hl => Or.inl (h.edge e l hl)

/-- Links that are attached after edges went bring back none of these. -/
theorem Thinned.keepsEdges_attachLinks (h : s.Thinned s') (hs : s.Sound) (hs' : s'.Listed)
    {links : List Link} (hnew : ∀ x ∈ links, ∀ e l, s.link? e = some l → x.ends = l.ends →
      ∃ l', s'.link? e = some l') : s.KeepsEdges (s'.attachLinks links) := by
  intro e l hl
  rcases h.freed e (Or.inl ⟨l, hl⟩) with ⟨l', hl'⟩ | hfree
  · obtain ⟨l0, hl0, hfirst, hsecond, -⟩ := h.back e l' hl'
    obtain rfl := Option.some.inj (hl.symm.trans hl0)
    obtain ⟨l'', hl'', hfirst', hsecond'⟩ := (persists_attachLinks hs' links).edge e l' hl'
    exact Or.inl ⟨l'', hl'', hfirst'.trans hfirst, hsecond'.trans hsecond⟩
  · have hgone : s'.link? e = none := hfree.outdated.get?
    refine Or.inr ⟨(outdated_attachLinks hfree.outdated links).get?, fun k m hm hends => ?_⟩
    have hdead : ¬ ∃ l', s'.link? e = some l' := by
      rintro ⟨l', hl'⟩
      exact nomatch hgone.symm.trans hl'
    rcases of_link?_attachLinks hs' hm with ⟨l', hl', hfirst, hsecond⟩ | ⟨x, hx, hsame⟩
    · -- An edge that was there before has other ends.
      obtain ⟨l0, hl0, hfirst0, hsecond0, -⟩ := h.back k l' hl'
      have hback : l0.ends = l.ends := by
        rw [← hends, Link.ends, Link.ends, hfirst, hsecond, hfirst0, hsecond0]
      obtain rfl := hs.single k l0 e l hl0 hl hback
      exact hdead ⟨l', hl'⟩
    · exact hdead (hnew x hx e l hl (hsame.symm.trans hends))

theorem Thinned.keepsEdges (h : s.Thinned s') (hs : s.Sound) (hs' : s'.Listed) :
    s.KeepsEdges s' := by
  have hnone : ∀ x ∈ ([] : List Link), ∀ e l, s.link? e = some l → x.ends = l.ends →
      ∃ l', s'.link? e = some l' := fun _ hx => absurd hx List.not_mem_nil
  exact h.keepsEdges_attachLinks hs hs' hnone

/-- The handle that comes of attaching is that of the edge between the two
    vertices, or it was dead. -/
theorem link?_attachHandle (hs : s.Listed) (a b : LocalVertex) (properties : List Value)
    (carried : List CarriedEdge) :
    (∃ l, (s.attach a b properties carried).link? (s.attachHandle a b) = some l ∧ l.ends = s(a, b))
      ∧ (s.edgeBetween? a b = some (s.attachHandle a b)
        ∨ s.edgeBetween? a b = none ∧ s.link? (s.attachHandle a b) = none) := by
  rw [attach, attachHandle]
  cases he : s.edgeBetween? a b with
  | some e =>
      obtain ⟨l, hl, hends⟩ := edgeBetween?_of_some hs he
      refine ⟨⟨{ l with record := { l.record with carried := l.record.carried ++ carried } }, ?_,
        hends⟩, Or.inl rfl⟩
      show (s.modifyEdge e _).link? e = _
      rw [link?_modifyEdge, if_pos rfl, hl]
      rfl
  | none =>
      refine ⟨⟨⟨a, b, properties, carried⟩, ?_, rfl⟩,
        Or.inr ⟨rfl, SlotStore.get?_nextHandle hs.tidy⟩⟩
      show (s.addEdge a b ⟨properties, carried⟩).link? s.edges.nextHandle = _
      rw [link?_addEdge hs, if_pos rfl]

end Storage

/-! ## Clusters -/

namespace Node

variable {config : Config} {gone gone' : LocalVertex → Prop} {n n' : Node}

/-- What a cluster RETAINS when some vertices leave it. -/
structure Retains (gone : LocalVertex → Prop) (n n' : Node) : Prop where
  id : n'.id = n.id
  stays : ∀ v g, n.storage.global? v = some g → ¬ gone v → n'.storage.global? v = some g
  leaves : ∀ v, gone v → n'.storage.global? v = none
  edges : n.storage.KeepsEdges n'.storage

theorem Thinned.retains (h : n.Thinned config gone n') (hn : n.storage.Sound)
    (hn' : n'.storage.Listed) : n.Retains gone n' := by
  refine ⟨h.id, fun v g hg hstay => ?_, fun v hv => ?_, h.edges.keepsEdges hn hn'⟩
  · rw [Storage.global?, h.kept v hstay]
    exact hg
  · rw [Storage.global?, h.lost v hv]
    rfl

theorem retains_of_persists (hid : n'.id = n.id) (h : n.storage.Persists n'.storage) :
    n.Retains (fun _ => False) n' :=
  ⟨hid, fun v g hg _ => h.vertex v g hg, fun _ hv => hv.elim, h.keepsEdges⟩

theorem Retains.congr (h : n.Retains gone n') (heq : ∀ v, gone v ↔ gone' v) :
    n.Retains gone' n' := by
  rwa [← funext (fun v => propext (heq v))]

end Node

/-! ## The clusters of a move -/

namespace Tree

variable {t t' : Tree} {b inner : Branch} {v cv : LocalVertex} {record : VertexRecord}
  {routes : Routes} {gone gone' : ClusterId → LocalVertex → Prop} {c : ClusterId}

/-- The edges that are attached where the vertex leaves end at vertices that
    stay, so an edge with the same ends was not at the vertex. -/
theorem Inward.keepsEdges_lowered (hs : t.Sound) (h : t.Inward b inner v cv record) :
    b.node.storage.KeepsEdges (b.lowered t.config v cv).storage := by
  have hb := (hs.nodes _ (node_mem_of_find? h.around)).storage
  have hlowered : (b.lowered t.config v cv).storage
      = (b.cluster.storage.removeVertex v).attachLinks (b.outward v cv) := Node.storage_mark ..
  rw [hlowered]
  have hthin := b.cluster.storage.thinned_removeVertex v
  refine hthin.keepsEdges_attachLinks hb (hb.listed.removeVertex v)
    (fun x hx e l hl hends => ?_)
  -- What is attached ends at live vertices, and the one that left is dead.
  have hcv := (hs.nodes _ (node_mem_of_find? h.around)).held _ h.child
  obtain ⟨-, hfirst, hsecond, -⟩ := Branch.fit_outward hb hcv h.ne hx
  have hne : ∀ w, (b.cluster.storage.removeVertex v).hasVertex w = true → w ≠ v := by
    rintro w hw rfl
    obtain ⟨r, hr⟩ := Storage.hasVertex_iff.mp hw
    rw [Storage.vertex?_removeVertex, if_pos rfl] at hr
    exact nomatch hr
  have hv : v ∉ l.ends := by
    rw [← hends, Link.ends, Sym2.mem_iff]
    exact fun hor => hor.elim (fun heq => hne _ hfirst heq.symm) (fun heq => hne _ hsecond heq.symm)
  refine ⟨l, ?_⟩
  rw [Storage.link?_removeVertex, if_neg, hl]
  intro he
  obtain ⟨l', hl', hmem⟩ := (Storage.mem_incident hb.listed).mp he
  obtain rfl := Option.some.inj (hl.symm.trans hl')
  exact hv hmem

/-- Where the vertex arrives from outside, nothing is taken away. -/
theorem Inward.persists_sunk (hs : t.Sound) (h : t.Inward b inner v cv record) :
    inner.node.storage.Persists (b.sunk t.config inner v cv routes record).storage := by
  have hi := (hs.nodes _ (node_mem_of_find? h.within)).storage
  have hsunk : (b.sunk t.config inner v cv routes record).storage
      = (inner.cluster.storage.addVertex record).attachLinks
          (Branch.incoming (b.inward v cv) routes inner.nextVertex) := Node.storage_mark ..
  rw [hsunk]
  exact (Storage.persists_addVertex hi.vertices record).trans
    (Storage.persists_attachLinks (hi.addVertex record).listed _)

/-- The edges that are attached where the vertex arrives from inside all end
    at its new handle, so none of them was there before. -/
theorem Outward.keepsEdges_raised (hs : t.Sound) (h : t.Outward inner b cv v record) :
    b.node.storage.KeepsEdges (b.raised t.config inner cv v record).storage := by
  have hb := (hs.nodes _ (node_mem_of_find? h.around)).storage
  let withdrawn := b.cluster.storage.withdrawAt (GlobalEdge.touches (inner.travelling v)) cv
  let s' := withdrawn.addVertex record
  have hraised : (b.raised t.config inner cv v record).storage = s'.attachLinks
      (inner.left v b.nextVertex cv ++ b.lifted (inner.travelling v) b.nextVertex cv) :=
    Node.storage_mark ..
  have hs' : s'.Sound := (hb.withdrawAt _ cv).addVertex record
  have hthin : b.cluster.storage.Thinned s' :=
    (b.cluster.storage.thinned_withdrawAt _ cv).trans (Storage.thinned_of_edges rfl)
  rw [hraised]
  refine hthin.keepsEdges_attachLinks hb hs'.listed (fun x hx e l hl hends => ?_)
  have hfirst : x.first = b.nextVertex := by
    rcases List.mem_append.mp hx with hx | hx
    · obtain ⟨near, -, rfl⟩ := List.mem_map.mp hx
      rfl
    · obtain ⟨near, -, rfl⟩ := List.mem_map.mp hx
      rfl
  -- An edge of before cannot have ended at a vertex that was not there.
  have hmem : b.nextVertex ∈ l.ends := by
    rw [← hends, ← hfirst]
    exact Sym2.mem_mk_left ..
  obtain ⟨r, hr⟩ := Storage.hasVertex_iff.mp (hb.hasVertex_of_ends hl hmem)
  exact nomatch (SlotStore.get?_nextHandle hb.vertices).symm.trans hr

/-! ## Trees -/

/-- Every cluster that is there still retains what does not leave it. -/
def Retains (t t' : Tree) (gone : ClusterId → LocalVertex → Prop) : Prop :=
  ∀ n' ∈ t'.nodes, n'.id ∈ t.ids → ∃ n ∈ t.nodes, n.Retains (gone n.id) n'

theorem Retains.congr (h : t.Retains t' gone) (heq : ∀ d w, gone d w ↔ gone' d w) :
    t.Retains t' gone' := by
  intro n' hn' hlive
  obtain ⟨n, hn, hkeep⟩ := h n' hn' hlive
  exact ⟨n, hn, hkeep.congr (heq n.id)⟩

theorem Thinned.retains (h : t.Thinned t' gone) (hs : t.Sound) (hs' : t'.Sound) :
    t.Retains t' gone := by
  intro n' hn' _
  obtain ⟨n, hn, hthin⟩ := h n' hn'
  exact ⟨n, hn, hthin.retains (hs.nodes n hn).storage (hs'.nodes n' hn').storage.listed⟩

theorem Persists.retains (h : t.Persists t') (hd' : t'.Distinct) :
    t.Retains t' (fun _ _ => False) := by
  intro n' hn' hlive
  obtain ⟨n, hn, hid⟩ := Multiset.mem_map.mp hlive
  obtain ⟨n'', hn'', hid'', hkeep⟩ := h n hn
  obtain rfl := hd'.eq_of_id hn'' hn' (hid''.trans hid)
  exact ⟨n, hn, Node.retains_of_persists hid'' hkeep⟩

theorem retains_refl (t : Tree) : t.Retains t (fun _ _ => False) :=
  fun n hn _ => ⟨n, hn, Node.retains_of_persists rfl (.refl _)⟩

/-- A vertex leaves one cluster for another, and both retain their edges as
    far as they can. -/
theorem Handover.retains {giver taker giver' taker' : Node} {w nw : LocalVertex}
    (h : t.Handover t' giver taker giver' taker' w nw) (hd : t.Distinct)
    (hgiver : giver.storage.KeepsEdges giver'.storage)
    (htaker : taker.storage.KeepsEdges taker'.storage) :
    t.Retains t' (fun d u => d = giver.id ∧ u = w) := by
  intro n' hn' _
  obtain ⟨rest, hnodes, hnodes'⟩ := h.others
  rw [hnodes', Multiset.mem_cons, Multiset.mem_cons] at hn'
  rcases hn' with rfl | rfl | hn'
  · refine ⟨giver, h.giver_mem.1, h.giverId, fun u g hg hu => ?_, fun u hu => ?_, hgiver⟩
    · rw [Storage.global?, h.giverVertex, if_neg (fun heq => hu ⟨rfl, heq⟩)]
      exact hg
    · rw [Storage.global?, h.giverVertex, if_pos hu.2]
      rfl
  · have hne : taker.id ≠ giver.id := hd.id_ne_of_cons hnodes (Multiset.mem_cons_self ..)
    refine ⟨taker, h.taker_mem.1, h.takerId, fun u g hg _ => ?_,
      fun u hu => absurd hu.1 hne, htaker⟩
    -- The new handle was dead, so it is none of those that are to stay.
    have hlive : u ≠ nw := by
      rintro rfl
      rw [Storage.global?, h.fresh] at hg
      cases hg
    rw [Storage.global?, h.takerVertex, if_neg hlive]
    exact hg
  · have hmem : n' ∈ t.nodes := by
      rw [hnodes]
      exact Multiset.mem_cons_of_mem (Multiset.mem_cons_of_mem hn')
    have hne : n'.id ≠ giver.id := hd.id_ne_of_cons hnodes (Multiset.mem_cons_of_mem hn')
    exact ⟨n', hmem, (Node.retains_of_persists rfl (.refl _)).congr (by simp [hne])⟩

section Moves

variable {child : ClusterId} {result : Tree × LocalVertex}

theorem Sound.retains_moveIn (hs : t.Sound) (h : t.moveIn c v child = .ok result) :
    t.Retains result.1 (fun d w => d = c ∧ w = v) := by
  obtain ⟨b, inner, cv, record, routes, hin, rfl, -, -, heq, -⟩ := of_moveIn hs h
  rw [heq]
  exact (hin.handover hs routes).retains hs.distinct (hin.keepsEdges_lowered hs)
    (hin.persists_sunk hs).keepsEdges

theorem Sound.retains_moveOut (hs : t.Sound) (h : t.moveOut c v = .ok result) :
    t.Retains result.1 (fun d w => d = c ∧ w = v) := by
  have hbecomes := hs.becomes_moveOut h
  obtain ⟨b, inner, cv, record, hout, rfl, heq, -⟩ := of_moveOut hs h
  have hi := (hs.nodes _ (node_mem_of_find? hout.within)).storage
  have hthin := (inner.node.thinned_cut t.config v).mark
  have hdrained := (hbecomes.sound.nodes _ (heq ▸ (hout.handover hs).giver_mem.2)).storage.listed
  rw [heq]
  exact (hout.handover hs).retains hs.distinct (hthin.edges.keepsEdges hi hdrained)
    (hout.keepsEdges_raised hs)

end Moves

end Tree

namespace Graph

variable {g h : Graph} {command : Command} {reply : Reply}

/-- Whatever a command does, clusters retain what does not leave them. -/
theorem retains_perform (hs : g.tree.Sound) (hp : g.perform command = .ok (h, reply)) :
    g.tree.Retains h.tree (g.tree.Departs command) := by
  have hs' := (becomes_perform hs hp).sound
  cases hremoves : command.removes with
  | true => exact (thinned_perform hs hremoves hp).retains hs hs'
  | false =>
    cases hmoves : command.moves with
    | false =>
      have hstay : ∀ d w, False ↔ g.tree.Departs command d w := by
        cases command with
        | removeCluster | removeClusterOn | removeClusters | removeVertex | removeGlobalVertex =>
            exact absurd hremoves Bool.false_ne_true.symm
        | moveIn | moveInOn | moveOut => exact absurd hmoves Bool.false_ne_true.symm
        | _ => exact fun _ _ => Iff.rfl
      exact ((persists_perform hs hremoves hmoves hp).retains hs'.distinct).congr hstay
    | true =>
      cases command with
      | moveIn c v child =>
          obtain ⟨r, hr, rfl, -⟩ := of_moving hp
          exact hs.retains_moveIn hr
      | moveInOn c v place =>
          obtain ⟨r, hr, rfl, -⟩ := of_moving hp
          obtain ⟨child, -, hr⟩ := of_bind_eq_ok hr
          exact hs.retains_moveIn hr
      | moveOut c v =>
          obtain ⟨r, hr, rfl, -⟩ := of_moving hp
          exact hs.retains_moveOut hr
      | _ => exact absurd hmoves Bool.false_ne_true

/-- A copy into a tree takes edges from the clusters around the one that it
    replaces, and leaves all others alone. -/
theorem retains_copyInto {σ : Type} {source : Graph} {c into : ClusterId} {cloner : Cloner σ}
    {state state' : σ} (hsource : source.tree.Sound) (hs : g.tree.Sound)
    (hcopy : source.copyInto c g into cloner state = (.ok h, state')) {n' : Node}
    (hn' : n' ∈ h.tree.nodes) (hlive : n'.id ∈ g.tree.ids) (hne : n'.id ≠ into) :
    ∃ n ∈ g.tree.nodes, n.Retains (fun _ => False) n' := by
  have hs' := (becomes_copyInto hsource hs hcopy).sound
  obtain ⟨branch, place, hcopy, hreplace, -⟩ := of_copyInto hcopy
  obtain ⟨names, hgrows⟩ := hsource.grows cloner hcopy state
  obtain ⟨-, -, hplace, -⟩ := Tree.of_copyable hcopy
  obtain rfl := Tree.id_of_find? hplace
  obtain ⟨around, hnodes, hreplaced⟩ := hs.nodes_replaced hplace
  rw [Tree.replaceContent_eq] at hreplace
  have hmem := hn'
  rw [← (Prod.mk.inj hreplace).1, hreplaced _ _ hgrows.id, Multiset.mem_add] at hmem
  rcases hmem with hmem | hmem
  · -- The clusters of the copy are new, but for the one that it replaces.
    have hid := Multiset.mem_map_of_mem Node.id hmem
    rw [← Branch.ids, Branch.ids_eq, Multiset.mem_cons, hgrows.id] at hid
    rcases hid with hid | hid
    · exact absurd hid hne
    · exact absurd (hs.bound _ hlive) (Nat.not_lt.mpr (hgrows.bound _ hid).1)
  · let touching := GlobalEdge.touches place.globals
    have habove : n' ∈ (g.tree.withdrawAbove touching place.cluster.id).nodes :=
      hnodes ▸ Multiset.mem_add.mpr (Or.inr hmem)
    obtain ⟨n, hn, hthin⟩ := hs.distinct.thinned_withdrawAbove _ _ n' habove
    exact ⟨n, hn, hthin.retains (hs.nodes n hn).storage (hs'.nodes n' hn').storage.listed⟩

end Graph

/-! ## What is seen of a cluster -/

namespace Tree

variable {t t' : Tree} {n n' : Node} {c : ClusterId} {a b : LocalVertex} {gone : LocalVertex → Prop}

/-- What becomes of the handles of a cluster that some vertices leave. -/
structure KeepsHandles (t t' : Tree) (gone : LocalVertex → Prop) (c : ClusterId) : Prop where
  stays : ∀ v g, t.global? c v = some g → ¬ gone v → t'.global? c v = some g
  leaves : ∀ v, gone v → t'.global? c v = none
  /-- An edge goes when nothing runs between its ends any more. -/
  edges : ∀ e a b, t.endpoints? c e = some (a, b) →
    t'.endpoints? c e = if t'.aggregated c a b = [] then none else some (a, b)

theorem Sound.aggregated_eq_nil_iff (hs : t.Sound) (hn : n ∈ t.nodes) :
    t.aggregated n.id a b = [] ↔ ∀ k m, n.storage.link? k = some m → m.ends ≠ s(a, b) := by
  rw [← Multiset.coe_eq_zero, hs.coe_aggregated hn, Multiset.map_eq_zero, Multiset.filter_eq_nil]
  constructor
  · intro h k m hm hends
    obtain ⟨x, hx⟩ := List.exists_mem_of_ne_nil _ ((hs.nodes n hn).storage.filled k m hm)
    exact h _ (Storage.mem_load.mpr ⟨k, m, hm, rfl, hx⟩) hends
  · rintro h ⟨z, x⟩ hx hz
    obtain ⟨k, m, hm, hends, -⟩ := Storage.mem_load.mp hx
    exact h k m hm (hends.symm.trans hz)

theorem keepsHandles_of_retains (hs : t.Sound) (hs' : t'.Sound) (hn : n ∈ t.nodes)
    (hn' : n' ∈ t'.nodes) (h : n.Retains gone n') : t.KeepsHandles t' gone n.id := by
  have hglobal := hs.distinct.global?_of_mem hn
  have hglobal' := hs'.distinct.global?_of_mem hn'
  have hends' := hs'.distinct.endpoints?_of_mem hn'
  rw [h.id] at hglobal' hends'
  refine ⟨fun v g hg hstay => ?_, fun v hv => ?_, fun e a b he => ?_⟩
  · rw [hglobal']
    rw [hglobal] at hg
    exact h.stays v g hg hstay
  · rw [hglobal']
    exact h.leaves v hv
  · rw [hs.distinct.endpoints?_of_mem hn] at he
    obtain ⟨l, hl, heq⟩ := Option.map_eq_some_iff.mp he
    obtain ⟨rfl, rfl⟩ := Prod.mk.inj heq
    have hnil := hs'.aggregated_eq_nil_iff (a := l.first) (b := l.second) hn'
    rw [h.id] at hnil
    rw [hends']
    rcases h.edges e l hl with ⟨l', hl', hfirst, hsecond⟩ | ⟨hgone, hnone⟩
    · have hsame : l'.ends = s(l.first, l.second) := by
        rw [Link.ends, hfirst, hsecond]
      rw [if_neg (fun hempty => hnil.mp hempty e l' hl' hsame), Storage.endpoints?, hl',
        ← hfirst, ← hsecond]
      rfl
    · rw [if_pos (hnil.mpr hnone), Storage.endpoints?, hgone]
      rfl

theorem Retains.keepsHandles {gone : ClusterId → LocalVertex → Prop} (h : t.Retains t' gone)
    (hs : t.Sound) (hs' : t'.Sound) (hc : c ∈ t.ids) (hc' : c ∈ t'.ids) :
    t.KeepsHandles t' (gone c) c := by
  obtain ⟨n', hn', rfl⟩ := Multiset.mem_map.mp hc'
  obtain ⟨n, hn, hkeep⟩ := h n' hn' hc
  rw [hkeep.id]
  exact keepsHandles_of_retains hs hs' hn hn' hkeep

/-! ## Handles that are given out -/

/-- The cluster in which a command puts the vertex that it answers. -/
def vertexPlace? (t : Tree) : Command → Option ClusterId
  | .addCluster c => some c
  | .addVertex c => some c
  | .addVertexNamed c _ => some c
  | .moveIn _ _ child => some child
  | .moveInOn c _ place => t.childAt? c place
  | .moveOut c _ => t.parent? c
  | _ => none

/-- The cluster in which a command puts the edge that it answers, by the flag
    that comes with the answer: if the edge is not stored in the cluster
    itself, it is in the child that leads to its source. -/
def edgePlace? (t : Tree) (reply : Reply) : Command → Option ClusterId
  | .addEdge c _ _ => some c
  | .connect c source _ => match reply with
      | .placedEdge _ _ own =>
          if own then some c else (t.localVertex? c source true).bind (t.childAt? c)
      | _ => none
  | _ => none

end Tree

/-- The vertex in an answer. -/
def Reply.vertex? : Reply → Option LocalVertex
  | .subcluster _ v => some v
  | .vertex v _ => some v
  | .moved v => some v
  | _ => none

/-- The edge in an answer. -/
def Reply.edge? : Reply → Option LocalEdge
  | .edge e _ => some e
  | .placedEdge e _ _ => some e
  | _ => none

namespace Tree

variable {t t' : Tree} {c : ClusterId} {a b : LocalVertex}

/-- A handle in an answer is valid afterwards, and it was not before, unless
    what it stands for was there already. -/
structure Issues (t t' : Tree) (command : Command) (reply : Reply) : Prop where
  vertex : ∀ v, reply.vertex? = some v → ∃ d, t.vertexPlace? command = some d ∧ v ∈ t'.vertices d
    ∧ (v ∉ t.vertices d
      ∨ ∃ name, command = .addVertexNamed d name ∧ t.localVertex? d name true = some v)
  edge : ∀ e, reply.edge? = some e → ∃ d, t.edgePlace? reply command = some d
    ∧ ∃ a b, t'.Connects d e a b
      ∧ (t.edgeBetween? d a b = some e ∨ t.edgeBetween? d a b = none ∧ e ∉ t.edges d)

/-- A vertex that comes gets a handle that was not valid. -/
theorem Sound.issues_receive (hs : t.Sound) {branch : Branch} (hb : t.find? c = some branch)
    {r : VertexRecord} {nested : Option Branch} (hs' : (t.receive c r nested).Sound) :
    branch.nextVertex ∈ ((t.receive c r nested).mark c).vertices c
      ∧ branch.nextVertex ∉ t.vertices c := by
  obtain rfl := id_of_find? hb
  have hn := node_mem_of_find? hb
  have htidy := (hs.nodes _ hn).storage.vertices
  obtain ⟨rest, hrest⟩ := nodes_cons_of_mem hn
  have hmark := hs'.distinct.nodes_mark (hs.distinct.nodes_receive hrest r nested)
  have hmem := (hs'.distinct.mark branch.cluster.id).mem_vertices (u := branch.nextVertex)
    (hmark ▸ Multiset.mem_cons_self ..)
  rw [Node.id_mark, Node.storage_mark] at hmem
  constructor
  · refine hmem.mpr (Storage.hasVertex_iff.mpr ⟨r, ?_⟩)
    rw [Node.storage_receive, Storage.vertex?_addVertex htidy]
    exact if_pos rfl
  · intro hlive
    obtain ⟨r', hr'⟩ := Storage.hasVertex_iff.mp ((hs.distinct.mem_vertices hn).mp hlive)
    exact nomatch (SlotStore.get?_nextHandle htidy).symm.trans hr'

theorem Handover.issues {giver taker giver' taker' : Node} {w nw : LocalVertex}
    (h : t.Handover t' giver taker giver' taker' w nw) (hd : t.Distinct) (hd' : t'.Distinct) :
    nw ∈ t'.vertices taker.id ∧ nw ∉ t.vertices taker.id := by
  have hmem := hd'.mem_vertices (u := nw) h.taker_mem.2
  rw [h.takerId] at hmem
  rw [hmem, hd.mem_vertices h.taker_mem.1, Storage.hasVertex_iff, Storage.hasVertex_iff,
    h.takerVertex, if_pos rfl, h.fresh]
  exact ⟨h.live, fun ⟨r, hr⟩ => nomatch hr⟩

theorem Sound.issues_moveIn (hs : t.Sound) {v : LocalVertex} {child : ClusterId}
    {result : Tree × LocalVertex} (h : t.moveIn c v child = .ok result) :
    result.2 ∈ result.1.vertices child ∧ result.2 ∉ t.vertices child := by
  have hd' := (hs.becomes_moveIn h).sound.distinct
  obtain ⟨b, inner, cv, record, routes, hin, -, rfl, -, heq, hnv⟩ := of_moveIn hs h
  obtain ⟨t', nv⟩ := result
  obtain rfl : t' = _ := heq
  obtain rfl : nv = _ := hnv
  exact (hin.handover hs routes).issues hs.distinct hd'

theorem Sound.issues_moveOut (hs : t.Sound) {v : LocalVertex} {result : Tree × LocalVertex}
    (h : t.moveOut c v = .ok result) : ∃ d, t.parent? c = some d
      ∧ result.2 ∈ result.1.vertices d ∧ result.2 ∉ t.vertices d := by
  have hd' := (hs.becomes_moveOut h).sound.distinct
  obtain ⟨b, inner, cv, record, hout, rfl, heq, hnv⟩ := of_moveOut hs h
  obtain ⟨t', nv⟩ := result
  obtain rfl : t' = _ := heq
  obtain rfl : nv = _ := hnv
  have hchild := (hs.distinct.children_of_mem (node_mem_of_find? hout.around)).symm ▸ hout.child
  have hplace := hs.distinct.place?_eq_some_iff.mpr hchild
  exact ⟨b.cluster.id, congrArg (Option.map Prod.fst) hplace,
    (hout.handover hs).issues hs.distinct hd'⟩

section Issues

variable {command : Command} {reply : Reply} {d : ClusterId} {v : LocalVertex} {e : LocalEdge}

/-- A handle comes with a vertex. -/
theorem Issues.of_vertex (hvertex : reply.vertex? = some v) (hedge : reply.edge? = none)
    (hplace : t.vertexPlace? command = some d) (hv : v ∈ t'.vertices d)
    (hnew : v ∉ t.vertices d
      ∨ ∃ name, command = .addVertexNamed d name ∧ t.localVertex? d name true = some v) :
    t.Issues t' command reply := by
  refine ⟨fun w hw => ?_, fun e he => nomatch hedge.symm.trans he⟩
  obtain rfl := Option.some.inj (hvertex.symm.trans hw)
  exact ⟨d, hplace, hv, hnew⟩

/-- A handle comes with an edge. -/
theorem Issues.of_edge (hvertex : reply.vertex? = none) (hedge : reply.edge? = some e)
    (hplace : t.edgePlace? reply command = some d) (he : t'.Connects d e a b)
    (hnew : t.edgeBetween? d a b = some e ∨ t.edgeBetween? d a b = none ∧ e ∉ t.edges d) :
    t.Issues t' command reply := by
  refine ⟨fun w hw => (nomatch hvertex.symm.trans hw), fun k hk => ?_⟩
  obtain rfl := Option.some.inj (hedge.symm.trans hk)
  exact ⟨d, hplace, a, b, he, hnew⟩

/-- No handles come. -/
theorem Issues.of_none (hvertex : reply.vertex? = none) (hedge : reply.edge? = none) :
    t.Issues t' command reply :=
  ⟨fun _ hv => (nomatch hvertex.symm.trans hv), fun _ he => (nomatch hedge.symm.trans he)⟩

end Issues

end Tree

namespace Graph

variable {g h : Graph} {c : ClusterId} {a b v : LocalVertex} {command : Command} {reply : Reply}

/-- An edge that comes gets a handle that was not valid, and one between the
    same two vertices keeps its own. -/
theorem issues_putEdge (hs : g.tree.Sound) {branch : Branch} (hb : g.tree.find? c = some branch)
    (hab : g.Between c a b) (global : GlobalEdge) :
    (g.putEdge c a b global).tree.Connects c (branch.cluster.storage.attachHandle a b) a b
      ∧ (g.tree.edgeBetween? c a b = some (branch.cluster.storage.attachHandle a b)
        ∨ g.tree.edgeBetween? c a b = none
          ∧ branch.cluster.storage.attachHandle a b ∉ g.tree.edges c) := by
  obtain rfl := Tree.id_of_find? hb
  have hn := Tree.node_mem_of_find? hb
  have hlisted := (hs.nodes _ hn).storage.listed
  let f : Storage → Storage := fun s =>
    s.attach a b g.tree.config.edge.initialValues [g.tree.config.newCarried global]
  obtain ⟨rest, hrest⟩ := Tree.nodes_cons_of_mem hn
  have hd := (becomes_attach hs hab global).sound.distinct
  have hmark := hd.nodes_mark (hs.distinct.nodes_mapStorage hrest f)
  have hconnects := (hd.mark branch.cluster.id).connects_iff
    (e := branch.cluster.storage.attachHandle a b) (a := a) (b := b)
    (hmark ▸ Multiset.mem_cons_self ..)
  rw [Node.id_mark, Node.storage_mark] at hconnects
  obtain ⟨hlink, hbefore⟩ := branch.cluster.storage.link?_attachHandle hlisted a b
    g.tree.config.edge.initialValues [g.tree.config.newCarried global]
  refine ⟨hconnects.mpr hlink, ?_⟩
  have hbetween := hs.distinct.edgeBetween?_of_mem hn a b
  have hmem := hs.distinct.mem_edges (e := branch.cluster.storage.attachHandle a b) hn
  rw [show branch.node.id = branch.cluster.id from rfl] at hbetween hmem
  rw [hbetween, hmem]
  refine hbefore.imp id (And.imp id (fun hdead hlive => ?_))
  obtain ⟨l, hl⟩ := hlive
  exact nomatch hdead.symm.trans hl

/-- An edge between two global vertices goes to the cluster, or to the child
    that leads to the first of them. -/
theorem of_edgePlace_holder {holder : Branch} {source target : GlobalVertex}
    (h : g.edgePlace c source target = .ok (holder, a, b)) :
    holder.cluster.id = c
      ∨ (g.tree.localVertex? c source true).bind (g.tree.childAt? c) = some holder.cluster.id := by
  obtain ⟨branch, hb, h⟩ := of_bind_eq_ok h
  obtain ⟨a', ha, h⟩ := of_bind_eq_ok h
  obtain ⟨b', -, h⟩ := of_bind_eq_ok h
  obtain ⟨_, -, h⟩ := of_bind_eq_ok h
  obtain ⟨_, -, h⟩ := of_bind_eq_ok h
  have hfind := Tree.of_require hb
  split at h
  · obtain ⟨rfl, -⟩ := Prod.mk.inj (Except.ok.inj h)
    exact Or.inl (Tree.id_of_find? hfind)
  · split at h
    · exact nomatch h
    · rename_i child hchild
      obtain ⟨a'', -, h⟩ := of_bind_eq_ok h
      obtain ⟨b'', -, h⟩ := of_bind_eq_ok h
      split at h
      · exact nomatch h
      · obtain ⟨rfl, -⟩ := Prod.mk.inj (Except.ok.inj h)
        have hlocal : g.tree.localVertex? c source true = some a' := by
          rw [Tree.localVertex?, hfind]
          exact of_requireRepresentative ha
        have hat : g.tree.childAt? c a' = some child.cluster.id := by
          rw [Tree.childAt?, hfind]
          exact congrArg (Option.map _) hchild
        rw [hlocal]
        exact Or.inr hat

theorem issues_addVertexNamed (hs : g.tree.Sound) {name : GlobalVertex}
    (hp : g.perform (.addVertexNamed c name) = .ok (h, reply)) :
    g.tree.Issues h.tree (.addVertexNamed c name) reply := by
  obtain ⟨branch, hb, v, rfl, ⟨hv, htree⟩ | ⟨-, htree, rfl⟩⟩ := of_perform_addVertexNamed hp
  · rw [htree]
    have hn := Tree.node_mem_of_find? hb
    have hlive := Tree.Node.Sound.hasVertex_of_representative? (hs.nodes _ hn) hv
    have hmem := (hs.distinct.mem_vertices hn).mpr hlive
    rw [show branch.node.id = c from Tree.id_of_find? hb] at hmem
    have hfound : g.tree.localVertex? c name true = some v := by
      rw [Tree.localVertex?, hb]
      exact hv
    exact .of_vertex rfl rfl rfl hmem (Or.inr ⟨name, rfl, hfound⟩)
  · rw [htree]
    have hsound := (hs.becomes_receive c (g.tree.config.fits_newVertex name)).sound
    obtain ⟨hlive, hdead⟩ := hs.issues_receive hb hsound
    exact .of_vertex rfl rfl rfl hlive (Or.inl hdead)

theorem issues_connect (hs : g.tree.Sound) {source target : GlobalVertex}
    (hp : g.perform (.connect c source target) = .ok (h, reply)) :
    g.tree.Issues h.tree (.connect c source target) reply := by
  obtain ⟨holder, a, b, global, hplace, hfind, hab, -, htree, rfl⟩ := of_perform_connect hs hp
  rw [htree]
  have hissued := issues_putEdge hs hfind hab global
  refine .of_edge rfl rfl ?_ hissued.1 hissued.2
  show (if decide (holder.cluster.id = c) = true then some c else _) = _
  split
  · rename_i hown
    rw [of_decide_eq_true hown]
  · rename_i hown
    exact (of_edgePlace_holder hplace).resolve_left (fun heq => hown (decide_eq_true heq))

/-- The handles that a command answers were not valid before. -/
theorem issues_perform (hs : g.tree.Sound) (hp : g.perform command = .ok (h, reply)) :
    g.tree.Issues h.tree command reply := by
  cases command with
  | addCluster c =>
      obtain ⟨branch, hb, htree, rfl⟩ := of_perform_addCluster hp
      rw [htree]
      obtain ⟨hlive, hdead⟩ := hs.withNext.issues_receive hb (hs.receive_cluster c ⟨g.ids.next⟩)
      exact .of_vertex rfl rfl rfl hlive (Or.inl hdead)
  | addVertex c =>
      obtain ⟨branch, hb, htree, rfl⟩ := of_perform_addVertex hp
      rw [htree]
      obtain ⟨hlive, hdead⟩ := hs.issues_receive hb
        (hs.becomes_receive c (g.tree.config.fits_newVertex ⟨g.ids.next⟩)).sound
      exact .of_vertex rfl rfl rfl hlive (Or.inl hdead)
  | addVertexNamed c name => exact issues_addVertexNamed hs hp
  | addEdge c a b =>
      obtain ⟨branch, global, hfind, hab, -, htree, rfl⟩ := of_perform_addEdge hs hp
      rw [htree]
      have hissued := issues_putEdge hs hfind hab global
      exact .of_edge rfl rfl rfl hissued.1 hissued.2
  | connect c source target => exact issues_connect hs hp
  | moveIn c v child =>
      obtain ⟨r, hr, rfl, rfl⟩ := of_moving hp
      obtain ⟨hlive, hdead⟩ := hs.issues_moveIn hr
      exact .of_vertex rfl rfl rfl hlive (Or.inl hdead)
  | moveInOn c v place =>
      obtain ⟨r, hr, rfl, rfl⟩ := of_moving hp
      obtain ⟨child, hchild, hr⟩ := of_bind_eq_ok hr
      obtain ⟨hlive, hdead⟩ := hs.issues_moveIn hr
      exact .of_vertex rfl rfl (Tree.of_requireChildAt hchild) hlive (Or.inl hdead)
  | moveOut c v =>
      obtain ⟨r, hr, rfl, rfl⟩ := of_moving hp
      obtain ⟨d, hplace, hlive, hdead⟩ := hs.issues_moveOut hr
      exact .of_vertex rfl rfl hplace hlive (Or.inl hdead)
  | drawId | raiseIds =>
      obtain ⟨-, rfl⟩ := Prod.mk.inj (Except.ok.inj hp)
      exact .of_none rfl rfl
  | removeCluster | removeClusterOn | removeClusters | removeVertex | removeGlobalVertex
  | removeEdge =>
      obtain ⟨r, -, -, rfl⟩ := of_reporting hp
      exact .of_none rfl rfl
  | setObject c key object =>
      obtain ⟨t, -, heq⟩ := of_map_eq_ok hp
      obtain ⟨-, rfl⟩ := Prod.mk.inj heq
      exact .of_none rfl rfl
  | _ =>
      obtain ⟨t, -, -, rfl⟩ := of_quietly hp
      exact .of_none rfl rfl

end Graph

/-- The vertices that leave their clusters by an operation, in the tree with a
    number. -/
def Tree.DepartsBy (t : Tree) (number : Nat) : Operation → ClusterId → LocalVertex → Prop
  | .change k command, c, v => k = number ∧ t.Departs command c v
  | _, _, _ => False

section DepartsBy

variable {t : Tree} {operation : Operation} {serial number : Nat}

/-- An operation that comes down to a command takes away what the command
    does. -/
theorem Tree.departs_iff_departsBy {command : Command}
    (hop : operation.command? serial = some (number, command)) (c : ClusterId) (v : LocalVertex) :
    t.Departs command c v ↔ t.DepartsBy number operation c v := by
  cases operation with
  | change k command' =>
      obtain ⟨rfl, rfl⟩ := Prod.mk.inj (Option.some.inj hop)
      exact (and_iff_right rfl).symm
  | placeObject k d key type content =>
      obtain ⟨rfl, rfl⟩ := Prod.mk.inj (Option.some.inj hop)
      exact Iff.rfl
  | _ => cases hop

theorem Tree.not_departsBy (hop : ∀ command, operation.command? serial ≠ some (number, command))
    (c : ClusterId) (v : LocalVertex) : ¬ t.DepartsBy number operation c v := by
  cases operation with
  | change k command =>
      rintro ⟨rfl, -⟩
      exact hop command rfl
  | _ => exact id

end DepartsBy

namespace Workspace

variable {w w' : Workspace} {number : Nat} {m m' : Member} {operation : Operation} {reply : Reply}
  {c : ClusterId}

/-! ## Along runs -/

theorem members_put_of_ne {other : Nat} (hne : other ≠ number) (w : Workspace) (g : Graph) :
    (w.put other g).members[number]? = w.members[number]? := by
  rw [put]
  split
  · exact List.getElem?_set_ne hne
  · rfl

theorem members_put_self (hm : w.members[number]? = some m) (g : Graph) :
    (w.put number g).members[number]? = some { m with tree := g.tree } := by
  rw [put_of_member hm]
  exact List.getElem?_set_self (List.getElem?_eq_some_iff.mp hm).1

/-- Of the trees only the one that is put back is another. -/
theorem of_members_put {other : Nat} {g g' : Graph} {ids : IdSource}
    (hg : w.graph? number = some ⟨m.tree, ids⟩) (hm : w.members[number]? = some m)
    (hother : w.graph? other = some g) (hm' : (w.put other g').members[number]? = some m') :
    (other ≠ number ∧ m' = m)
      ∨ (other = number ∧ g = ⟨m.tree, ids⟩ ∧ m' = { m with tree := g'.tree }) := by
  by_cases hnumber : other = number
  · subst hnumber
    rw [members_put_self hm] at hm'
    exact Or.inr ⟨rfl, Option.some.inj (hother.symm.trans hg), (Option.some.inj hm').symm⟩
  · rw [members_put_of_ne hnumber, hm] at hm'
    exact Or.inl ⟨hnumber, (Option.some.inj hm').symm⟩

/-- What an operation that succeeds has done to one of the trees: nothing, a
    command, or a copy into it. -/
theorem Outcome.member (hw : w.Sound) (h : w.Outcome operation w' (.ok reply))
    (hm : w.members[number]? = some m) (hm' : w'.members[number]? = some m') :
    (m' = m ∧ ∀ command, operation.command? w.serial ≠ some (number, command))
      ∨ (∃ (ids : IdSource) (command : Command) (g' : Graph),
        operation.command? w.serial = some (number, command)
        ∧ (Graph.mk m.tree ids).perform command = .ok (g', reply) ∧ m'.tree = g'.tree)
      ∨ ∃ (k : Nat) (c into : ClusterId) (cloner : Cloner Nat) (source : Graph) (ids : IdSource)
        (g' : Graph) (serial : Nat), operation = .copyInto k c number into cloner
        ∧ source.tree.Sound
        ∧ source.copyInto c ⟨m.tree, ids⟩ into cloner w.serial = (.ok g', serial)
        ∧ m'.tree = g'.tree := by
  obtain ⟨ids, hg⟩ := hw.exists_graph? hm
  cases h with
  | idle serial hop =>
      refine Or.inl ⟨Option.some.inj (hm'.symm.trans hm), fun command hcommand => ?_⟩
      exact nomatch hg.symm.trans (hop _ hcommand)
  | @command _ target serial command g g' reply hop hfound hp =>
      -- The workspace may have counted a new object; the members do not see it.
      rcases of_members_put hg hm hfound hm' with ⟨hne, rfl⟩ | ⟨rfl, rfl, rfl⟩
      · refine Or.inl ⟨rfl, fun other hother => hne ?_⟩
        exact congrArg Prod.fst (Option.some.inj (hop.symm.trans hother))
      · exact Or.inr (Or.inl ⟨ids, command, g', hop, hp, rfl⟩)
  | @copy k target serial c into cloner source g g' hsource hfound hcopy =>
      rcases of_members_put hg hm hfound hm' with ⟨-, rfl⟩ | ⟨rfl, rfl, rfl⟩
      · exact Or.inl ⟨rfl, fun _ hop => nomatch hop⟩
      · exact Or.inr (Or.inr ⟨k, c, into, cloner, source, ids, g', serial, rfl, hw.tree hsource,
          hcopy, rfl⟩)
  | new hnew =>
      refine Or.inl ⟨?_, fun _ hop => nomatch hop⟩
      obtain ⟨config, -, -, hadd⟩ := of_newGraph hnew
      rcases hadd with ⟨k, -, rfl⟩ | ⟨count, rfl⟩
      all_goals
        refine Option.some.inj (hm'.symm.trans ?_)
        exact (List.getElem?_append_left (List.getElem?_eq_some_iff.mp hm).1).trans hm
  | duplicate hfound hcopy =>
      refine Or.inl ⟨Option.some.inj (hm'.symm.trans ?_), fun _ hop => nomatch hop⟩
      exact (List.getElem?_append_left (List.getElem?_eq_some_iff.mp hm).1).trans hm

theorem Outcome.keepsHandles (hw : w.Sound) (h : w.Outcome operation w' (.ok reply))
    (hm : w.members[number]? = some m) (hm' : w'.members[number]? = some m')
    (hlive : m.tree.isLive c = true) (hlive' : m'.tree.isLive c = true)
    (hinto : ∀ source d cloner, operation ≠ .copyInto source d number c cloner) :
    m.tree.KeepsHandles m'.tree (m.tree.DepartsBy number operation c) c := by
  have hs := hw.trees m (List.mem_of_getElem? hm)
  have hs' := (h.becomes hw).sound.trees m' (List.mem_of_getElem? hm')
  rw [Tree.isLive_iff] at hlive hlive'
  rcases h.member hw hm hm' with ⟨rfl, hother⟩ | ⟨ids, command, g', hop, hp, htree⟩
    | ⟨k, d, into, cloner, source, ids, g', serial, rfl, hsource, hcopy, htree⟩
  · have hstay := Tree.retains_refl m'.tree
    exact (hstay.congr (fun d v => iff_of_false id (Tree.not_departsBy hother d v))).keepsHandles
      hs hs hlive hlive
  · have hretains := Graph.retains_perform (g := ⟨m.tree, ids⟩) hs hp
    rw [← htree] at hretains
    exact (hretains.congr (Tree.departs_iff_departsBy hop)).keepsHandles hs hs' hlive hlive'
  · obtain ⟨n', hn', rfl⟩ := Multiset.mem_map.mp hlive'
    have hne : n'.id ≠ into := by
      rintro rfl
      exact hinto k d cloner rfl
    obtain ⟨n, hn, hkeep⟩ := Graph.retains_copyInto (g := ⟨m.tree, ids⟩) hsource hs hcopy
      (htree ▸ hn') hlive hne
    rw [hkeep.id]
    exact Tree.keepsHandles_of_retains hs hs' hn hn' hkeep

/-- **HANDLE STABILITY**: whatever was done before, take any operation that
    succeeds, and any cluster that is there before and after, other than one
    that content is copied into.  A vertex handle stands for the same vertex,
    unless the operation takes the vertex out of the cluster.  An edge handle
    has the same two ends in the same order, unless nothing runs between them
    any more.  Handles that are answered for something new were not valid
    before in the cluster that they belong to. -/
theorem keepsHandles_run (operations : List Operation) {operation : Operation} {reply : Reply}
    {w' : Workspace} {number : Nat} {m m' : Member}
    (hstep : (empty.run operations).step operation = (w', .ok reply))
    (hm : (empty.run operations).members[number]? = some m)
    (hm' : w'.members[number]? = some m') :
    (∀ c, m.tree.isLive c = true → m'.tree.isLive c = true →
      (∀ source d cloner, operation ≠ .copyInto source d number c cloner) →
      m.tree.KeepsHandles m'.tree (m.tree.DepartsBy number operation c) c)
    ∧ ∀ command, operation = .change number command → m.tree.Issues m'.tree command reply := by
  have hw := sound_run operations
  have hout := step_outcome hw operation
  rw [hstep] at hout
  constructor
  · intro c hlive hlive' hinto
    exact hout.keepsHandles hw hm hm' hlive hlive' hinto
  · rintro command rfl
    obtain ⟨k, ids, g', hk, -, hp, rfl⟩ := exists_perform hw hstep hm'
    obtain rfl := Option.some.inj (hm.symm.trans hk)
    exact Graph.issues_perform (g := ⟨m.tree, ids⟩) (hw.trees m (List.mem_of_getElem? hm)) hp

/-- A vertex moves out of a child.  The edge to a neighbour outside ends at
    its new handle now, in the very slot that it had before; the old handle
    of the edge is not valid, and all other handles are. -/
theorem keepsHandles_moveOut :
    let operations := [Operation.newGraph (.declared []) (.startingAt 100),
      .change 0 (.addCluster Tree.rootId), .change 0 (.addVertex Tree.rootId),
      .change 0 (.addVertex ⟨1⟩), .change 0 (.addVertex ⟨1⟩),
      .change 0 (.addEdge ⟨1⟩ ⟨0, 0⟩ ⟨1, 0⟩), .change 0 (.connect Tree.rootId ⟨102⟩ ⟨103⟩)]
    let w := empty.run operations
    let command := Command.moveOut ⟨1⟩ ⟨0, 0⟩
    ∃ m m', w.members[0]? = some m ∧ (w.step (.change 0 command)).1.members[0]? = some m'
      ∧ (∀ c ∈ [Tree.rootId, ⟨1⟩],
        m.tree.KeepsHandles m'.tree (m.tree.DepartsBy 0 (.change 0 command) c) c)
      ∧ m.tree.Issues m'.tree command (.moved ⟨2, 0⟩)
      ∧ m.tree.edges Tree.rootId = [⟨0, 0⟩] ∧ m'.tree.edges Tree.rootId = [⟨0, 1⟩, ⟨1, 0⟩] := by
  intro operations w command
  have hreply : (w.step (.change 0 command)).2 = .ok (.moved ⟨2, 0⟩) := by decide +kernel
  have hstep : w.step (.change 0 command)
      = ((w.step (.change 0 command)).1, .ok (.moved ⟨2, 0⟩)) := by
    rw [← hreply]
  have hbefore : ∃ m ∈ w.members[0]?, (∀ c ∈ [Tree.rootId, ⟨1⟩], m.tree.isLive c = true)
      ∧ m.tree.edges Tree.rootId = [⟨0, 0⟩] := by
    decide +kernel
  have hafter : ∃ m' ∈ (w.step (.change 0 command)).1.members[0]?,
      (∀ c ∈ [Tree.rootId, ⟨1⟩], m'.tree.isLive c = true)
        ∧ m'.tree.edges Tree.rootId = [⟨0, 1⟩, ⟨1, 0⟩] := by
    decide +kernel
  obtain ⟨m, hm, hlive, hedges⟩ := hbefore
  obtain ⟨m', hm', hlive', hedges'⟩ := hafter
  obtain ⟨hkeeps, hissues⟩ := keepsHandles_run operations hstep hm hm'
  refine ⟨m, m', hm, hm', fun c hc => ?_, hissues command rfl, hedges, hedges'⟩
  exact hkeeps c (hlive c hc) (hlive' c hc) (fun _ _ _ heq => nomatch heq)

end Workspace

end NestedGraph
