import NestedGraph.Proofs.Bundles
import NestedGraph.Proofs.Handles
import NestedGraph.Proofs.RoundTrip

/-! # Transfers — what a moved vertex takes along

    Both moves TRANSFER a vertex from one cluster to another: what is kept
    for it is under a new handle there, and the cluster that hung on it
    hangs on the new handle, as the last child, with everything inside it
    as it was.  No other vertex and no other cluster changes its place. -/

namespace NestedGraph

/-! ## Forests -/

/-- Where clusters have ids of their own, a forest is told by the branches of
    its first level. -/
theorem Forest.eq_of_entries {N : Multiset Node} (hN : (N.map Node.id).Nodup) {f g : Forest}
    (hf : ∀ n ∈ f.nodes, n ∈ N) (hg : ∀ n ∈ g.nodes, n ∈ N) (h : f.entries = g.entries) :
    f = g := by
  induction f generalizing g with
  | nil =>
      cases g with
      | nil => rfl
      | cons w m within others => exact nomatch h
  | cons v k inside rest ihInside ihRest =>
      cases g with
      | nil => exact nomatch h
      | cons w m within others =>
          rw [entries_cons, entries_cons, List.cons.injEq, Prod.mk.injEq] at h
          obtain ⟨⟨rfl, hid⟩, hrest⟩ := h
          have hnode : (⟨k, inside.entries⟩ : Node) = ⟨m, within.entries⟩ :=
            Multiset.inj_on_of_nodup_map hN _ (hf _ (Multiset.mem_cons_self ..)) _
              (hg _ (Multiset.mem_cons_self ..)) hid
          obtain ⟨rfl, hentries⟩ := Node.mk.inj hnode
          rw [ihInside (fun n hn => hf n ?_) (fun n hn => hg n ?_) hentries,
            ihRest (fun n hn => hf n ?_) (fun n hn => hg n ?_) hrest]
          · exact Multiset.mem_cons_of_mem (Multiset.mem_add.mpr (Or.inr hn))
          · exact Multiset.mem_cons_of_mem (Multiset.mem_add.mpr (Or.inr hn))
          · exact Multiset.mem_cons_of_mem (Multiset.mem_add.mpr (Or.inl hn))
          · exact Multiset.mem_cons_of_mem (Multiset.mem_add.mpr (Or.inl hn))

/-- The vertices that are found inside are those that a branch has. -/
theorem Branch.isSome_vertexOwner? {d : Branch} {g : GlobalVertex} :
    (d.vertexOwner? g).isSome = true ↔ g ∈ d.globals := by
  constructor
  · intro h
    obtain ⟨⟨o, w⟩, howner⟩ := Option.isSome_iff_exists.mp h
    obtain ⟨n, hn, -, hg⟩ := Branch.of_vertexOwner? howner
    exact Branch.mem_globals.mpr ⟨n, hn, w, hg⟩
  · intro h
    obtain ⟨o, w, howner⟩ := Branch.exists_vertexOwner? h
    rw [howner]
    rfl

namespace Tree

variable {t t' : Tree} {p q c : ClusterId} {v nv u : LocalVertex}

/-- A branch whose nodes are all in a tree is found there. -/
theorem Distinct.find?_of_nodes (hd : t.Distinct) {b : Branch} (hb : ∀ n ∈ b.nodes, n ∈ t.nodes) :
    t.find? b.cluster.id = some b := by
  obtain ⟨b', hb', hnode⟩ := hd.find?_of_mem (hb _ b.node_mem_nodes)
  have hsub := Multiset.subset_of_le (nodes_le_of_find? hb')
  have hinside : b'.inside = b.inside :=
    Forest.eq_of_entries hd (fun n hn => hsub (Multiset.mem_cons_of_mem hn))
      (fun n hn => hb n (Multiset.mem_cons_of_mem hn)) (congrArg Node.entries hnode)
  have heq : b' = b := by
    cases b'
    cases b
    exact congr (congrArg Branch.mk (congrArg Node.cluster hnode)) hinside
  rw [← heq]
  exact heq ▸ hb'

/-! ## Transfers -/

/-- Vertex `v` of cluster `p` went over to cluster `q`, where it is `nv`. -/
structure Transfers (t t' : Tree) (p q : ClusterId) (v nv : LocalVertex) : Prop where
  /-- The global name, the properties and the objects of the vertex are those of
      the new one. -/
  record : ∃ r, t.vertexRecord p v = .ok r ∧ t'.vertexRecord q nv = .ok r
  gone : v ∉ t'.vertices p
  fresh : nv ∉ t.vertices q
  vertices : ∀ c u, u ∈ t'.vertices c
    ↔ (c = q ∧ u = nv) ∨ u ∈ t.vertices c ∧ ¬ (c = p ∧ u = v)
  others : ∀ c, ∀ u ∈ t.vertices c, ¬ (c = p ∧ u = v) → t'.vertexRecord c u = t.vertexRecord c u
  /-- The cluster on the vertex leaves, and is the last child where it arrives. -/
  leaves : t'.children p = (t.children p).filter (fun entry => decide (entry.1 ≠ v))
  arrives : t'.children q = t.children q ++ ((t.childAt? p v).map (fun n => (nv, n))).toList
  content : ∀ n, t.childAt? p v = some n → t'.find? n = t.find? n
  live : ∀ c, t'.isLive c = t.isLive c
  elsewhere : ∀ c, c ≠ p → c ≠ q → t'.storage? c = t.storage? c ∧ t'.children c = t.children c
  /-- An edge keeps its handle as long as anything runs between its ends. -/
  handles : ∀ c, t.isLive c = true → t.KeepsHandles t' (fun u => c = p ∧ u = v) c

theorem vertices_of_dead (h : c ∉ t.ids) : t.vertices c = [] := by
  rw [vertices, storage?_of_dead h]

theorem children_of_dead (h : c ∉ t.ids) : t.children c = [] := by
  have hnone : t.find? c = none := by
    refine Option.eq_none_iff_forall_ne_some.mpr (fun b hb => h (mem_ids_iff.mpr ⟨b, hb⟩))
  rw [children, hnone]

theorem childAt?_of_find? {b : Branch} (hb : t.find? b.cluster.id = some b) (v : LocalVertex) :
    t.childAt? b.cluster.id v = (b.inside.branchAt? v).map (fun d => d.cluster.id) := by
  rw [childAt?, hb]
  rfl

namespace Handover

variable {giver taker : Branch} {giver' taker' : Node} {w nw : LocalVertex}
  (h : t.Handover t' giver.node taker.node giver' taker' w nw)
include h

/-- Every vertex that is left is under its own handle. -/
theorem vertex?_of_mem (hd : t.Distinct) {n : Node} (hn : n ∈ t.nodes) :
    ∃ n' ∈ t'.nodes, n'.id = n.id ∧ ∀ u, n'.storage.vertex? u
      = if n.id = taker.cluster.id ∧ u = nw then giver.cluster.storage.vertex? w
        else if n.id = giver.cluster.id ∧ u = w then none else n.storage.vertex? u := by
  have hne : taker.cluster.id ≠ giver.cluster.id := h.taker_ne hd
  obtain ⟨rest, hnodes, hnodes'⟩ := h.others
  rw [hnodes, Multiset.mem_cons, Multiset.mem_cons] at hn
  rcases hn with rfl | rfl | hn
  · refine ⟨giver', h.giver_mem.2, h.giverId, fun u => ?_⟩
    have hother : ¬ (giver.node.id = taker.cluster.id ∧ u = nw) := fun hu => hne hu.1.symm
    rw [h.giverVertex, if_neg hother]
    exact if_congr ⟨fun hu => ⟨rfl, hu⟩, And.right⟩ rfl rfl
  · refine ⟨taker', h.taker_mem.2, h.takerId, fun u => ?_⟩
    have hother : ¬ (taker.node.id = giver.cluster.id ∧ u = w) := fun hu => hne hu.1
    rw [h.takerVertex, if_neg hother]
    exact if_congr ⟨fun hu => ⟨rfl, hu⟩, And.right⟩ rfl rfl
  · have hgiver : n.id ≠ giver.cluster.id :=
      hd.id_ne_of_cons hnodes (Multiset.mem_cons_of_mem hn)
    have htaker : n.id ≠ taker.cluster.id :=
      hd.id_ne_of_cons (hnodes.trans (Multiset.cons_swap ..)) (Multiset.mem_cons_of_mem hn)
    refine ⟨n, hnodes' ▸ Multiset.mem_cons_of_mem (Multiset.mem_cons_of_mem hn), rfl,
      fun u => ?_⟩
    rw [if_neg (fun hu => htaker hu.1), if_neg (fun hu => hgiver hu.1)]

theorem recordBetween?_giver (hd' : t'.Distinct) (x y : LocalVertex) :
    t'.recordBetween? giver.cluster.id x y = giver'.storage.recordBetween? x y := by
  have hid : giver'.id = giver.cluster.id := h.giverId
  rw [← hid]
  exact hd'.recordBetween?_of_mem h.giver_mem.2 x y

theorem recordBetween?_taker (hd' : t'.Distinct) (x y : LocalVertex) :
    t'.recordBetween? taker.cluster.id x y = taker'.storage.recordBetween? x y := by
  have hid : taker'.id = taker.cluster.id := h.takerId
  rw [← hid]
  exact hd'.recordBetween?_of_mem h.taker_mem.2 x y

/-- The new handle was not in use. -/
theorem notMem_vertices (hd : t.Distinct) : nw ∉ t.vertices taker.cluster.id := by
  intro hmem
  obtain ⟨r, hr⟩ := Storage.hasVertex_iff.mp ((hd.mem_vertices h.taker_mem.1).mp hmem)
  exact nomatch h.fresh.symm.trans hr

/-- The vertices of a cluster afterwards: one went, or one came, and all others
    are where they were. -/
theorem mem_vertices_iff (hd : t.Distinct) (hd' : t'.Distinct) (c : ClusterId) (u : LocalVertex) :
    u ∈ t'.vertices c ↔ (c = taker.cluster.id ∧ u = nw)
      ∨ u ∈ t.vertices c ∧ ¬ (c = giver.cluster.id ∧ u = w) := by
  by_cases hc : c ∈ t.ids
  · obtain ⟨n, hn, rfl⟩ := Multiset.mem_map.mp hc
    obtain ⟨n', hn', hid, hvertex⟩ := h.vertex?_of_mem hd hn
    rw [hd.mem_vertices hn, ← hid, hd'.mem_vertices hn', hid, Storage.hasVertex_iff,
      Storage.hasVertex_iff, hvertex]
    obtain ⟨r, hr⟩ := h.live
    have hr : giver.cluster.storage.vertex? w = some r := hr
    by_cases hnew : n.id = taker.cluster.id ∧ u = nw
    · simp [hnew, hr]
    · by_cases hold : n.id = giver.cluster.id ∧ u = w
      · rw [if_neg hnew, if_pos hold]
        refine iff_of_false (fun ⟨r, hr⟩ => nomatch hr) ?_
        exact fun hor => hor.elim hnew (fun hstay => hstay.2 hold)
      · rw [if_neg hnew, if_neg hold]
        simp [hnew, hold]
  · -- A dead cluster has no vertices, and the one that a vertex comes to is alive.
    have htaker : taker.cluster.id ∈ t.ids := Multiset.mem_map_of_mem Node.id h.taker_mem.1
    rw [vertices_of_dead hc, vertices_of_dead (h.ids ▸ hc)]
    refine iff_of_false List.not_mem_nil (fun hor => hor.elim (fun hnew => hc ?_) ?_)
    · exact hnew.1 ▸ htaker
    · exact fun hold => List.not_mem_nil hold.1

/-- What is kept for a vertex that stays is as it was. -/
theorem vertexRecord_of_stays (hd : t.Distinct) (hd' : t'.Distinct) {c : ClusterId}
    {u : LocalVertex} (hu : u ∈ t.vertices c) (hstay : ¬ (c = giver.cluster.id ∧ u = w)) :
    t'.vertexRecord c u = t.vertexRecord c u := by
  obtain ⟨n, hn, rfl⟩ := exists_node_of_vertices hu
  obtain ⟨r, hr⟩ := Storage.hasVertex_iff.mp ((hd.mem_vertices hn).mp hu)
  obtain ⟨n', hn', hid, hvertex⟩ := h.vertex?_of_mem hd hn
  have hold : ¬ (n.id = taker.cluster.id ∧ u = nw) := by
    rintro ⟨heq, rfl⟩
    exact h.notMem_vertices hd (heq ▸ hu)
  have hr' : n'.storage.vertex? u = some r := by
    rw [hvertex, if_neg hold, if_neg hstay, hr]
  rw [hd.vertexRecord_of_mem hn hr, ← hid]
  exact hd'.vertexRecord_of_mem hn' hr'

/-- What hangs on the vertex has the same content where it arrives. -/
theorem find?_child (hd : t.Distinct) (hd' : t'.Distinct)
    (hgiver : t.find? giver.cluster.id = some giver)
    (hnested : ∃ rest, t.nodes
      = giver.node ::ₘ taker.node ::ₘ (nestedNodes (giver.inside.branchAt? w) + rest))
    {n : ClusterId} (hn : t.childAt? giver.cluster.id w = some n) : t'.find? n = t.find? n := by
  rw [childAt?_of_find? hgiver] at hn
  obtain ⟨d, hat, rfl⟩ := Option.map_eq_some_iff.mp hn
  rw [hd.find?_of_branchAt? hgiver hat]
  refine hd'.find?_of_nodes (fun m hm => ?_)
  -- What hangs on the vertex is neither of the two clusters, so it stays.
  obtain ⟨rest, hnodes⟩ := hnested
  obtain ⟨rest', hrest, hrest'⟩ := h.others
  have heq : rest' = nestedNodes (giver.inside.branchAt? w) + rest :=
    (Multiset.cons_inj_right _).mp ((Multiset.cons_inj_right _).mp (hrest.symm.trans hnodes))
  rw [hrest', heq, hat]
  exact Multiset.mem_cons_of_mem (Multiset.mem_cons_of_mem (Multiset.mem_add.mpr (Or.inl hm)))

/-- Of a third cluster nothing changes. -/
theorem elsewhere (hd : t.Distinct) (hd' : t'.Distinct) {c : ClusterId}
    (hgiver : c ≠ giver.cluster.id) (htaker : c ≠ taker.cluster.id) :
    t'.storage? c = t.storage? c ∧ t'.children c = t.children c := by
  by_cases hc : c ∈ t.ids
  · obtain ⟨n, hn, rfl⟩ := Multiset.mem_map.mp hc
    have hn' : n ∈ t'.nodes := by
      rcases h.mem_cases hn with rfl | rfl | hn'
      · exact absurd rfl hgiver
      · exact absurd rfl htaker
      · exact hn'
    rw [hd.storage?_of_mem hn, hd'.storage?_of_mem hn', hd.children_of_mem hn,
      hd'.children_of_mem hn']
    exact ⟨rfl, rfl⟩
  · have hc' : c ∉ t'.ids := h.ids ▸ hc
    rw [storage?_of_dead hc, storage?_of_dead hc', children_of_dead hc, children_of_dead hc']
    exact ⟨rfl, rfl⟩

/-- What a handover transfers, when the branch on the vertex goes over last. -/
theorem transfers (hs : t.Sound) (hs' : t'.Sound)
    (hgiver : t.find? giver.cluster.id = some giver)
    (hnested : ∃ rest, t.nodes
      = giver.node ::ₘ taker.node ::ₘ (nestedNodes (giver.inside.branchAt? w) + rest))
    (hleaves : giver'.entries = giver.node.entries.filter (fun entry => decide (entry.1 ≠ w)))
    (harrives : taker'.entries = taker.node.entries
      ++ ((giver.inside.branchAt? w).map (fun d => (nw, d.cluster.id))).toList)
    (hretains : t.Retains t' (fun d u => d = giver.cluster.id ∧ u = w)) :
    t.Transfers t' giver.cluster.id taker.cluster.id w nw := by
  have hd := hs.distinct
  have hd' := hs'.distinct
  have hlive : ∀ c, t'.isLive c = t.isLive c := by
    intro c
    rw [Bool.eq_iff_iff, isLive_iff, isLive_iff, h.ids]
  constructor
  case record =>
    obtain ⟨r, hr⟩ := h.live
    refine ⟨r, hd.vertexRecord_of_mem h.giver_mem.1 hr, ?_⟩
    have hr' : taker'.storage.vertex? nw = some r := by
      rw [h.takerVertex, if_pos rfl, hr]
    have hrecord := hd'.vertexRecord_of_mem h.taker_mem.2 hr'
    rwa [h.takerId] at hrecord
  case gone =>
    rw [h.mem_vertices_iff hd hd']
    rintro (⟨heq, -⟩ | ⟨-, hstay⟩)
    · exact h.taker_ne hd heq.symm
    · exact hstay ⟨rfl, rfl⟩
  case fresh => exact h.notMem_vertices hd
  case vertices => exact h.mem_vertices_iff hd hd'
  case others => exact fun c u hu hstay => h.vertexRecord_of_stays hd hd' hu hstay
  case leaves =>
    have hchildren := hd'.children_of_mem h.giver_mem.2
    rw [h.giverId, hleaves] at hchildren
    rw [children_of_find? hgiver]
    exact hchildren
  case arrives =>
    have hchildren := hd'.children_of_mem h.taker_mem.2
    rw [h.takerId, harrives, ← hd.children_of_mem h.taker_mem.1] at hchildren
    rw [childAt?_of_find? hgiver, Option.map_map]
    exact hchildren
  case content => exact fun n hn => h.find?_child hd hd' hgiver hnested hn
  case live => exact hlive
  case elsewhere => exact fun c hp hq => h.elsewhere hd hd' hp hq
  case handles =>
    intro c hc
    have hc' := hlive c ▸ hc
    exact hretains.keepsHandles hs hs' (isLive_iff.mp hc) (isLive_iff.mp hc')

end Handover

/-! ## The two moves -/

variable {b inner : Branch} {cv : LocalVertex} {record : VertexRecord} {routes : Routes}

theorem Inward.transfers (hs : t.Sound) (h : t.Inward b inner v cv record)
    (hs' : (t.lower v cv routes b inner).Sound) :
    t.Transfers (t.lower v cv routes b inner) b.cluster.id inner.cluster.id v inner.nextVertex := by
  obtain ⟨rest, hnodes, -⟩ := h.nodes_cutAt hs
  have hover := h.handover hs routes
  refine hover.transfers hs hs' h.around ⟨rest, hnodes⟩ rfl rfl ?_
  exact hover.retains hs.distinct (h.keepsEdges_lowered hs) (h.persists_sunk hs).keepsEdges

theorem Outward.transfers (hs : t.Sound) (h : t.Outward inner b cv v record)
    (hs' : (t.raise cv v inner b).Sound) :
    t.Transfers (t.raise cv v inner b) inner.cluster.id b.cluster.id v b.nextVertex := by
  obtain ⟨rest, hnodes, -⟩ := h.nodes_cutAt hs id
  have hover := h.handover hs
  have hi := (hs.nodes _ (node_mem_of_find? h.within)).storage
  have hdrained : (inner.drained t.config v).storage.Listed :=
    (hs'.nodes _ hover.giver_mem.2).storage.listed
  have hthin := (inner.node.thinned_cut t.config v).mark
  refine hover.transfers hs hs' h.within ⟨rest, hnodes.trans (Multiset.cons_swap ..)⟩ rfl ?_ ?_
  · show b.node.entries ++ ((inner.inside.branchAt? v).map (fun d =>
      ((b.cluster.storage.withdrawAt _ cv).vertices.nextHandle, d.cluster.id))).toList = _
    rw [Storage.vertices_withdrawAt]
    rfl
  · exact hover.retains hs.distinct (hthin.edges.keepsEdges hi hdrained) (h.keepsEdges_raised hs)

/-! ## What moves along -/

/-- The global vertex moves with a vertex: it is the vertex itself, or it is in
    the cluster that the vertex stands for. -/
def movesWith (t : Tree) (c : ClusterId) (v : LocalVertex) (g : GlobalVertex) : Bool :=
  decide (t.global? c v = some g) || (t.childAt? c v).any (fun n => (t.vertexOwner? n g).isSome)

/-- The endpoint that stays when a vertex moves with the other one. -/
def staying (t : Tree) (c : ClusterId) (v : LocalVertex) (e : GlobalEdge) : GlobalVertex :=
  if t.movesWith c v e.source then e.target else e.source

theorem Distinct.movesWith_iff (hd : t.Distinct) (hb : t.find? b.cluster.id = some b)
    {g : GlobalVertex} : t.movesWith b.cluster.id v g = true ↔ g ∈ b.travelling v := by
  have hglobal : t.global? b.cluster.id v = b.cluster.storage.global? v :=
    hd.global?_of_mem (node_mem_of_find? hb) v
  rw [movesWith, hglobal, childAt?_of_find? hb, Branch.travelling, List.mem_append,
    Bool.or_eq_true, decide_eq_true_iff, Option.mem_toList]
  refine or_congr_right ?_
  cases hv : b.inside.branchAt? v with
  | none => simp
  | some d =>
      rw [← Branch.isSome_vertexOwner?, Option.map_some, Option.any_some, vertexOwner?,
        hd.find?_of_branchAt? hb hv]
      rfl

/-- An endpoint that stays is one that does not move. -/
theorem Distinct.of_farEnd? (hd : t.Distinct) (hb : t.find? b.cluster.id = some b)
    {e : GlobalEdge} {g : GlobalVertex} (h : e.farEnd? (b.travelling v) = some g) :
    t.staying b.cluster.id v e = g ∧ t.movesWith b.cluster.id v g = false := by
  rw [← Bool.not_eq_true, hd.movesWith_iff hb]
  rw [GlobalEdge.farEnd?] at h
  by_cases hsource : e.source ∈ b.travelling v
  · rw [staying, if_pos ((hd.movesWith_iff hb).mpr hsource)]
    rw [if_pos hsource] at h
    split at h
    · cases h
    · rename_i htarget
      obtain rfl := Option.some.inj h
      exact ⟨rfl, htarget⟩
  · rw [staying, if_neg (fun hmoves => hsource ((hd.movesWith_iff hb).mp hmoves))]
    rw [if_neg hsource] at h
    split at h
    · obtain rfl := Option.some.inj h
      exact ⟨rfl, hsource⟩
    · cases h

theorem Distinct.touches_eq (hd : t.Distinct) (hb : t.find? b.cluster.id = some b)
    (e : GlobalEdge) : e.touches (b.travelling v)
      = (t.movesWith b.cluster.id v e.source || t.movesWith b.cluster.id v e.target) := by
  rw [Bool.eq_iff_iff, Bool.or_eq_true, hd.movesWith_iff hb, hd.movesWith_iff hb]
  exact GlobalEdge.touches_eq_true

end Tree

/-! ## Steps -/

namespace Workspace

variable {w w' : Workspace} {number : Nat} {m : Member} {command : Command} {reply : Reply}
  {x : Except Error (Tree × LocalVertex)}

/-- A step comes to a state and an answer. -/
theorem eq_of_answer {outcome : Workspace × Except Error Reply} {answer : Except Error Reply}
    (h : outcome.2 = answer) : outcome = (outcome.1, answer) := Prod.ext rfl h

/-- A move that is carried out changed the tree. -/
theorem Sound.of_step_moving (hw : w.Sound) (hm : w.members[number]? = some m)
    (hx : ∀ ids, (⟨m.tree, ids⟩ : Graph).perform command = Graph.moving ⟨m.tree, ids⟩ <$> x)
    (hstep : w.step (.change number command) = (w', .ok reply)) :
    ∃ r m', x = .ok r ∧ reply = .moved r.2 ∧ w'.members[number]? = some m' ∧ m'.tree = r.1 := by
  have hb := hw.becomes_step (.change number command)
  rw [hstep] at hb
  obtain ⟨m', hm', -, -⟩ := hb.members number m hm
  obtain ⟨k, ids, g', hk, -, hp, rfl⟩ := exists_perform hw hstep hm'
  obtain rfl := Option.some.inj (hm.symm.trans hk)
  rw [hx] at hp
  obtain ⟨r, hr, rfl, rfl⟩ := Graph.of_moving hp
  exact ⟨r, _, hr, rfl, hm', rfl⟩

/-- A move is carried out exactly when the tree can be changed so. -/
theorem Sound.step_moving_iff (hw : w.Sound) (hm : w.members[number]? = some m)
    (hx : ∀ ids, (⟨m.tree, ids⟩ : Graph).perform command = Graph.moving ⟨m.tree, ids⟩ <$> x) :
    (∃ w' reply, w.step (.change number command) = (w', .ok reply)) ↔ ∃ r, x = .ok r := by
  constructor
  · rintro ⟨w', reply, hstep⟩
    obtain ⟨r, -, hr, -⟩ := hw.of_step_moving hm hx hstep
    exact ⟨r, hr⟩
  · rintro ⟨r, hr⟩
    obtain ⟨ids, hg⟩ := hw.exists_graph? hm
    have hp := hx ids
    rw [hr] at hp
    exact ⟨_, _, step_change hw hg hp⟩

end Workspace

end NestedGraph
