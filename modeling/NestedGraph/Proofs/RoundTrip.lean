import NestedGraph.Proofs.Alike
import NestedGraph.Proofs.Order

/-! # Round trip — in and out again, out and in again

    A vertex that is moved into a child and out again, or out of its
    cluster and in again, is back where it was under a new handle, and so
    is every edge.  The first move puts edges of the vertex onto edges
    that are there for others; the second finds them again by the names
    that travel with the vertex. -/

namespace NestedGraph

/-- A node that stays keeps its handles. -/
theorem Node.alike_self (n : Node) : n.Alike (fun u => u) n := by
  refine ⟨rfl, fun w d => ?_, fun w r => ?_, fun u w _ _ h => h, ?_⟩
  · exact ⟨fun h => ⟨w, h, rfl⟩, fun ⟨u, h, hw⟩ => hw ▸ h⟩
  · exact ⟨fun h => ⟨w, h, rfl⟩, fun ⟨u, h, hw⟩ => hw ▸ h⟩
  · refine ((Multiset.map_congr rfl (fun entry _ => ?_)).trans (Multiset.map_id' _)).symm
    exact Prod.ext (congrFun Sym2.map_id' entry.1) rfl

/-- What was given another end twice has the last. -/
theorem map_redirect_map_redirect {v w : LocalVertex} {z : Sym2 LocalVertex} (x : LocalVertex)
    (h : w ∉ z) : (z.map (redirect v w)).map (redirect w x) = z.map (redirect v x) := by
  rw [Sym2.map_map]
  refine Sym2.map_congr (fun u hu => ?_)
  by_cases hv : u = v
  · simp [hv]
  · have hw : u ≠ w := ne_of_mem_of_not_mem hu h
    simp [redirect_of_ne _ hv, redirect_of_ne _ hw]

/-- A vertex that gives way to one which was not there, and takes its place
    again, leaves all as it was. -/
theorem map_redirect_back {v w : LocalVertex} {z : Sym2 LocalVertex} (h : w ∉ z) :
    (z.map (redirect v w)).map (redirect w v) = z := by
  rw [map_redirect_map_redirect v h]
  refine (Sym2.map_congr (fun u _ => ?_)).trans (congrFun Sym2.map_id' z)
  by_cases hu : u = v
  · rw [hu, redirect_self]
  · exact redirect_of_ne v hu

/-- A vertex may take a handle that no other has. -/
theorem redirect_inj {v w : LocalVertex} {p : LocalVertex → Prop} (hw : ∀ u, p u → u ≠ v → u ≠ w)
    {u z : LocalVertex} (hu : p u) (hz : p z) (heq : redirect v w u = redirect v w z) : u = z := by
  by_cases huv : u = v
  · by_cases hzv : z = v
    · rw [huv, hzv]
    · rw [huv, redirect_self, redirect_of_ne w hzv] at heq
      exact absurd heq.symm (hw z hz hzv)
  · by_cases hzv : z = v
    · rw [hzv, redirect_self, redirect_of_ne w huv] at heq
      exact absurd heq (hw u hu huv)
    · rwa [redirect_of_ne w huv, redirect_of_ne w hzv] at heq

theorem filter_map_of_iff {α β : Type} {s : Multiset α} {f : α → β} {p : β → Prop} {q : α → Prop}
    [DecidablePred p] [DecidablePred q] (h : ∀ x ∈ s, p (f x) ↔ q x) :
    (s.map f).filter p = (s.filter q).map f := by
  rw [Multiset.filter_map]
  exact congrArg (Multiset.map f) (Multiset.filter_congr h)

namespace Tree

/-! ## There and back -/

/-- The handle of a vertex, after vertex `v` of a cluster got another. -/
def renamed (p : ClusterId) (v v' : LocalVertex) (c : ClusterId) (u : LocalVertex) : LocalVertex :=
  if c = p then redirect v v' u else u

theorem renamed_self (p : ClusterId) (v v' : LocalVertex) : renamed p v v' p = redirect v v' :=
  funext (fun _ => if_pos rfl)

theorem renamed_of_ne {p c : ClusterId} (v v' : LocalVertex) (h : c ≠ p) : renamed p v v' c = (fun u => u) :=
  funext (fun _ => if_neg h)

namespace Handover

variable {t t1 t2 : Tree} {A B A1 B1 A2 B2 : Node} {w nw w' : LocalVertex}

theorem ids (h : t.Handover t1 A B A1 B1 w nw) : t1.ids = t.ids := by
  obtain ⟨rest, hnodes, hnodes'⟩ := h.others
  rw [Tree.ids, Tree.ids, hnodes, hnodes']
  simp only [Multiset.map_cons, h.giverId, h.takerId]

section Back

variable (h : t.Handover t1 A B A1 B1 w nw) (h' : t1.Handover t2 B1 A1 B2 A2 nw w')
include h h'

/-- The handle that the vertex has when it is back is that of no other. -/
theorem ne_of_hasVertex {u : LocalVertex} (hu : A.storage.hasVertex u = true) (hne : u ≠ w) :
    u ≠ w' := by
  rintro rfl
  obtain ⟨r, hr⟩ := Storage.hasVertex_iff.mp hu
  have hfresh := h'.fresh
  rw [h.giverVertex, if_neg hne, hr] at hfresh
  exact nomatch hfresh

theorem vertex?_back (x : LocalVertex) :
    A2.storage.vertex? x = if x = w' then A.storage.vertex? w
      else if x = w then none else A.storage.vertex? x := by
  rw [h'.takerVertex, h.takerVertex, if_pos rfl, h.giverVertex]

/-- What hung on the vertex hangs on its new handle. -/
theorem mem_entries_back {x : LocalVertex} {d : ClusterId} :
    (x, d) ∈ A2.entries ↔ ∃ u, (u, d) ∈ A.entries ∧ redirect w w' u = x := by
  rw [h'.takerEntries, h.giverEntries, h.takerEntries]
  constructor
  · rintro (⟨he, hne⟩ | ⟨rfl, he⟩)
    · exact ⟨x, he, redirect_of_ne w' hne⟩
    · exact ⟨w, (he.resolve_left (h.notMem_taker d)).2, redirect_self ..⟩
  · rintro ⟨u, he, rfl⟩
    by_cases hu : u = w
    · rw [hu, redirect_self]
      exact Or.inr ⟨rfl, Or.inr ⟨rfl, hu ▸ he⟩⟩
    · rw [redirect_of_ne w' hu]
      exact Or.inl ⟨he, hu⟩

/-- The cluster that gave the vertex has it back under another handle. -/
theorem alike_giver (hload : A2.storage.load
      = A.storage.load.map (fun entry => (entry.1.map (redirect w w'), entry.2))) :
    A.Alike (redirect w w') A2 := by
  refine ⟨h'.takerId.trans h.giverId, fun x d => h.mem_entries_back h', fun x r => ?_,
    fun u z hu hz => redirect_inj (fun _ => h.ne_of_hasVertex h') hu hz, hload⟩
  rw [h.vertex?_back h']
  constructor
  · intro hx
    split at hx
    · rename_i heq
      exact ⟨w, hx, (redirect_self ..).trans heq.symm⟩
    · split at hx
      · exact nomatch hx
      · rename_i hne
        exact ⟨x, hx, redirect_of_ne w' hne⟩
  · rintro ⟨u, hu, rfl⟩
    by_cases hw : u = w
    · rw [hw, redirect_self, if_pos rfl, ← hw]
      exact hu
    · have hne := h.ne_of_hasVertex h' (Storage.hasVertex_iff.mpr ⟨r, hu⟩) hw
      rw [redirect_of_ne w' hw, if_neg hne, if_neg hw]
      exact hu

/-- The cluster that took the vertex is as it was. -/
theorem alike_taker (hload : B2.storage.load = B.storage.load) : B.Alike (fun u => u) B2 := by
  refine ⟨h'.giverId.trans h.takerId, fun x d => ?_, fun x r => ?_, fun u z _ _ heq => heq, ?_⟩
  · rw [h'.giverEntries, h.takerEntries]
    constructor
    · rintro ⟨he, hne⟩
      exact ⟨x, he.resolve_right (fun hx => hne hx.1), rfl⟩
    · rintro ⟨u, he, rfl⟩
      refine ⟨Or.inl he, ?_⟩
      rintro rfl
      exact h.notMem_taker d he
  · have hsame : B2.storage.vertex? x = B.storage.vertex? x := by
      rw [h'.giverVertex, h.takerVertex]
      split
      · rename_i hx
        rw [hx]
        exact h.fresh.symm
      · rfl
    rw [hsame]
    exact ⟨fun hr => ⟨x, hr, rfl⟩, fun ⟨u, hu, hx⟩ => hx ▸ hu⟩
  · rw [hload]
    exact B.alike_self.load

/-- The other clusters are not touched by either move. -/
theorem mem_back {n : Node} (hn : n ∈ t.nodes) (hA : n.id ≠ A.id) (hB : n.id ≠ B.id) :
    n ∈ t2.nodes := by
  have hn1 : n ∈ t1.nodes := by
    rcases h.mem_cases hn with rfl | rfl | hn1
    · exact absurd rfl hA
    · exact absurd rfl hB
    · exact hn1
  rcases h'.mem_cases hn1 with rfl | rfl | hn2
  · exact absurd h.takerId hB
  · exact absurd h.giverId hA
  · exact hn2

/-- A vertex that went over and came back is where it was, if the edges of
    both clusters are. -/
theorem alike (hd : t.Distinct)
    (hgiver : A2.storage.load
      = A.storage.load.map (fun entry => (entry.1.map (redirect w w'), entry.2)))
    (htaker : B2.storage.load = B.storage.load) : t.Alike t2 (renamed A.id w w') := by
  refine ⟨h'.ids.trans h.ids, fun n hn => ?_⟩
  by_cases hA : n.id = A.id
  · obtain rfl := hd.eq_of_id hn h.giver_mem.1 hA
    rw [renamed_self]
    exact ⟨A2, h'.taker_mem.2, h.alike_giver h' hgiver⟩
  rw [renamed_of_ne w w' hA]
  by_cases hB : n.id = B.id
  · obtain rfl := hd.eq_of_id hn h.taker_mem.1 hB
    exact ⟨B2, h'.giver_mem.2, h.alike_taker h' htaker⟩
  exact ⟨n, h.mem_back h' hn hA hB, n.alike_self⟩

end Back

end Handover

variable {t : Tree} {count : UInt64} {b inner : Branch} {v cv : LocalVertex} {record : VertexRecord}
  {routes : Routes}

/-! ## The way back is open -/

/-- What moved in may move out. -/
theorem Inward.outward (hs : t.Sound) (h : t.Inward b inner v cv record)
    (hs1 : (t.lower v cv routes b inner).Sound) :
    ∃ b1 inner1, (t.lower v cv routes b inner).Outward inner1 b1 cv inner.nextVertex record
      ∧ b1.node = b.lowered t.config v cv
      ∧ inner1.node = b.sunk t.config inner v cv routes record := by
  have hover := h.handover hs routes
  obtain ⟨b1, hb1, hnode⟩ := hs1.distinct.find?_of_mem hover.giver_mem.2
  obtain ⟨inner1, hi1, hinner⟩ := hs1.distinct.find?_of_mem hover.taker_mem.2
  rw [← hnode] at hb1 hover
  rw [← hinner] at hi1 hover
  have hid : inner1.cluster.id = inner.cluster.id := hover.takerId
  refine ⟨b1, inner1, ⟨hi1, hb1, ?_, ?_⟩, hnode, hinner⟩
  · rw [hid]
    exact (hover.giverEntries cv inner.cluster.id).mpr ⟨h.child, h.ne.symm⟩
  · exact (hover.takerVertex inner.nextVertex).trans ((if_pos rfl).trans h.vertex)

/-- What moved out may move in. -/
theorem Outward.inward (hs : t.Sound) (h : t.Outward inner b cv v record)
    (hs1 : (t.raise cv v inner b).Sound) :
    ∃ b1 inner1, (t.raise cv v inner b).Inward b1 inner1 b.nextVertex cv record
      ∧ b1.node = b.raised t.config inner cv v record ∧ inner1.node = inner.drained t.config v := by
  have hover := h.handover hs
  obtain ⟨b1, hb1, hnode⟩ := hs1.distinct.find?_of_mem hover.taker_mem.2
  obtain ⟨inner1, hi1, hinner⟩ := hs1.distinct.find?_of_mem hover.giver_mem.2
  rw [← hnode] at hb1 hover
  rw [← hinner] at hi1 hover
  have hid : inner1.cluster.id = inner.cluster.id := hover.giverId
  refine ⟨b1, inner1, ⟨hb1, hi1, ?_, ?_, ?_⟩, hnode, hinner⟩
  · rw [hid]
    exact (hover.takerEntries cv inner.cluster.id).mpr (Or.inl h.child)
  · exact (hover.takerVertex b.nextVertex).trans ((if_pos rfl).trans h.vertex)
  · intro heq
    exact hover.notMem_taker inner.cluster.id (heq ▸ h.child)

/-- In order, a vertex moves into the child on another vertex. -/
theorem Inward.moveIn_eq (ho : t.Orderly count) (h : t.Inward b inner v cv record) :
    ∃ routes, inner.routes (b.travelling v) ((b.inward v cv).flatMap EdgeRecord.globals) = .ok routes
      ∧ t.moveIn b.cluster.id v inner.cluster.id
        = .ok (t.lower v cv routes b inner, inner.nextVertex) := by
  have hnode := node_mem_of_find? h.around
  have hstored : b.cluster.storage.Sound := (ho.sound.nodes _ hnode).storage
  have hall : ∀ e ∈ (b.inward v cv).flatMap EdgeRecord.globals,
      ∃ w, (e.farEnd? (b.travelling v)).bind inner.representative? = some w := by
    intro e he
    obtain ⟨r, hr, he⟩ := List.mem_flatMap.mp he
    obtain ⟨x, hx, rfl⟩ := List.mem_map.mp he
    have hload := (Branch.mem_inward_iff hstored h.ne).mp ⟨r, hr, hx⟩
    obtain ⟨-, -, w, -, -, hw, -⟩ := h.ends ho
      (ho.placed _ hnode _ _ (Storage.mem_carries.mpr ⟨x, hload, rfl⟩))
    exact ⟨w, hw⟩
  obtain ⟨routes, hroutes⟩ := Branch.exists_routes hall
  have hlive : b.cluster.storage.hasVertex v = true := Storage.hasVertex_iff.mpr ⟨record, h.vertex⟩
  refine ⟨routes, hroutes, ?_⟩
  rw [moveIn, ho.sound.vertexOfChild h.around h.within h.child,
    requireVertex_of_find? h.around hlive, require_of_find? h.within]
  show (if v = cv then _ else _) = _
  rw [if_neg h.ne]
  show (inner.routes (b.travelling v) ((b.inward v cv).flatMap EdgeRecord.globals) >>= _) = _
  rw [hroutes]
  rfl

theorem Outward.moveOut_eq (hs : t.Sound) (h : t.Outward inner b cv v record) :
    t.moveOut inner.cluster.id v = .ok (t.raise cv v inner b, b.nextVertex) := by
  have hlive : inner.cluster.storage.hasVertex v = true :=
    Storage.hasVertex_iff.mpr ⟨record, h.vertex⟩
  have hplace : t.place? inner.cluster.id = some (b.cluster.id, cv) :=
    hs.distinct.place?_eq_some_iff.mpr ((children_of_find? h.around).symm ▸ h.child)
  rw [moveOut, requireVertex_of_find? h.within hlive, ok_bind, hplace]
  dsimp only
  rw [h.around]
  rfl

/-! ## Edges that went in and come out -/

/-- On every vertex on which something stands there is a vertex. -/
theorem Sound.hasVertex_of_stands (hs : t.Sound) {n : Node} (hn : n ∈ t.nodes) {y : LocalVertex}
    {g : GlobalVertex} (h : t.Stands n.id y g) : n.storage.hasVertex y = true := by
  obtain ⟨m, hm, u, hl, ho⟩ := h
  generalize hid : n.id = c at hl
  cases hl with
  | here =>
      obtain rfl := hs.distinct.eq_of_id hn hm hid
      exact Storage.hasVertex_of_global? ho.1
  | @inside k _ _ _ _ _ hk he _ =>
      obtain rfl := hs.distinct.eq_of_id hn hk hid
      exact (hs.nodes _ hk).held _ he

/-- A vertex that is not there has no edges. -/
theorem Sound.notMem_of_fresh (hs : t.Sound) {n : Node} (hn : n ∈ t.nodes) {w : LocalVertex}
    (hw : n.storage.vertex? w = none) {entry : Sym2 LocalVertex × CarriedEdge}
    (h : entry ∈ n.storage.load) : w ∉ entry.1 := by
  intro hmem
  obtain ⟨e, l, hl, hends, -⟩ := Storage.mem_load.mp h
  have hlive := (hs.nodes n hn).storage.hasVertex_of_ends hl (hends ▸ hmem)
  obtain ⟨r, hr⟩ := Storage.hasVertex_iff.mp hlive
  rw [hw] at hr
  exact nomatch hr

section ThenOut

variable {b1 inner1 : Branch}

/-- What came in with the vertex is what stood on the vertex. -/
theorem Inward.mem_travelling_iff (ho : t.Orderly count) (h : t.Inward b inner v cv record)
    (ho1 : (t.lower v cv routes b inner).Orderly count)
    (h' : (t.lower v cv routes b inner).Outward inner1 b1 cv inner.nextVertex record)
    (hid : inner1.cluster.id = inner.cluster.id) {a : LocalVertex} {g : GlobalVertex}
    (hst : t.Stands b.cluster.id a g) : g ∈ inner1.travelling inner.nextVertex ↔ a = v := by
  have hover := h.handover ho.sound routes
  have haround := h.stands_around ho.sound routes hst
  constructor
  · intro hg
    have hmoved := ho1.stands_of_mem_travelling haround h'.within hg
    rw [hid] at hmoved
    by_contra ha
    -- Seen from the cluster around, it stands on the vertex of the child.
    obtain ⟨n, hn, u, hl, hord⟩ := hmoved
    have hcv := ho1.stands_unique haround ⟨n, hn, u, (h.leads_lower ho.sound routes).trans hl, hord⟩
    rw [redirect_of_ne cv ha] at hcv
    -- So it was in the child before, and not on the vertex that came in.
    obtain ⟨y, hy⟩ := ho.sound.stands_inside (node_mem_of_find? h.around) h.child (hcv ▸ hst)
    have heq := ho1.stands_unique (h.stands_within ho.sound routes hy) ⟨n, hn, u, hl, hord⟩
    obtain ⟨r, hr⟩ := Storage.hasVertex_iff.mp
      (ho.sound.hasVertex_of_stands (node_mem_of_find? h.within) hy)
    rw [heq, hover.fresh] at hr
    exact nomatch hr
  · intro ha
    have hmoved : (t.lower v cv routes b inner).Stands inner.cluster.id inner.nextVertex g :=
      hover.stands_moved ho.sound.distinct (ha ▸ hst)
    rw [← hid] at hmoved
    exact hmoved.mem_travelling ho1.sound h'.within

/-- The edges that the vertex had are those that go out with it. -/
theorem Inward.touches_iff (ho : t.Orderly count) (h : t.Inward b inner v cv record)
    (ho1 : (t.lower v cv routes b inner).Orderly count)
    (h' : (t.lower v cv routes b inner).Outward inner1 b1 cv inner.nextVertex record)
    (hid : inner1.cluster.id = inner.cluster.id) {z : Sym2 LocalVertex} {x : CarriedEdge}
    (hx : (z, x) ∈ b.cluster.storage.load) :
    x.global.touches (inner1.travelling inner.nextVertex) = true ↔ v ∈ z := by
  obtain ⟨a, a', rfl, hsource, htarget⟩ := ho.placed _ (node_mem_of_find? h.around) z x.global
    (Storage.mem_carries.mpr ⟨x, hx, rfl⟩)
  rw [GlobalEdge.touches_eq_true, h.mem_travelling_iff ho ho1 h' hid hsource,
    h.mem_travelling_iff ho ho1 h' hid htarget, Sym2.mem_iff, eq_comm, @eq_comm _ a']

/-- In the cluster around, what goes out with the vertex is what it had there,
    apart from its edges to the child. -/
theorem Inward.load_sent (ho : t.Orderly count) (h : t.Inward b inner v cv record)
    (ho1 : (t.lower v cv routes b inner).Orderly count)
    (h' : (t.lower v cv routes b inner).Outward inner1 b1 cv inner.nextVertex record)
    (hb1 : b1.node = b.lowered t.config v cv) (hid : inner1.cluster.id = inner.cluster.id) :
    b1.cluster.storage.load.filter (fun entry =>
        cv ∈ entry.1 ∧ entry.2.global.touches (inner1.travelling inner.nextVertex) = true)
      = ((b.cluster.storage.load.filter (fun entry => entry.1 ≠ s(v, cv))).filter
          (fun entry => v ∈ entry.1)).map (fun entry => (entry.1.map (redirect v cv), entry.2))
    ∧ b1.cluster.storage.load.filter (fun entry =>
        ¬ (cv ∈ entry.1 ∧ entry.2.global.touches (inner1.travelling inner.nextVertex) = true))
      = ((b.cluster.storage.load.filter (fun entry => entry.1 ≠ s(v, cv))).filter
          (fun entry => v ∉ entry.1)).map (fun entry => (entry.1.map (redirect v cv), entry.2)) := by
  have hload : b1.cluster.storage.load = (b.cluster.storage.load.filter
      (fun entry => entry.1 ≠ s(v, cv))).map (fun entry => (entry.1.map (redirect v cv), entry.2)) :=
    (congrArg (fun n : Node => n.storage.load) hb1).trans (h.load_lowered ho.sound)
  have hcond : ∀ entry ∈ b.cluster.storage.load.filter (fun entry => entry.1 ≠ s(v, cv)),
      (cv ∈ entry.1.map (redirect v cv)
        ∧ entry.2.global.touches (inner1.travelling inner.nextVertex) = true) ↔ v ∈ entry.1 := by
    intro entry hentry
    rw [h.touches_iff ho ho1 h' hid (Multiset.mem_filter.mp hentry).1]
    refine ⟨fun hboth => hboth.2, fun hv => ⟨Sym2.mem_map.mpr ⟨v, hv, redirect_self ..⟩, hv⟩⟩
  rw [hload]
  exact ⟨filter_map_of_iff hcond,
    filter_map_of_iff (fun entry hentry => not_congr (hcond entry hentry))⟩

/-- In the child, the vertex has the edges that came in with it, and the
    others are those that were there. -/
theorem Inward.load_arrived (hs : t.Sound) (h : t.Inward b inner v cv record)
    (hall : ∀ r ∈ b.inward v cv, ∀ x ∈ r.carried, ∃ w, routes.target? x.global = some w)
    (hi1 : inner1.node = b.sunk t.config inner v cv routes record) :
    inner1.cluster.storage.load.filter (fun entry => inner.nextVertex ∈ entry.1)
      = ((b.cluster.storage.load.filter (fun entry => entry.1 = s(v, cv))).map Prod.snd).map
          (Branch.routed routes inner.nextVertex)
    ∧ inner1.cluster.storage.load.filter (fun entry => inner.nextVertex ∉ entry.1)
      = inner.cluster.storage.load := by
  have hload : inner1.cluster.storage.load = inner.cluster.storage.load
      + ((b.cluster.storage.load.filter (fun entry => entry.1 = s(v, cv))).map Prod.snd).map
          (Branch.routed routes inner.nextVertex) :=
    (congrArg (fun n : Node => n.storage.load) hi1).trans (h.load_sunk hs hall)
  have hold : ∀ entry ∈ inner.cluster.storage.load, inner.nextVertex ∉ entry.1 := fun _ hentry =>
    hs.notMem_of_fresh (node_mem_of_find? h.within) (h.handover hs routes).fresh hentry
  have hnew : ∀ entry ∈ ((b.cluster.storage.load.filter (fun entry => entry.1 = s(v, cv))).map
      Prod.snd).map (Branch.routed routes inner.nextVertex), inner.nextVertex ∈ entry.1 := by
    intro entry hentry
    obtain ⟨x, -, rfl⟩ := Multiset.mem_map.mp hentry
    exact Sym2.mem_mk_left ..
  rw [hload, Multiset.filter_add, Multiset.filter_add]
  constructor
  · rw [Multiset.filter_eq_nil.mpr hold, Multiset.filter_eq_self.mpr hnew, zero_add]
  · rw [Multiset.filter_eq_self.mpr hold,
      Multiset.filter_eq_nil.mpr (fun entry hentry hout => hout (hnew entry hentry)), add_zero]

theorem Inward.load_raised_back (ho : t.Orderly count) (h : t.Inward b inner v cv record)
    (hall : ∀ r ∈ b.inward v cv, ∀ x ∈ r.carried, ∃ w, routes.target? x.global = some w)
    (ho1 : (t.lower v cv routes b inner).Orderly count)
    (h' : (t.lower v cv routes b inner).Outward inner1 b1 cv inner.nextVertex record)
    (hb1 : b1.node = b.lowered t.config v cv)
    (hi1 : inner1.node = b.sunk t.config inner v cv routes record) :
    (b1.raised (t.lower v cv routes b inner).config inner1 cv inner.nextVertex record).storage.load
      = b.node.storage.load.map (fun entry => (entry.1.map (redirect v b1.nextVertex), entry.2)) := by
  have hid : inner1.cluster.id = inner.cluster.id :=
    (congrArg Node.id hi1).trans (h.handover ho.sound routes).takerId
  obtain ⟨hback, hstay⟩ := h.load_sent ho ho1 h' hb1 hid
  obtain ⟨hout, -⟩ := h.load_arrived ho.sound hall hi1
  generalize hw : b1.nextVertex = w'
  -- What stayed, what went into the child, and what ended at the child instead.
  let others := b.cluster.storage.load.filter (fun entry => entry.1 ≠ s(v, cv))
  have hparts : b.node.storage.load = others.filter (fun entry => v ∉ entry.1)
      + (b.cluster.storage.load.filter (fun entry => entry.1 = s(v, cv))
        + others.filter (fun entry => v ∈ entry.1)) := by
    rw [add_left_comm, add_comm (others.filter _), Multiset.filter_add_not, Multiset.filter_add_not]
    rfl
  rw [h'.load_raised ho1.sound, hstay, hback, hout, hw, hparts, Multiset.map_add, Multiset.map_add]
  congr 1
  · refine Multiset.map_congr rfl (fun entry hentry => ?_)
    have hv := (Multiset.mem_filter.mp hentry).2
    rw [map_redirect_of_notMem cv hv, map_redirect_of_notMem w' hv]
  congr 1
  · rw [Multiset.map_map, Multiset.map_map]
    refine Multiset.map_congr rfl (fun entry hentry => ?_)
    rw [(Multiset.mem_filter.mp hentry).2, Sym2.map_mk, redirect_self, redirect_of_ne w' h.ne.symm]
    rfl
  · rw [Multiset.map_map]
    refine Multiset.map_congr rfl (fun entry hentry => ?_)
    obtain ⟨hentry, hv⟩ := Multiset.mem_filter.mp hentry
    obtain ⟨hentry, hboth⟩ := Multiset.mem_filter.mp hentry
    have hcv : cv ∉ entry.1 := fun hcv => hboth ((Sym2.mem_and_mem_iff h.ne).mp ⟨hv, hcv⟩)
    exact Prod.ext (map_redirect_map_redirect w' hcv) rfl

theorem Inward.load_drained_back (hs : t.Sound) (h : t.Inward b inner v cv record)
    (hall : ∀ r ∈ b.inward v cv, ∀ x ∈ r.carried, ∃ w, routes.target? x.global = some w)
    (hs1 : (t.lower v cv routes b inner).Sound)
    (h' : (t.lower v cv routes b inner).Outward inner1 b1 cv inner.nextVertex record)
    (hi1 : inner1.node = b.sunk t.config inner v cv routes record) :
    (inner1.drained (t.lower v cv routes b inner).config inner.nextVertex).storage.load
      = inner.node.storage.load :=
  (h'.load_drained hs1).trans (h.load_arrived hs hall hi1).2

/-- What moved in comes out, and everything is as it was. -/
theorem Orderly.moveIn_moveOut (ho : t.Orderly count) (h : t.Inward b inner v cv record) :
    ∃ t1 nv t2 v', t.moveIn b.cluster.id v inner.cluster.id = .ok (t1, nv)
      ∧ t1.moveOut inner.cluster.id nv = .ok (t2, v') ∧ t2.Orderly count
      ∧ t.Alike t2 (renamed b.cluster.id v v') := by
  obtain ⟨routes, hroutes, hin⟩ := h.moveIn_eq ho
  have hall := Branch.exists_target? hroutes
  have ho1 := ho.lower h hroutes
  obtain ⟨b1, inner1, h', hb1, hi1⟩ := h.outward ho.sound ho1.sound
  have hover := h.handover ho.sound routes
  have hover' := h'.handover ho1.sound
  have hout := h'.moveOut_eq ho1.sound
  rw [show inner1.cluster.id = inner.cluster.id from (congrArg Node.id hi1).trans hover.takerId] at hout
  refine ⟨_, _, _, _, hin, hout, ho1.raise h', ?_⟩
  rw [hb1, hi1] at hover'
  exact hover.alike hover' ho.sound.distinct (h.load_raised_back ho hall ho1 h' hb1 hi1)
    (h.load_drained_back ho.sound hall ho1.sound h' hi1)

end ThenOut

/-! ## Edges that went out and come in -/

section ThenIn

variable {b1 inner1 : Branch}

/-- In the cluster around, the edges that went out with the vertex are those
    to the child. -/
theorem Outward.load_arrived (hs : t.Sound) (h : t.Outward inner b cv v record)
    (hne : b.nextVertex ≠ cv) (hb1 : b1.node = b.raised t.config inner cv v record) :
    b1.cluster.storage.load.filter (fun entry => entry.1 = s(b.nextVertex, cv))
      = (inner.cluster.storage.load.filter (fun entry => v ∈ entry.1)).map
          (fun entry => (s(b.nextVertex, cv), entry.2))
    ∧ b1.cluster.storage.load.filter (fun entry => entry.1 ≠ s(b.nextVertex, cv))
      = b.cluster.storage.load.filter (fun entry =>
          ¬ (cv ∈ entry.1 ∧ entry.2.global.touches (inner.travelling v) = true))
        + (b.cluster.storage.load.filter (fun entry =>
            cv ∈ entry.1 ∧ entry.2.global.touches (inner.travelling v) = true)).map
              (fun entry => (entry.1.map (redirect cv b.nextVertex), entry.2)) := by
  let kept := b.cluster.storage.load.filter (fun entry =>
    ¬ (cv ∈ entry.1 ∧ entry.2.global.touches (inner.travelling v) = true))
  let out := (inner.cluster.storage.load.filter (fun entry => v ∈ entry.1)).map
    (fun entry => (s(b.nextVertex, cv), entry.2))
  let lifted := (b.cluster.storage.load.filter (fun entry =>
    cv ∈ entry.1 ∧ entry.2.global.touches (inner.travelling v) = true)).map
      (fun entry => (entry.1.map (redirect cv b.nextVertex), entry.2))
  have hload : b1.cluster.storage.load = kept + (out + lifted) :=
    (congrArg (fun n : Node => n.storage.load) hb1).trans (h.load_raised hs)
  have hkept : ∀ entry ∈ kept, entry.1 ≠ s(b.nextVertex, cv) := by
    intro entry hentry heq
    refine hs.notMem_of_fresh (node_mem_of_find? h.around) (h.handover hs).fresh
      (Multiset.mem_filter.mp hentry).1 ?_
    exact heq ▸ Sym2.mem_mk_left ..
  -- What ended at the child does not end there any more.
  have hlifted : ∀ entry ∈ lifted, entry.1 ≠ s(b.nextVertex, cv) := by
    intro entry hentry heq
    obtain ⟨⟨z, x⟩, hx, rfl⟩ := Multiset.mem_map.mp hentry
    have hcv : cv ∈ z.map (redirect cv b.nextVertex) := by
      rw [show z.map (redirect cv b.nextVertex) = s(b.nextVertex, cv) from heq]
      exact Sym2.mem_mk_right ..
    obtain ⟨u, -, hu⟩ := Sym2.mem_map.mp hcv
    by_cases huc : u = cv
    · rw [huc, redirect_self] at hu
      exact hne hu
    · exact huc ((redirect_of_ne _ huc).symm.trans hu)
  have hout : ∀ entry ∈ out, entry.1 = s(b.nextVertex, cv) := by
    intro entry hentry
    obtain ⟨x, -, rfl⟩ := Multiset.mem_map.mp hentry
    rfl
  rw [hload]
  simp only [Multiset.filter_add]
  constructor
  · rw [Multiset.filter_eq_nil.mpr hkept, Multiset.filter_eq_self.mpr hout,
      Multiset.filter_eq_nil.mpr hlifted, zero_add, add_zero]
  · rw [Multiset.filter_eq_self.mpr hkept,
      Multiset.filter_eq_nil.mpr (fun entry hentry hne => hne (hout entry hentry)),
      Multiset.filter_eq_self.mpr hlifted, zero_add]

theorem Outward.load_lowered_back (hs : t.Sound) (h : t.Outward inner b cv v record)
    (hs1 : (t.raise cv v inner b).Sound)
    (h' : (t.raise cv v inner b).Inward b1 inner1 b.nextVertex cv record)
    (hb1 : b1.node = b.raised t.config inner cv v record) :
    (b1.lowered (t.raise cv v inner b).config b.nextVertex cv).storage.load
      = b.node.storage.load := by
  have hold : ∀ {entry p} [DecidablePred p], entry ∈ b.cluster.storage.load.filter p →
      b.nextVertex ∉ entry.1 := fun hentry =>
    hs.notMem_of_fresh (node_mem_of_find? h.around) (h.handover hs).fresh
      (Multiset.mem_filter.mp hentry).1
  have hstay : ∀ (p : Sym2 LocalVertex × CarriedEdge → Prop) [DecidablePred p],
      (b.cluster.storage.load.filter p).map
        (fun entry => (entry.1.map (redirect b.nextVertex cv), entry.2))
      = b.cluster.storage.load.filter p := by
    intro p _
    refine (Multiset.map_congr rfl (fun entry hentry => ?_)).trans (Multiset.map_id' _)
    rw [map_redirect_of_notMem cv (hold hentry)]
  have hback : ∀ (p : Sym2 LocalVertex × CarriedEdge → Prop) [DecidablePred p],
      ((b.cluster.storage.load.filter p).map
        (fun entry => (entry.1.map (redirect cv b.nextVertex), entry.2))).map
          (fun entry => (entry.1.map (redirect b.nextVertex cv), entry.2))
      = b.cluster.storage.load.filter p := by
    intro p _
    rw [Multiset.map_map]
    refine (Multiset.map_congr rfl (fun entry hentry => ?_)).trans (Multiset.map_id' _)
    exact Prod.ext (map_redirect_back (hold hentry)) rfl
  rw [h'.load_lowered hs1, (h.load_arrived hs h'.ne hb1).2, Multiset.map_add, hstay, hback, add_comm]
  exact Multiset.filter_add_not _ _

/-- An edge that went out with the vertex comes in to where its other end
    stands. -/
theorem Outward.target?_back (ho : t.Orderly count) (h : t.Outward inner b cv v record)
    (ho1 : (t.raise cv v inner b).Orderly count)
    (h' : (t.raise cv v inner b).Inward b1 inner1 b.nextVertex cv record)
    (hi1 : inner1.cluster.id = inner.cluster.id)
    (hroutes : inner1.routes (b1.travelling b.nextVertex)
      ((b1.inward b.nextVertex cv).flatMap EdgeRecord.globals) = .ok routes)
    {u : LocalVertex} {x : CarriedEdge} (hx : (s(v, u), x) ∈ inner.cluster.storage.load)
    (hx1 : (s(b.nextVertex, cv), x) ∈ b1.cluster.storage.load) :
    routes.target? x.global = some u := by
  have hs := ho.sound
  have hinner := node_mem_of_find? h.within
  have hne : v ≠ u := (hs.nodes _ hinner).storage.ne_of_mem_load hx
  obtain ⟨near, far, y, -, hfar, hroute, hends⟩ := h'.ends ho1
    (ho1.placed _ (node_mem_of_find? h'.around) _ _ (Storage.mem_carries.mpr ⟨x, hx1, rfl⟩))
  rw [h'.target?_eq ho1 hroutes hx1, hroute]
  rw [hi1] at hfar
  -- What stood on the vertex is not in the child any more.
  have hgone : ¬ t.Stands inner.cluster.id v far := by
    intro hst
    have hout := (h.handover hs).stands_moved hs.distinct hst
    obtain ⟨n, hn, w, hl, hord⟩ := hfar
    refine h'.ne (ho1.stands_unique hout ⟨n, hn, w, ?_, hord⟩)
    exact (h.leads_raise hs y).trans hl
  have hstay : ∀ {a}, t.Stands inner.cluster.id a far → a ∈ s(v, u) → some y = some u := by
    intro a ha hmem
    rcases Sym2.mem_iff.mp hmem with rfl | rfl
    · exact absurd ha hgone
    · rw [ho1.stands_unique hfar (h.stands_within hs ha hne.symm)]
  obtain ⟨a, a', heq, hsource, htarget⟩ := ho.placed _ hinner _ x.global
    (Storage.mem_carries.mpr ⟨x, hx, rfl⟩)
  rcases hends with ⟨-, rfl⟩ | ⟨rfl, -⟩
  · exact hstay htarget (heq ▸ Sym2.mem_mk_right ..)
  · exact hstay hsource (heq ▸ Sym2.mem_mk_left ..)

/-- The edges that went out with the vertex end at it where they ended. -/
theorem Outward.load_sunk_back (ho : t.Orderly count) (h : t.Outward inner b cv v record)
    (ho1 : (t.raise cv v inner b).Orderly count)
    (h' : (t.raise cv v inner b).Inward b1 inner1 b.nextVertex cv record)
    (hb1 : b1.node = b.raised t.config inner cv v record)
    (hi1 : inner1.node = inner.drained t.config v)
    (hroutes : inner1.routes (b1.travelling b.nextVertex)
      ((b1.inward b.nextVertex cv).flatMap EdgeRecord.globals) = .ok routes) :
    (b1.sunk (t.raise cv v inner b).config inner1 b.nextVertex cv routes record).storage.load
      = inner.node.storage.load.map (fun entry =>
          (entry.1.map (redirect v inner1.nextVertex), entry.2)) := by
  have hs := ho.sound
  have hid : inner1.cluster.id = inner.cluster.id :=
    (congrArg Node.id hi1).trans (h.handover hs).giverId
  have hinner1 : inner1.cluster.storage.load
      = inner.cluster.storage.load.filter (fun entry => v ∉ entry.1) :=
    (congrArg (fun n : Node => n.storage.load) hi1).trans (h.load_drained hs)
  obtain ⟨hout, -⟩ := h.load_arrived hs h'.ne hb1
  rw [h'.load_sunk ho1.sound (Branch.exists_target? hroutes), hinner1, hout, Multiset.map_map,
    Multiset.map_map]
  generalize hw : inner1.nextVertex = w'
  show _ = inner.cluster.storage.load.map _
  rw [← Multiset.filter_add_not (fun entry => v ∉ entry.1) inner.cluster.storage.load,
    Multiset.map_add, Multiset.filter_add_not]
  -- Edges away from the vertex never left; the others come back by their routes.
  congr 1
  · refine ((Multiset.map_congr rfl (fun entry hentry => ?_)).trans (Multiset.map_id' _)).symm
    rw [map_redirect_of_notMem w' (Multiset.mem_filter.mp hentry).2]
  · rw [Multiset.filter_congr (fun entry _ => not_not)]
    refine Multiset.map_congr rfl (fun entry hentry => ?_)
    obtain ⟨z, x⟩ := entry
    obtain ⟨hx, hv⟩ := Multiset.mem_filter.mp hentry
    obtain ⟨u, rfl⟩ := Sym2.mem_iff_exists.mp hv
    have hne : v ≠ u := (hs.nodes _ (node_mem_of_find? h.within)).storage.ne_of_mem_load hx
    have hx1 : (s(b.nextVertex, cv), x) ∈ b1.cluster.storage.load := by
      refine (Multiset.mem_filter (p := fun entry => entry.1 = s(b.nextVertex, cv)).mp ?_).1
      rw [hout]
      exact Multiset.mem_map.mpr ⟨_, hentry, rfl⟩
    have htarget := h.target?_back ho ho1 h' hid hroutes hx hx1
    show (s(w', (routes.target? x.global).getD w'), x) = _
    rw [htarget, Option.getD_some, Sym2.map_mk, redirect_self, redirect_of_ne w' hne.symm]

/-- What moved out comes in, and everything is as it was. -/
theorem Orderly.moveOut_moveIn (ho : t.Orderly count) (h : t.Outward inner b cv v record) :
    ∃ t1 nv t2 v', t.moveOut inner.cluster.id v = .ok (t1, nv)
      ∧ t1.moveIn b.cluster.id nv inner.cluster.id = .ok (t2, v') ∧ t2.Orderly count
      ∧ t.Alike t2 (renamed inner.cluster.id v v') := by
  have hout := h.moveOut_eq ho.sound
  have ho1 := ho.raise h
  obtain ⟨b1, inner1, h', hb1, hi1⟩ := h.inward ho.sound ho1.sound
  have hover := h.handover ho.sound
  obtain ⟨routes, hroutes, hin⟩ := h'.moveIn_eq ho1
  rw [show b1.cluster.id = b.cluster.id from (congrArg Node.id hb1).trans hover.takerId,
    show inner1.cluster.id = inner.cluster.id from (congrArg Node.id hi1).trans hover.giverId] at hin
  have hover' := h'.handover ho1.sound routes
  refine ⟨_, _, _, _, hout, hin, ho1.lower h' hroutes, ?_⟩
  rw [hb1, hi1] at hover'
  exact hover.alike hover' ho.sound.distinct (h.load_sunk_back ho ho1 h' hb1 hi1 hroutes)
    (h.load_lowered_back ho.sound ho1.sound h' hb1)

end ThenIn

/-! ## Vertices that may move -/

/-- A vertex may move into a child on another vertex. -/
theorem Sound.inward (hs : t.Sound) {c child : ClusterId} (hv : v ∈ t.vertices c)
    (hchild : (cv, child) ∈ t.children c) (hne : v ≠ cv) :
    ∃ b inner record, t.Inward b inner v cv record ∧ b.cluster.id = c ∧ inner.cluster.id = child := by
  obtain ⟨n, hn, rfl, he⟩ := exists_node_of_children hchild
  obtain ⟨b, hb, rfl⟩ := hs.distinct.find?_of_mem hn
  obtain ⟨inner, hi⟩ := mem_ids_iff.mp (Distinct.child_live hn he)
  obtain ⟨record, hrecord⟩ := Storage.hasVertex_iff.mp ((hs.distinct.mem_vertices hn).mp hv)
  obtain rfl := id_of_find? hi
  exact ⟨b, inner, record, ⟨hb, hi, he, hrecord, hne⟩, rfl, rfl⟩

/-- A vertex of a child may move out. -/
theorem Sound.outward (hs : t.Sound) {c child : ClusterId} (hv : v ∈ t.vertices child)
    (hchild : (cv, child) ∈ t.children c) :
    ∃ b inner record, t.Outward inner b cv v record ∧ b.cluster.id = c ∧ inner.cluster.id = child := by
  obtain ⟨n, hn, rfl, he⟩ := exists_node_of_children hchild
  obtain ⟨b, hb, rfl⟩ := hs.distinct.find?_of_mem hn
  obtain ⟨inner, hi⟩ := mem_ids_iff.mp (Distinct.child_live hn he)
  obtain rfl := id_of_find? hi
  obtain ⟨record, hrecord⟩ := Storage.hasVertex_iff.mp
    ((hs.distinct.mem_vertices (node_mem_of_find? hi)).mp hv)
  exact ⟨b, inner, record, ⟨hi, hb, he, hrecord⟩, rfl, rfl⟩

end Tree

namespace Workspace

variable {w : Workspace} {number : Nat} {m : Member}

/-- Two moves of one tree, one after the other. -/
theorem step_moves (hw : w.Sound) (hm : w.members[number]? = some m) (first second : Command)
    {t1 t2 : Tree} {nv v' : LocalVertex}
    (hfirst : ∀ ids, (⟨m.tree, ids⟩ : Graph).perform first = .ok (⟨t1, ids⟩, .moved nv))
    (hsecond : ∀ ids, (⟨t1, ids⟩ : Graph).perform second = .ok (⟨t2, ids⟩, .moved v')) :
    ∃ w1 w2 m', w.step (.change number first) = (w1, .ok (.moved nv))
      ∧ w1.step (.change number second) = (w2, .ok (.moved v'))
      ∧ w2.members[number]? = some m' ∧ m'.tree = t2 := by
  obtain ⟨ids, hg⟩ := hw.exists_graph? hm
  have hstep := step_change hw hg (hfirst ids)
  generalize hw1 : ({ w.put number ⟨t1, ids⟩ with
    reported := w.reported ++ (Reply.moved nv).removals } : Workspace) = w1 at hstep
  have hs1 := (hw.becomes_step (.change number first)).sound
  rw [hstep] at hs1
  have hg1 : w1.graph? number = some ⟨t1, ids⟩ := by
    rw [← hw1]
    exact graph?_put hg ⟨t1, ids⟩
  have hstep1 := step_change hs1 hg1 (hsecond ids)
  obtain ⟨m', ids', hm', -, heq⟩ := graph?_eq_some.mp (graph?_put hg1 ⟨t2, ids⟩)
  exact ⟨_, _, m', hstep, hstep1, hm', (Graph.mk.inj heq).1.symm⟩

/-- **ROUND TRIP**: whatever well-behaved callers did, a vertex that moves
    into a child and out again, or out of a child and in again, is moved
    both times, and comes back under another handle.  Apart from that the
    tree is as it was. -/
theorem roundTrip_run {operations : List Operation} (h : empty.WellBehaved operations)
    (hm : (empty.run operations).members[number]? = some m) :
    (∀ c v place child, v ∈ m.tree.vertices c → (place, child) ∈ m.tree.children c → v ≠ place →
      ∃ w1 nv w2 v' m',
        (empty.run operations).step (.change number (.moveIn c v child)) = (w1, .ok (.moved nv))
        ∧ w1.step (.change number (.moveOut child nv)) = (w2, .ok (.moved v'))
        ∧ w2.members[number]? = some m' ∧ m.tree.Agrees m'.tree (Tree.renamed c v v'))
    ∧ ∀ c v place child, v ∈ m.tree.vertices child → (place, child) ∈ m.tree.children c →
      ∃ w1 nv w2 v' m',
        (empty.run operations).step (.change number (.moveOut child v)) = (w1, .ok (.moved nv))
        ∧ w1.step (.change number (.moveIn c nv child)) = (w2, .ok (.moved v'))
        ∧ w2.members[number]? = some m' ∧ m.tree.Agrees m'.tree (Tree.renamed child v v') := by
  have hordered := ordered_empty.run h
  have hmem := List.mem_of_getElem? hm
  have ho := hordered.trees m hmem _ (List.getElem?_eq_getElem (hordered.sound.sources m hmem))
  constructor
  · intro c v place child hv hchild hne
    obtain ⟨b, inner, record, hin, rfl, rfl⟩ := ho.sound.inward hv hchild hne
    obtain ⟨t1, nv, t2, v', hfirst, hsecond, ho2, halike⟩ := ho.moveIn_moveOut hin
    obtain ⟨w1, w2, m', hstep, hstep', hm', rfl⟩ := step_moves hordered.sound hm
      (.moveIn b.cluster.id v inner.cluster.id) (.moveOut inner.cluster.id nv)
      (fun ids => congrArg (Functor.map (Graph.moving ⟨m.tree, ids⟩)) hfirst)
      (fun ids => congrArg (Functor.map (Graph.moving ⟨t1, ids⟩)) hsecond)
    exact ⟨w1, nv, w2, v', m', hstep, hstep', hm', halike.agrees ho ho2⟩
  · intro c v place child hv hchild
    obtain ⟨b, inner, record, hout, rfl, rfl⟩ := ho.sound.outward hv hchild
    obtain ⟨t1, nv, t2, v', hfirst, hsecond, ho2, halike⟩ := ho.moveOut_moveIn hout
    obtain ⟨w1, w2, m', hstep, hstep', hm', rfl⟩ := step_moves hordered.sound hm
      (.moveOut inner.cluster.id v) (.moveIn b.cluster.id nv inner.cluster.id)
      (fun ids => congrArg (Functor.map (Graph.moving ⟨m.tree, ids⟩)) hfirst)
      (fun ids => congrArg (Functor.map (Graph.moving ⟨t1, ids⟩)) hsecond)
    exact ⟨w1, nv, w2, v', m', hstep, hstep', hm', halike.agrees ho ho2⟩

/-- A vertex with edges to the child, inside it and to a neighbour goes in
    and comes out. -/
theorem roundTrip_neighbour :
    let operations := [Operation.newGraph (.declared []) .fresh,
      .change 0 (.addCluster Tree.rootId), .change 0 (.addVertex Tree.rootId),
      .change 0 (.addVertex Tree.rootId), .change 0 (.addVertex ⟨1⟩),
      .change 0 (.connect Tree.rootId ⟨12⟩ ⟨13⟩), .change 0 (.connect Tree.rootId ⟨12⟩ ⟨14⟩)]
    empty.WellBehaved operations ∧ ∃ m, (empty.run operations).members[0]? = some m
      ∧ ∃ w1 nv w2 v' m',
        (empty.run operations).step (.change 0 (.moveIn Tree.rootId ⟨1, 0⟩ ⟨1⟩))
          = (w1, .ok (.moved nv))
        ∧ w1.step (.change 0 (.moveOut ⟨1⟩ nv)) = (w2, .ok (.moved v'))
        ∧ w2.members[0]? = some m' ∧ m.tree.Agrees m'.tree (Tree.renamed Tree.rootId ⟨1, 0⟩ v') := by
  intro operations
  have h : empty.WellBehaved operations := by decide +kernel
  have hrun : ∃ m ∈ (empty.run operations).members[0]?,
      (⟨1, 0⟩ : LocalVertex) ∈ m.tree.vertices Tree.rootId
        ∧ (⟨0, 0⟩, ⟨1⟩) ∈ m.tree.children Tree.rootId := by decide +kernel
  obtain ⟨m, hm, hv, hchild⟩ := hrun
  exact ⟨h, m, hm, (roundTrip_run h hm).1 _ _ _ _ hv hchild (by decide)⟩

end Workspace

end NestedGraph
