import NestedGraph.Proofs.Tracking

/-! # Thinning — what removals leave

    A removal THINS the clusters that stay.  Vertices other than those
    that go keep all there is about them.  An edge that stays keeps its
    handle, its ends in their order and its properties, and carries
    nothing that it did not carry.  The slot of an edge that went is free
    and one generation older, so nothing that comes later brings back the
    old handle. -/

namespace NestedGraph

/-! ## Freed slots -/

namespace SlotStore

variable {entity : Entity} {α : Type} {s : SlotStore entity α} {h k : Handle entity}

/-- What the handle resolved to was removed, and its slot is free since. -/
def Freed (s : SlotStore entity α) (h : Handle entity) : Prop :=
  s.generation h.index = h.generation + 1 ∧ s.slots[h.index]?.join = none

/-- The handle's slot is of another generation, so nothing in it is what the
    handle stood for. -/
def Outdated (s : SlotStore entity α) (h : Handle entity) : Prop :=
  s.generation h.index ≠ h.generation

theorem freed_erase {a : α} (ha : s.get? h = some a) : (s.erase h).Freed h := by
  obtain ⟨hgen, hslot⟩ := get?_eq_some_iff.mp ha
  rw [erase, ha]
  constructor
  · show (incrementAt s.generations h.index).getD h.index 0 = _
    rw [getD_incrementAt, if_pos rfl, ← hgen, generation]
  · show (s.slots.set h.index none)[h.index]?.join = none
    rw [List.getElem?_set_self (List.getElem?_eq_some_iff.mp hslot).1]
    rfl

theorem Freed.index_ne (hf : s.Freed h) {a : α} (ha : s.get? k = some a) : k.index ≠ h.index := by
  intro heq
  have hslot := hf.2
  rw [← heq, (get?_eq_some_iff.mp ha).2] at hslot
  exact nomatch hslot

/-- Two entities are not in one slot, so no other removal touches a slot that
    is free. -/
theorem Freed.erase (hf : s.Freed h) (k : Handle entity) : (s.erase k).Freed h := by
  cases ha : s.get? k with
  | none => rwa [erase_of_dead ha]
  | some a =>
      have hne := hf.index_ne ha
      rw [SlotStore.erase, ha]
      constructor
      · show (incrementAt s.generations k.index).getD h.index 0 = _
        rw [getD_incrementAt, if_neg (Ne.symm hne)]
        exact hf.1
      · show (s.slots.set k.index none)[h.index]?.join = none
        rw [List.getElem?_set_ne hne]
        exact hf.2

theorem Freed.modify (hf : s.Freed h) (k : Handle entity) (f : α → α) : (s.modify k f).Freed h := by
  cases ha : s.get? k with
  | none => rwa [modify_of_dead f ha]
  | some a =>
      rw [SlotStore.modify, ha]
      refine ⟨hf.1, ?_⟩
      show (s.slots.set k.index _)[h.index]?.join = none
      rw [List.getElem?_set_ne (hf.index_ne ha)]
      exact hf.2

theorem Freed.outdated (hf : s.Freed h) : s.Outdated h := by
  -- Generations wrap around, but not by going up once.
  rw [Outdated, hf.1]
  simp

theorem Outdated.get? (ho : s.Outdated h) : s.get? h = none := if_neg ho

theorem Outdated.insert (ho : s.Outdated h) (a : α) : (s.insert a).Outdated h := by
  rwa [Outdated, generation_insert]

theorem Outdated.modify (ho : s.Outdated h) (k : Handle entity) (f : α → α) :
    (s.modify k f).Outdated h := by
  rw [SlotStore.modify]
  split
  · exact ho
  · exact ho

end SlotStore

/-! ## Storages -/

namespace Storage

variable {s s' s'' : Storage} {e : LocalEdge}

/-- Edges went, and edges that stayed lost some of what they carried. -/
structure Thinned (s s' : Storage) : Prop where
  back : ∀ e l', s'.link? e = some l' → ∃ l, s.link? e = some l ∧ l'.first = l.first
    ∧ l'.second = l.second ∧ l'.record.properties = l.record.properties
    ∧ ∀ x ∈ l'.record.carried, x ∈ l.record.carried
  freed : ∀ e, (∃ l, s.link? e = some l) ∨ s.edges.Freed e →
    (∃ l, s'.link? e = some l) ∨ s'.edges.Freed e

theorem Thinned.refl (s : Storage) : s.Thinned s :=
  ⟨fun _ l hl => ⟨l, hl, rfl, rfl, rfl, fun _ hx => hx⟩, fun _ h => h⟩

theorem Thinned.trans (h : s.Thinned s') (h' : s'.Thinned s'') : s.Thinned s'' := by
  refine ⟨fun e l'' hl'' => ?_, fun e he => h'.freed e (h.freed e he)⟩
  obtain ⟨l', hl', hfirst', hsecond', hprops', hcarried'⟩ := h'.back e l'' hl''
  obtain ⟨l, hl, hfirst, hsecond, hprops, hcarried⟩ := h.back e l' hl'
  exact ⟨l, hl, hfirst'.trans hfirst, hsecond'.trans hsecond, hprops'.trans hprops,
    fun x hx => hcarried x (hcarried' x hx)⟩

/-- Vertices do not count. -/
theorem thinned_of_edges (h : s'.edges = s.edges) : s.Thinned s' := by
  have hlink : ∀ e, s'.link? e = s.link? e := fun e => congrArg (·.get? e) h
  refine ⟨fun e l hl => ⟨l, hlink e ▸ hl, rfl, rfl, rfl, fun _ hx => hx⟩, fun e he => ?_⟩
  rwa [hlink, h]

theorem thinned_removeEdge (s : Storage) (e : LocalEdge) : s.Thinned (s.removeEdge e) := by
  refine ⟨fun k l hl => ?_, fun k hk => ?_⟩
  · rw [link?_removeEdge] at hl
    split at hl
    · exact nomatch hl
    · exact ⟨l, hl, rfl, rfl, rfl, fun _ hx => hx⟩
  · rcases hk with ⟨l, hl⟩ | hfree
    · by_cases heq : k = e
      · subst heq
        exact Or.inr (SlotStore.freed_erase hl)
      · refine Or.inl ⟨l, ?_⟩
        rwa [link?_removeEdge, if_neg heq]
    · exact Or.inr (hfree.erase e)

theorem thinned_modifyEdge (s : Storage) (e : LocalEdge) {f : EdgeRecord → EdgeRecord}
    (hprops : ∀ r, (f r).properties = r.properties)
    (hcarried : ∀ r, ∀ x ∈ (f r).carried, x ∈ r.carried) : s.Thinned (s.modifyEdge e f) := by
  refine ⟨fun k l' hl' => ?_, fun k hk => ?_⟩
  · rw [link?_modifyEdge] at hl'
    split at hl'
    · rename_i heq
      obtain ⟨l, hl, rfl⟩ := Option.map_eq_some_iff.mp hl'
      exact ⟨l, heq ▸ hl, rfl, rfl, hprops _, hcarried _⟩
    · exact ⟨l', hl', rfl, rfl, rfl, fun _ hx => hx⟩
  · rcases hk with ⟨l, hl⟩ | hfree
    · refine Or.inl ?_
      rw [link?_modifyEdge]
      split
      · rename_i heq
        rw [← heq, hl]
        exact ⟨_, rfl⟩
      · exact ⟨l, hl⟩
    · exact Or.inr (hfree.modify ..)

theorem thinned_withdraw (s : Storage) (p : GlobalEdge → Bool) (e : LocalEdge) :
    s.Thinned (s.withdraw p e) := by
  have hrest : s.Thinned (s.modifyEdge e (fun r => r.without p)) :=
    s.thinned_modifyEdge e (fun _ => rfl) (fun _ _ hx => (List.mem_filter.mp hx).1)
  rw [withdraw]
  split
  · exact .refl s
  · dsimp only
    split
    · exact hrest.trans (thinned_removeEdge _ e)
    · exact hrest

theorem thinned_foldl {f : Storage → LocalEdge → Storage}
    (hf : ∀ (s : Storage) (e : LocalEdge), s.Thinned (f s e)) (s : Storage) (es : List LocalEdge) :
    s.Thinned (es.foldl f s) := by
  induction es generalizing s with
  | nil => exact .refl s
  | cons e rest ih => exact (hf s e).trans (ih (f s e))

theorem thinned_withdrawAt (s : Storage) (p : GlobalEdge → Bool) (v : LocalVertex) :
    s.Thinned (s.withdrawAt p v) :=
  thinned_foldl (fun s e => s.thinned_withdraw p e) s _

theorem thinned_removeVertex (s : Storage) (v : LocalVertex) : s.Thinned (s.removeVertex v) :=
  (thinned_foldl thinned_removeEdge s (s.incident v)).trans (thinned_of_edges rfl)

end Storage

/-! ## The attributes of a cluster -/

/-- Writing one property leaves the others. -/
theorem Layout.read_put_of_ne {l : Layout} {type other : AttributeType} (hne : type ≠ other)
    (value : Value) (slots : List Value) :
    l.read type (l.put other value slots) = l.read type slots := by
  rw [put]
  split
  · rename_i slots' hw
    obtain ⟨i, hi, hw⟩ := of_bind_eq_ok hw
    split at hw
    · split at hw
      · obtain rfl := Except.ok.inj hw
        rw [read, read, require]
        split
        · rename_i j hj
          rw [require] at hi
          split at hi
          · rename_i i' hi'
            obtain rfl := Except.ok.inj hi
            have hij : i' ≠ j := by
              rintro rfl
              exact hne (Option.some.inj ((getElem?_of_position? hj).symm.trans
                (getElem?_of_position? hi')))
            rw [ok_bind, ok_bind, List.getElem?_set_ne hij]
          · cases hi
        · rfl
      · cases hw
    · cases hw
  · rfl

/-- The copy mode is the same, and each property but the change flag. -/
structure Cluster.SameStyle (config : Config) (k k' : Cluster) : Prop where
  mode : k'.copyMode = k.copyMode
  properties : ∀ type, type ≠ changedFlag →
    config.cluster.read type k'.properties = config.cluster.read type k.properties

namespace Cluster

variable {config : Config} {k k' k'' : Cluster}

theorem sameStyle_of_eq (hmode : k'.copyMode = k.copyMode) (hprops : k'.properties = k.properties) :
    k.SameStyle config k' := ⟨hmode, fun _ _ => by rw [hprops]⟩

theorem SameStyle.refl (k : Cluster) : k.SameStyle config k := sameStyle_of_eq rfl rfl

theorem SameStyle.trans (h : k.SameStyle config k') (h' : k'.SameStyle config k'') :
    k.SameStyle config k'' :=
  ⟨h'.mode.trans h.mode, fun type hne => (h'.properties type hne).trans (h.properties type hne)⟩

theorem sameStyle_mark (config : Config) (k : Cluster) : k.SameStyle config (k.mark config) := by
  refine ⟨copyMode_mark .., fun type hne => ?_⟩
  rw [mark]
  split
  · rfl
  · exact Layout.read_put_of_ne hne _ _

end Cluster

/-! ## Clusters -/

namespace Node

variable {config : Config} {gone gone' : LocalVertex → Prop} {n n' n'' : Node}

/-- A cluster lost vertices, edges and parts of edges, and nothing else. -/
structure Thinned (config : Config) (gone : LocalVertex → Prop) (n n' : Node) : Prop where
  id : n'.id = n.id
  style : n.cluster.SameStyle config n'.cluster
  edges : n.storage.Thinned n'.storage
  kept : ∀ v, ¬ gone v → n'.storage.vertex? v = n.storage.vertex? v
  lost : ∀ v, gone v → n'.storage.vertex? v = none

theorem Thinned.refl (n : Node) : n.Thinned config (fun _ => False) n :=
  ⟨rfl, .refl _, .refl _, fun _ _ => rfl, fun _ h => h.elim⟩

theorem Thinned.trans (h : n.Thinned config gone n') (h' : n'.Thinned config gone' n'') :
    n.Thinned config (fun v => gone v ∨ gone' v) n'' := by
  refine ⟨h'.id.trans h.id, h.style.trans h'.style, h.edges.trans h'.edges, fun v hv => ?_,
    fun v hv => ?_⟩
  · rw [not_or] at hv
    exact (h'.kept v hv.2).trans (h.kept v hv.1)
  · by_cases hlast : gone' v
    · exact h'.lost v hlast
    · exact (h'.kept v hlast).trans (h.lost v (hv.resolve_right hlast))

theorem Thinned.congr (h : n.Thinned config gone n') (heq : ∀ v, gone v ↔ gone' v) :
    n.Thinned config gone' n' := by
  rwa [← funext (fun v => propext (heq v))]

/-- Edges that go take no vertex along. -/
theorem thinned_of_storage {k : Cluster} {entries : List (LocalVertex × ClusterId)}
    (hid : k.id = n.id) (hstyle : n.cluster.SameStyle config k)
    (hedges : n.storage.Thinned k.storage) (hvertices : k.storage.vertices = n.storage.vertices) :
    n.Thinned config (fun _ => False) ⟨k, entries⟩ :=
  ⟨hid, hstyle, hedges, fun v _ => congrArg (·.get? v) hvertices, fun _ h => h.elim⟩

theorem thinned_mark (config : Config) (n : Node) :
    n.Thinned config (fun _ => False) (n.mark config) := by
  have hstorage : (n.cluster.mark config).storage = n.storage := Cluster.storage_mark ..
  refine thinned_of_storage (Cluster.id_mark ..) (Cluster.sameStyle_mark ..) ?_ ?_
  · rw [hstorage]
    exact .refl _
  · rw [hstorage]

theorem Thinned.mark (h : n.Thinned config gone n') : n.Thinned config gone (n'.mark config) :=
  (h.trans (thinned_mark config n')).congr (by simp)

theorem thinned_cut (config : Config) (v : LocalVertex) (n : Node) :
    n.Thinned config (fun w => w = v) (n.cut v) := by
  refine ⟨rfl, Cluster.sameStyle_of_eq rfl rfl, Storage.thinned_removeVertex .., fun w hw => ?_,
    fun w hw => ?_⟩
  · rw [storage_cut, Storage.vertex?_removeVertex, if_neg hw]
  · rw [storage_cut, Storage.vertex?_removeVertex, if_pos hw]

theorem thinned_withdrawSteps (config : Config) (p : GlobalEdge → Bool)
    (steps : List (ClusterId × LocalVertex)) (n : Node) :
    n.Thinned config (fun _ => False) (n.withdrawSteps config p steps) := by
  induction steps generalizing n with
  | nil => exact .refl n
  | cons step rest ih =>
      have hfirst : n.Thinned config (fun _ => False)
          (n.changeAt step.1 (Cluster.withdrawAt config p step.2)) := by
        rw [changeAt]
        split
        · have hstorage : (n.cluster.withdrawAt config p step.2).storage
              = n.storage.withdrawAt p step.2 := Cluster.storage_withdrawAt ..
          refine thinned_of_storage (Cluster.id_withdrawAt ..) ?_ ?_ ?_
          · rw [Cluster.withdrawAt]
            split
            · exact .refl _
            · have hinner : n.cluster.SameStyle config
                  { n.cluster with storage := n.cluster.storage.withdrawAt p step.2 } :=
                Cluster.sameStyle_of_eq rfl rfl
              exact hinner.trans (Cluster.sameStyle_mark ..)
          · rw [hstorage]
            exact Storage.thinned_withdrawAt ..
          · rw [hstorage, Storage.vertices_withdrawAt]
        · exact .refl n
      exact (hfirst.trans (ih _)).congr (by simp)

end Node

/-! ## Trees -/

namespace Tree

variable {t t' t'' : Tree} {gone gone' : ClusterId → LocalVertex → Prop} {c : ClusterId}
  {v : LocalVertex}

/-- Every cluster that is there was there, and is thinned. -/
def Thinned (t t' : Tree) (gone : ClusterId → LocalVertex → Prop) : Prop :=
  ∀ n' ∈ t'.nodes, ∃ n ∈ t.nodes, n.Thinned t.config (gone n.id) n'

theorem Thinned.refl (t : Tree) : t.Thinned t (fun _ _ => False) := fun n hn => ⟨n, hn, .refl n⟩

theorem Thinned.trans (h : t.Thinned t' gone) (h' : t'.Thinned t'' gone')
    (hconfig : t'.config = t.config) : t.Thinned t'' (fun d w => gone d w ∨ gone' d w) := by
  intro n'' hn''
  obtain ⟨n', hn', hthin'⟩ := h' n'' hn''
  obtain ⟨n, hn, hthin⟩ := h n' hn'
  rw [hconfig, hthin.id] at hthin'
  exact ⟨n, hn, hthin.trans hthin'⟩

theorem Thinned.congr (h : t.Thinned t' gone) (heq : ∀ d ∈ t.ids, ∀ w, gone d w ↔ gone' d w) :
    t.Thinned t' gone' := by
  intro n' hn'
  obtain ⟨n, hn, hthin⟩ := h n' hn'
  exact ⟨n, hn, hthin.congr (heq n.id (Multiset.mem_map_of_mem Node.id hn))⟩

/-- Changing a cluster in place thins it if that does. -/
theorem Distinct.thinned_mapCluster (hd : t.Distinct) (c : ClusterId) {f : Cluster → Cluster}
    (hf : ∀ k : Cluster, (f k).id = k.id)
    (h : ∀ n ∈ t.nodes, n.Thinned t.config (fun _ => False) ⟨f n.cluster, n.entries⟩) :
    t.Thinned (t.mapCluster c f) (fun _ _ => False) := by
  intro n' hn'
  rw [hd.nodes_mapCluster c hf] at hn'
  obtain ⟨n, hn, rfl⟩ := Multiset.mem_map.mp hn'
  refine ⟨n, hn, ?_⟩
  rw [Node.changeAt]
  split
  · exact h n hn
  · exact .refl n

theorem Distinct.thinned_mapStorage (hd : t.Distinct) (c : ClusterId) {f : Storage → Storage}
    (hedges : ∀ s : Storage, s.Thinned (f s))
    (hvertices : ∀ s : Storage, (f s).vertices = s.vertices) :
    t.Thinned (t.mapStorage c f) (fun _ _ => False) :=
  hd.thinned_mapCluster c (f := fun k => { k with storage := f k.storage }) (fun _ => rfl)
    (fun _ _ =>
      Node.thinned_of_storage rfl (Cluster.sameStyle_of_eq rfl rfl) (hedges _) (hvertices _))

theorem Distinct.thinned_mark (hd : t.Distinct) (c : ClusterId) :
    t.Thinned (t.mark c) (fun _ _ => False) :=
  hd.thinned_mapCluster c (Cluster.id_mark t.config) (fun n _ => n.thinned_mark t.config)

theorem Distinct.thinned_foldl_mark (hd : t.Distinct) (cs : List ClusterId) :
    t.Thinned (cs.foldl Tree.mark t) (fun _ _ => False) := by
  induction cs generalizing t with
  | nil => exact .refl t
  | cons c rest ih => exact ((hd.thinned_mark c).trans (ih (hd.mark c)) rfl).congr (by simp)

theorem Thinned.mark (h : t.Thinned t' gone) (hd : t'.Distinct) (hconfig : t'.config = t.config)
    (c : ClusterId) : t.Thinned (t'.mark c) gone :=
  (h.trans (hd.thinned_mark c) hconfig).congr (by simp)

theorem Thinned.markUpTo (h : t.Thinned t' gone) (hd : t'.Distinct) (hconfig : t'.config = t.config)
    (c last : ClusterId) : t.Thinned (t'.markUpTo c last) gone :=
  (h.trans (hd.thinned_foldl_mark _) hconfig).congr (by simp)

/-! ### Removals -/

theorem Sound.thinned_cutAt (hs : t.Sound) (c : ClusterId) (v : LocalVertex) :
    t.Thinned (t.cutAt c v) (fun d w => d = c ∧ w = v) := by
  intro n' hn'
  rcases hs.cut_or_other hn' with ⟨b, hb, rfl⟩ | ⟨hn, hne⟩
  · obtain rfl := id_of_find? hb
    refine ⟨b.node, node_mem_of_find? hb, (b.node.thinned_cut t.config v).congr (fun w => ?_)⟩
    exact ⟨fun hw => ⟨rfl, hw⟩, fun hw => hw.2⟩
  · exact ⟨n', hn, (Node.Thinned.refl n').congr (by simp [hne])⟩

theorem Distinct.thinned_withdrawAbove (hd : t.Distinct) (p : GlobalEdge → Bool) (c : ClusterId) :
    t.Thinned (t.withdrawAbove p c) (fun _ _ => False) := by
  intro n' hn'
  rw [nodes_withdrawAbove hd] at hn'
  obtain ⟨n, hn, rfl⟩ := Multiset.mem_map.mp hn'
  exact ⟨n, hn, n.thinned_withdrawSteps t.config p (t.path c)⟩

/-- A vertex that goes is the only one that does in the clusters that stay. -/
theorem Sound.thinned_discard (hs : t.Sound) (c : ClusterId) (v : LocalVertex) :
    t.Thinned (t.discard c v).1 (fun d w => d = c ∧ w = v) := by
  cases hb : t.find? c with
  | none =>
      have hne : ∀ d ∈ t.ids, d ≠ c := by
        rintro d hd rfl
        obtain ⟨b, hsome⟩ := mem_ids_iff.mp hd
        exact nomatch hb.symm.trans hsome
      rw [discard, hb]
      exact (Thinned.refl t).congr (fun d hd w => by simp [hne d hd])
  | some b =>
      rw [discard, hb]
      have hcut := hs.cutAt c v
      have habove := hcut.withdrawAbove (GlobalEdge.touches (b.travelling v)) c
      have hthin : t.Thinned ((t.cutAt c v).withdrawAbove (GlobalEdge.touches (b.travelling v)) c)
          (fun d w => d = c ∧ w = v) :=
        ((hs.thinned_cutAt c v).trans (hcut.distinct.thinned_withdrawAbove _ c) rfl).congr (by simp)
      exact hthin.mark habove.distinct (config_withdrawAbove ..) c

theorem Sound.thinned_discardAll (hs : t.Sound) (c : ClusterId) (vs : List LocalVertex) :
    t.Thinned (t.discardAll c vs).1 (fun d w => d = c ∧ w ∈ vs) := by
  induction vs generalizing t with
  | nil => exact (Thinned.refl t).congr (by simp)
  | cons v rest ih =>
      have hbecomes := hs.becomes_discard c v
      have hrest := ih hbecomes.sound
      refine ((hs.thinned_discard c v).trans hrest hbecomes.config).congr (fun d _ w => ?_)
      rw [List.mem_cons, and_or_left]

theorem Sound.thinned_removeCluster (hs : t.Sound) {child : ClusterId}
    {result : Tree × List Removal} (h : t.removeCluster c child = .ok result) :
    t.Thinned result.1 (fun d w => d = c ∧ (w, child) ∈ t.children c) := by
  obtain ⟨v, hv, h⟩ := of_bind_eq_ok h
  obtain rfl := Except.ok.inj h
  have hplace := hs.distinct.place?_eq_some_iff.mpr (of_vertexOfChild hs.distinct hv)
  refine (hs.thinned_discard c v).congr (fun d _ w => and_congr_right (fun _ => ?_))
  rw [← hs.distinct.place?_eq_some_iff, hplace, Option.some.injEq, Prod.mk.injEq, eq_comm (a := v)]
  exact (and_iff_right rfl).symm

theorem mem_children_of_childAt? {child : ClusterId} (h : t.childAt? c v = some child) :
    (v, child) ∈ t.children c := by
  obtain ⟨inner, hbind, rfl⟩ := Option.map_eq_some_iff.mp h
  obtain ⟨b, hb, hinner⟩ := Option.bind_eq_some_iff.mp hbind
  rw [children, hb]
  exact Forest.mem_entries_of_branchAt? hinner

theorem of_requireChildAt {child : ClusterId} (h : t.requireChildAt c v = .ok child) :
    t.childAt? c v = some child := by
  rw [requireChildAt] at h
  split at h
  · rename_i d hd
    rw [hd, Except.ok.inj h]
  · exact nomatch h

theorem Sound.thinned_removeClusterOn (hs : t.Sound) {result : Tree × List Removal}
    (h : t.removeClusterOn c v = .ok result) : t.Thinned result.1 (fun d w => d = c ∧ w = v) := by
  obtain ⟨child, hchild, h⟩ := of_bind_eq_ok h
  have hv := mem_children_of_childAt? (of_requireChildAt hchild)
  have hplace := hs.distinct.place?_eq_some_iff.mpr hv
  refine (hs.thinned_removeCluster h).congr (fun d _ w => and_congr_right (fun _ => ?_))
  rw [← hs.distinct.place?_eq_some_iff, hplace, Option.some.injEq, Prod.mk.injEq, eq_comm (a := v)]
  exact and_iff_right rfl

theorem Sound.thinned_removeClusters (hs : t.Sound) {result : Tree × List Removal}
    (h : t.removeClusters c = .ok result) :
    t.Thinned result.1 (fun d w => d = c ∧ t.isClusterVertex c w = true) := by
  obtain ⟨b, hb, h⟩ := of_bind_eq_ok h
  obtain rfl := Except.ok.inj h
  obtain rfl := id_of_find? (of_require hb)
  have hn := node_mem_of_find? (of_require hb)
  exact (hs.thinned_discardAll b.cluster.id _).congr (fun d _ w =>
    and_congr_right (fun _ => (hs.distinct.isClusterVertex_iff hn w).symm))

theorem Sound.thinned_removeVertex (hs : t.Sound) {result : Tree × List Removal}
    (h : t.removeVertex c v = .ok result) : t.Thinned result.1 (fun d w => d = c ∧ w = v) := by
  obtain ⟨b, -, h⟩ := of_bind_eq_ok h
  obtain rfl := Except.ok.inj h
  exact hs.thinned_discard c v

theorem Sound.thinned_removeGlobalVertex (hs : t.Sound) {global : GlobalVertex}
    {result : Tree × List Removal} (h : t.removeGlobalVertex c global = .ok result) :
    t.Thinned result.1 (fun d w => t.vertexOwner? c global = some (d, w)) := by
  rw [removeGlobalVertex] at h
  split at h
  · cases h
  rename_i owner v howner
  obtain rfl := Except.ok.inj h
  have hbecomes := hs.becomes_discard owner v
  have hdiscard := hs.thinned_discard owner v
  refine (hdiscard.markUpTo hbecomes.sound.distinct hbecomes.config owner c).congr
    (fun d _ w => ?_)
  rw [howner, Option.some.injEq, Prod.mk.injEq, eq_comm (a := owner), eq_comm (a := v)]

theorem Sound.thinned_removeEdge (hs : t.Sound) {e : LocalEdge} {result : Tree × List Removal}
    (h : t.removeEdge c e = .ok result) : t.Thinned result.1 (fun _ _ => False) := by
  obtain ⟨b, -, h⟩ := of_bind_eq_ok h
  obtain rfl := Except.ok.inj h
  exact (hs.distinct.thinned_mapStorage c (fun s => s.thinned_removeEdge e) (fun _ => rfl)).mark
    (hs.distinct.mapStorage c _) rfl c

theorem Sound.thinned_removeGlobalEdge (hs : t.Sound) {global : GlobalEdge}
    (h : t.removeGlobalEdge c global = .ok t') : t.Thinned t' (fun _ _ => False) := by
  rw [removeGlobalEdge] at h
  split at h
  · cases h
  rename_i owner e howner
  obtain rfl := Except.ok.inj h
  exact (hs.distinct.thinned_mapStorage owner (fun s => s.thinned_withdraw _ e)
    (fun s => s.vertices_withdraw _ e)).markUpTo (hs.distinct.mapStorage owner _) rfl owner c

end Tree

/-! ## Commands that remove -/

/-- The command takes vertices, edges or clusters out of a tree. -/
def Command.removes : Command → Bool
  | .removeCluster .. => true
  | .removeClusterOn .. => true
  | .removeClusters _ => true
  | .removeVertex .. => true
  | .removeGlobalVertex .. => true
  | .removeEdge .. => true
  | .removeGlobalEdge .. => true
  | _ => false

/-- The command takes a vertex from one cluster into another. -/
def Command.moves : Command → Bool
  | .moveIn .. => true
  | .moveInOn .. => true
  | .moveOut .. => true
  | _ => false

/-- The vertices that leave their clusters by a command. -/
def Tree.Departs (t : Tree) : Command → ClusterId → LocalVertex → Prop
  | .removeCluster c child, d, w => d = c ∧ (w, child) ∈ t.children c
  | .removeClusterOn c v, d, w => d = c ∧ w = v
  | .removeClusters c, d, w => d = c ∧ t.isClusterVertex c w = true
  | .removeVertex c v, d, w => d = c ∧ w = v
  | .removeGlobalVertex c global, d, w => t.vertexOwner? c global = some (d, w)
  | .moveIn c v _, d, w => d = c ∧ w = v
  | .moveInOn c v _, d, w => d = c ∧ w = v
  | .moveOut c v, d, w => d = c ∧ w = v
  | _, _, _ => False

theorem Graph.thinned_perform {g h : Graph} (hs : g.tree.Sound) {command : Command} {reply : Reply}
    (hc : command.removes = true) (hp : g.perform command = .ok (h, reply)) :
    g.tree.Thinned h.tree (g.tree.Departs command) := by
  cases command with
  | removeCluster c child =>
      obtain ⟨r, hr, rfl, -⟩ := of_reporting hp
      exact hs.thinned_removeCluster hr
  | removeClusterOn c v =>
      obtain ⟨r, hr, rfl, -⟩ := of_reporting hp
      exact hs.thinned_removeClusterOn hr
  | removeClusters c =>
      obtain ⟨r, hr, rfl, -⟩ := of_reporting hp
      exact hs.thinned_removeClusters hr
  | removeVertex c v =>
      obtain ⟨r, hr, rfl, -⟩ := of_reporting hp
      exact hs.thinned_removeVertex hr
  | removeGlobalVertex c global =>
      obtain ⟨r, hr, rfl, -⟩ := of_reporting hp
      exact hs.thinned_removeGlobalVertex hr
  | removeEdge c e =>
      obtain ⟨r, hr, rfl, -⟩ := of_reporting hp
      exact hs.thinned_removeEdge hr
  | removeGlobalEdge c global =>
      obtain ⟨t, ht, rfl, -⟩ := of_quietly hp
      exact hs.thinned_removeGlobalEdge ht
  | _ => exact absurd hc Bool.false_ne_true

end NestedGraph
