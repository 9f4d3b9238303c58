import NestedGraph.Proofs.Moves
import NestedGraph.Graph.Command

/-! # Evolution — what a tree becomes

    A sound tree BECOMES another when that one is sound too, under the same
    configuration, and whatever is alive in it was alive before or has an
    id that was not given out yet.  Every command is such a step, and
    steps add up, so an id that is gone never comes back. -/

namespace NestedGraph

namespace Tree

/-- A tree that is sound, and in which no id came back. -/
structure Becomes (t t' : Tree) : Prop where
  sound : t'.Sound
  config : t'.config = t.config
  next : t.nextClusterId ≤ t'.nextClusterId
  alive : ∀ c ∈ t'.ids, c ∈ t.ids ∨ t.nextClusterId ≤ c.id

theorem Sound.becomes {t : Tree} (hs : t.Sound) : t.Becomes t :=
  ⟨hs, rfl, le_refl _, fun _ hc => Or.inl hc⟩

theorem Becomes.trans {t t' t'' : Tree} (h : t.Becomes t') (h' : t'.Becomes t'') :
    t.Becomes t'' := by
  refine ⟨h'.sound, h'.config.trans h.config, h.next.trans h'.next, fun c hc => ?_⟩
  rcases h'.alive c hc with hc | hc
  · exact h.alive c hc
  · exact Or.inr (h.next.trans hc)

/-- A tree in which nothing new is alive. -/
theorem Sound.becomes_of_le {t t' : Tree} (hs : t'.Sound) (hconfig : t'.config = t.config)
    (hnext : t'.nextClusterId = t.nextClusterId) (hids : t'.ids ≤ t.ids) : t.Becomes t' :=
  ⟨hs, hconfig, le_of_eq hnext.symm, fun _ hc => Or.inl (Multiset.mem_of_le hids hc)⟩

/-! ## Single changes -/

section Changes

variable {t : Tree}

theorem Sound.becomes_mapCluster (hs : t.Sound) (c : ClusterId) {f : Cluster → Cluster}
    (hf : ∀ k : Cluster, (f k).id = k.id)
    (h : ∀ n ∈ t.nodes, n.id = c → Node.Sound t.config ⟨f n.cluster, n.entries⟩) :
    t.Becomes (t.mapCluster c f) :=
  becomes_of_le (hs.mapCluster c hf h) rfl rfl (le_of_eq (hs.distinct.ids_mapCluster c hf))

theorem Sound.becomes_mapStorage (hs : t.Sound) (c : ClusterId) {f : Storage → Storage}
    (h : ∀ n ∈ t.nodes, n.id = c → (f n.storage).Sound ∧ (f n.storage).Fits t.config
      ∧ ∀ v, n.storage.hasVertex v = true → (f n.storage).hasVertex v = true) :
    t.Becomes (t.mapStorage c f) :=
  becomes_of_le (hs.mapStorage c h) rfl rfl
    (le_of_eq (hs.distinct.ids_mapCluster c (f := fun k => { k with storage := f k.storage })
      (fun _ => rfl)))

theorem Sound.becomes_mark (hs : t.Sound) (c : ClusterId) : t.Becomes (t.mark c) :=
  hs.becomes_mapCluster c (Cluster.id_mark t.config) (fun n hn _ => (hs.nodes n hn).mark)

theorem Becomes.mark {t' : Tree} (h : t.Becomes t') (c : ClusterId) : t.Becomes (t'.mark c) :=
  h.trans (h.sound.becomes_mark c)

theorem Becomes.markUpTo {t' : Tree} (h : t.Becomes t') (c last : ClusterId) :
    t.Becomes (t'.markUpTo c last) := by
  rw [Tree.markUpTo]
  generalize t'.wayUp c last = cs
  induction cs generalizing t' with
  | nil => exact h
  | cons d rest ih => exact ih (h.mark d)

/-- A vertex arrives, with a branch on it or without one. -/
theorem Distinct.ids_receive (hd : t.Distinct) {c : ClusterId} (hc : c ∈ t.ids) (r : VertexRecord)
    (nested : Option Branch) :
    (t.receive c r nested).ids = (nestedNodes nested).map Node.id + t.ids := by
  obtain ⟨n, hn, rfl⟩ := Multiset.mem_map.mp hc
  obtain ⟨rest, hrest⟩ := nodes_cons_of_mem hn
  rw [ids, ids, hd.nodes_receive hrest, hrest]
  simp [Multiset.map_add]

theorem Sound.becomes_receive (hs : t.Sound) (c : ClusterId) {r : VertexRecord}
    (hr : r.Fits t.config) : t.Becomes (t.receive c r none) := by
  refine becomes_of_le (hs.receive_ordinary c hr) rfl rfl ?_
  by_cases hc : c ∈ t.ids
  · rw [hs.distinct.ids_receive hc, nestedNodes, Multiset.map_zero, zero_add]
  · rw [Tree.receive, update_of_dead _ hc]

theorem Sound.ids_cutAt_le (hs : t.Sound) (c : ClusterId) (v : LocalVertex) :
    (t.cutAt c v).ids ≤ t.ids := by
  by_cases hc : c ∈ t.ids
  · obtain ⟨b, hb⟩ := mem_ids_iff.mp hc
    obtain rfl := id_of_find? hb
    obtain ⟨rest, hrest⟩ := nodes_cons_of_mem (node_mem_of_find? hb)
    obtain ⟨rest', rfl, hnodes⟩ := hs.distinct.nodes_cutAt hrest
      (hs.nodes _ (node_mem_of_find? hb)).keys v hb
    show (t.cutAt b.node.id v).ids ≤ t.ids
    rw [ids, ids, hnodes, hrest, Multiset.map_cons, Multiset.map_cons, Multiset.map_add]
    exact Multiset.cons_le_cons _ (Multiset.le_add_left ..)
  · rw [Tree.cutAt, update_of_dead _ hc]

theorem Sound.becomes_cutAt (hs : t.Sound) (c : ClusterId) (v : LocalVertex) :
    t.Becomes (t.cutAt c v) :=
  becomes_of_le (hs.cutAt c v) rfl rfl (hs.ids_cutAt_le c v)

theorem Sound.becomes_withdrawAbove (hs : t.Sound) (p : GlobalEdge → Bool) (c : ClusterId) :
    t.Becomes (t.withdrawAbove p c) :=
  becomes_of_le (hs.withdrawAbove p c) (config_withdrawAbove t p c)
    (nextClusterId_withdrawAbove t p c) (le_of_eq (ids_withdrawAbove hs p c))

end Changes

/-! ## Removals -/

section Removals

variable {t : Tree} {c child : ClusterId} {v : LocalVertex} {result : Tree × List Removal}

theorem Sound.becomes_discard (hs : t.Sound) (c : ClusterId) (v : LocalVertex) :
    t.Becomes (t.discard c v).1 := by
  rw [discard]
  split
  · exact hs.becomes
  · exact ((hs.becomes_cutAt c v).trans
      ((hs.cutAt c v).becomes_withdrawAbove _ c)).mark c

theorem Sound.becomes_discardAll (hs : t.Sound) (c : ClusterId) (vs : List LocalVertex) :
    t.Becomes (t.discardAll c vs).1 := by
  induction vs generalizing t with
  | nil => exact hs.becomes
  | cons v rest ih =>
      have h := hs.becomes_discard c v
      exact h.trans (ih h.sound)

theorem Sound.becomes_removeCluster (hs : t.Sound)
    (h : t.removeCluster c child = .ok result) : t.Becomes result.1 := by
  obtain ⟨v, -, h⟩ := of_bind_eq_ok h
  obtain rfl := Except.ok.inj h
  exact hs.becomes_discard c v

theorem Sound.becomes_removeClusterOn (hs : t.Sound)
    (h : t.removeClusterOn c v = .ok result) : t.Becomes result.1 := by
  obtain ⟨child, -, h⟩ := of_bind_eq_ok h
  exact hs.becomes_removeCluster h

theorem Sound.becomes_removeClusters (hs : t.Sound)
    (h : t.removeClusters c = .ok result) : t.Becomes result.1 := by
  obtain ⟨b, -, h⟩ := of_bind_eq_ok h
  obtain rfl := Except.ok.inj h
  exact hs.becomes_discardAll c _

theorem Sound.becomes_removeVertex (hs : t.Sound)
    (h : t.removeVertex c v = .ok result) : t.Becomes result.1 := by
  obtain ⟨b, -, h⟩ := of_bind_eq_ok h
  obtain rfl := Except.ok.inj h
  exact hs.becomes_discard c v

theorem Sound.becomes_removeGlobalVertex (hs : t.Sound) {global : GlobalVertex}
    (h : t.removeGlobalVertex c global = .ok result) : t.Becomes result.1 := by
  rw [removeGlobalVertex] at h
  split at h
  · exact nomatch h
  · rename_i owner v _
    obtain rfl := Except.ok.inj h
    exact (hs.becomes_discard owner v).markUpTo owner c

theorem Sound.becomes_removeEdge (hs : t.Sound) {e : LocalEdge}
    (h : t.removeEdge c e = .ok result) : t.Becomes result.1 := by
  obtain ⟨b, -, h⟩ := of_bind_eq_ok h
  obtain rfl := Except.ok.inj h
  refine (hs.becomes_mapStorage c (fun n hn _ => ?_)).mark c
  have hsound := hs.nodes n hn
  exact ⟨hsound.storage.removeEdge e, hsound.fits.removeEdge e, fun v hv => hv⟩

theorem Sound.becomes_removeGlobalEdge (hs : t.Sound) {global : GlobalEdge} {t' : Tree}
    (h : t.removeGlobalEdge c global = .ok t') : t.Becomes t' := by
  rw [removeGlobalEdge] at h
  split at h
  · exact nomatch h
  · rename_i owner e _
    obtain rfl := Except.ok.inj h
    refine (hs.becomes_mapStorage owner (fun n hn _ => ?_)).markUpTo owner c
    have hsound := hs.nodes n hn
    refine ⟨hsound.storage.withdraw _ e, hsound.fits.withdraw _ e, fun v hv => ?_⟩
    rwa [Storage.hasVertex, Storage.vertices_withdraw]

end Removals

/-! ## Moves -/

theorem Sound.ids_lower {t : Tree} (hs : t.Sound) {b inner : Branch} {v cv : LocalVertex}
    {record : VertexRecord} (h : t.Inward b inner v cv record) (routes : Routes) :
    (t.lower v cv routes b inner).ids = t.ids := by
  obtain ⟨rest, hnodes, hlower⟩ := nodes_lower hs h routes
  rw [ids, ids, hnodes, hlower]
  simp [Branch.lowered, Branch.sunk]

theorem Sound.ids_raise {t : Tree} (hs : t.Sound) {b inner : Branch} {v cv : LocalVertex}
    {record : VertexRecord} (h : t.Outward inner b cv v record) :
    (t.raise cv v inner b).ids = t.ids := by
  obtain ⟨rest, hnodes, hraise⟩ := nodes_raise hs h
  rw [ids, ids, hnodes, hraise]
  simp [Branch.raised, Branch.drained]

section Moves

variable {t : Tree} {c child : ClusterId} {v : LocalVertex} {result : Tree × LocalVertex}

theorem Sound.becomes_moveIn (hs : t.Sound) (h : t.moveIn c v child = .ok result) :
    t.Becomes result.1 := by
  have hsound := hs.moveIn h
  obtain ⟨b, inner, cv, record, routes, hin, -, -, -, heq, -⟩ := of_moveIn hs h
  rw [heq] at hsound ⊢
  exact hsound.becomes_of_le (config_lower ..) (nextClusterId_lower ..)
    (le_of_eq (hs.ids_lower hin routes))

theorem Sound.becomes_moveInOn (hs : t.Sound) {place : LocalVertex}
    (h : t.moveInOn c v place = .ok result) : t.Becomes result.1 := by
  obtain ⟨child, -, h⟩ := of_bind_eq_ok h
  exact hs.becomes_moveIn h

theorem Sound.becomes_moveOut (hs : t.Sound) (h : t.moveOut c v = .ok result) :
    t.Becomes result.1 := by
  have hsound := hs.moveOut h
  obtain ⟨b, inner, cv, record, hout, -, heq, -⟩ := of_moveOut hs h
  rw [heq] at hsound ⊢
  exact hsound.becomes_of_le (config_raise ..) (nextClusterId_raise ..)
    (le_of_eq (hs.ids_raise hout))

end Moves

/-! ## Attributes -/

section Attributes

variable {t t' : Tree} {c : ClusterId} {type : AttributeType} {key : AttributeKey}

theorem of_vertexRecord {v : LocalVertex} {r : VertexRecord} (h : t.vertexRecord c v = .ok r) :
    ∃ b, t.find? c = some b ∧ b.cluster.storage.vertex? v = some r := by
  obtain ⟨b, hb, h⟩ := of_bind_eq_ok h
  split at h
  · obtain rfl := Except.ok.inj h
    exact ⟨b, of_require hb, by assumption⟩
  · exact nomatch h

theorem of_edgeRecord {e : LocalEdge} {r : EdgeRecord} (h : t.edgeRecord c e = .ok r) :
    ∃ b, t.find? c = some b ∧ b.cluster.storage.edgeRecord? e = some r := by
  obtain ⟨b, hb, h⟩ := of_bind_eq_ok h
  split at h
  · obtain rfl := Except.ok.inj h
    exact ⟨b, of_require hb, by assumption⟩
  · exact nomatch h

theorem vertexRecord_of_find? {b : Branch} (hb : t.find? c = some b) {v : LocalVertex}
    {r : VertexRecord} (hr : b.cluster.storage.vertex? v = some r) : t.vertexRecord c v = .ok r := by
  rw [vertexRecord, require_of_find? hb, ok_bind, hr]
  rfl

theorem edgeRecord_of_find? {b : Branch} (hb : t.find? c = some b) {e : LocalEdge} {l : Link}
    (hl : b.cluster.storage.link? e = some l) : t.edgeRecord c e = .ok l.record := by
  rw [edgeRecord, require_of_find? hb, ok_bind, Storage.edgeRecord?, hl]
  rfl

/-- What is kept for a vertex may change as long as it fits. -/
theorem Sound.becomes_modifyVertex (hs : t.Sound) {v : LocalVertex} {r : VertexRecord}
    (hr : t.vertexRecord c v = .ok r) {f : VertexRecord → VertexRecord}
    (hf : r.Fits t.config → (f r).Fits t.config) : t.Becomes (t.modifyVertex c v f) := by
  obtain ⟨b, hb, hr⟩ := of_vertexRecord hr
  refine hs.becomes_mapStorage c (fun n hn hid => ?_)
  have hsound := hs.nodes n hn
  obtain rfl : b.node = n := hs.distinct.node_of_find? hn (hid ▸ hb)
  refine ⟨hsound.storage.modifyVertex v f, hsound.fits.modifyVertex v (fun r' hr' hfit => ?_),
    fun w hw => ?_⟩
  · obtain rfl : r = r' := Option.some.inj (hr.symm.trans hr')
    exact hf hfit
  · exact (Storage.hasVertex_modifyVertex ..).trans hw

/-- What is kept for an edge may change as long as it fits, and carries
    something. -/
theorem Sound.becomes_modifyEdge (hs : t.Sound) {e : LocalEdge} {r : EdgeRecord}
    (hr : t.edgeRecord c e = .ok r) {f : EdgeRecord → EdgeRecord}
    (hf : r.Fits t.config → (f r).Fits t.config)
    (hfill : ∀ r : EdgeRecord, r.carried ≠ [] → (f r).carried ≠ []) :
    t.Becomes (t.modifyEdge c e f) := by
  obtain ⟨b, hb, hr⟩ := of_edgeRecord hr
  refine hs.becomes_mapStorage c (fun n hn hid => ?_)
  have hsound := hs.nodes n hn
  obtain rfl : b.node = n := hs.distinct.node_of_find? hn (hid ▸ hb)
  refine ⟨hsound.storage.modifyEdge e hfill, hsound.fits.modifyEdge e (fun l hl hfit => ?_),
    fun w hw => hw⟩
  obtain ⟨l', hl', rfl⟩ := Option.map_eq_some_iff.mp hr
  obtain rfl : l' = l := Option.some.inj (hl'.symm.trans hl)
  exact hf hfit

theorem Sound.becomes_setProperty (hs : t.Sound) {value : Value}
    (h : t.setProperty type c key value = .ok t') : t.Becomes t' := by
  obtain ⟨place, -, h⟩ := of_bind_eq_ok h
  split at h
  · obtain ⟨r, hr, h⟩ := of_bind_eq_ok h
    obtain ⟨properties, hw, h⟩ := of_bind_eq_ok h
    obtain rfl := Except.ok.inj h
    exact hs.becomes_modifyVertex hr (fun hfit => ⟨hfit.1.of_write hw, hfit.2⟩)
  · obtain ⟨r, hr, h⟩ := of_bind_eq_ok h
    obtain ⟨properties, hw, h⟩ := of_bind_eq_ok h
    obtain rfl := Except.ok.inj h
    exact hs.becomes_modifyEdge hr (fun hfit => ⟨hfit.1.of_write hw, hfit.2⟩) (fun _ hr => hr)

theorem Sound.becomes_setClusterProperty (hs : t.Sound) {value : Value}
    (h : t.setClusterProperty type c value = .ok t') : t.Becomes t' := by
  obtain ⟨b, hb, h⟩ := of_bind_eq_ok h
  obtain ⟨properties, hw, h⟩ := of_bind_eq_ok h
  obtain rfl := Except.ok.inj h
  refine hs.becomes_mapCluster c (f := fun k => { k with properties := properties })
    (fun _ => rfl) (fun n hn hid => ?_)
  obtain rfl : b.node = n := hs.distinct.node_of_find? hn (hid ▸ of_require hb)
  exact (hs.nodes _ hn).of_cluster rfl ((hs.nodes _ hn).properties.of_write hw)

theorem Sound.becomes_setSubclusterProperty (hs : t.Sound) {v : LocalVertex} {value : Value}
    (h : t.setSubclusterProperty type c v value = .ok t') : t.Becomes t' := by
  obtain ⟨child, -, h⟩ := of_bind_eq_ok h
  exact hs.becomes_setClusterProperty h

theorem Sound.becomes_setChanged (hs : t.Sound) (h : t.setChanged c = .ok t') : t.Becomes t' := by
  obtain ⟨b, -, h⟩ := of_bind_eq_ok h
  obtain rfl := Except.ok.inj h
  exact hs.becomes_mark c

theorem Sound.becomes_setCopyMode (hs : t.Sound) {on : Bool} (h : t.setCopyMode c on = .ok t') :
    t.Becomes t' := by
  obtain ⟨b, -, h⟩ := of_bind_eq_ok h
  obtain rfl := Except.ok.inj h
  exact hs.becomes_mapCluster c (f := fun k => { k with copyMode := on }) (fun _ => rfl)
    (fun n hn _ => (hs.nodes n hn).of_cluster rfl (hs.nodes n hn).properties)

end Attributes

end Tree

/-! ## Objects -/

namespace EdgeRecord

theorem changeFirst_ne_nil {p : GlobalEdge → Bool} {f : CarriedEdge → CarriedEdge}
    {carried : List CarriedEdge} (h : carried ≠ []) : changeFirst p f carried ≠ [] := by
  cases carried with
  | nil => exact absurd rfl h
  | cons x rest =>
      rw [changeFirst]
      split
      · exact List.cons_ne_nil _ _
      · exact List.cons_ne_nil _ _

theorem modifyCarried_ne_nil {r : EdgeRecord} (global : Option GlobalEdge)
    (f : CarriedEdge → CarriedEdge) (h : r.carried ≠ []) :
    (r.modifyCarried global f).carried ≠ [] := by
  cases global with
  | none => exact changeFirst_ne_nil h
  | some global => exact changeFirst_ne_nil h

/-- Each edge after a change of the first that matches was there, or is the
    changed one. -/
theorem of_mem_changeFirst {p : GlobalEdge → Bool} {f : CarriedEdge → CarriedEdge}
    {carried : List CarriedEdge} {x : CarriedEdge} (h : x ∈ changeFirst p f carried) :
    x ∈ carried ∨ ∃ y ∈ carried, x = f y := by
  induction carried with
  | nil => exact nomatch h
  | cons y rest ih =>
      rw [changeFirst] at h
      split at h
      · rcases List.mem_cons.mp h with rfl | h
        · exact Or.inr ⟨y, List.mem_cons_self .., rfl⟩
        · exact Or.inl (List.mem_cons_of_mem _ h)
      · rcases List.mem_cons.mp h with rfl | h
        · exact Or.inl (List.mem_cons_self ..)
        · rcases ih h with h | ⟨z, hz, rfl⟩
          · exact Or.inl (List.mem_cons_of_mem _ h)
          · exact Or.inr ⟨z, List.mem_cons_of_mem _ hz, rfl⟩

theorem of_mem_modifyCarried {r : EdgeRecord} {global : Option GlobalEdge}
    {f : CarriedEdge → CarriedEdge} {x : CarriedEdge} (h : x ∈ (r.modifyCarried global f).carried) :
    x ∈ r.carried ∨ ∃ y ∈ r.carried, x = f y := by
  cases global with
  | none => exact of_mem_changeFirst h
  | some global => exact of_mem_changeFirst h

theorem mem_of_carriedFor {r : EdgeRecord} {e : LocalEdge} {global : Option GlobalEdge}
    {x : CarriedEdge} (h : r.carriedFor e global = .ok x) : x ∈ r.carried := by
  cases global with
  | none =>
      rw [carriedFor] at h
      split at h
      · rename_i y hy
        obtain rfl := Except.ok.inj h
        exact List.mem_of_mem_head? hy
      · exact nomatch h
  | some global =>
      rw [carriedFor] at h
      split at h
      · rename_i y hy
        obtain rfl := Except.ok.inj h
        exact List.mem_of_find?_eq_some hy
      · exact nomatch h

end EdgeRecord

namespace Tree

theorem Sound.becomes_writeObject {t t' : Tree} (hs : t.Sound) {type : AttributeType}
    {c : ClusterId} {key : AttributeKey} {object : Option TypedObject}
    (h : t.writeObject type c key object = .ok t') : t.Becomes t' := by
  obtain ⟨place, -, h⟩ := of_bind_eq_ok h
  split at h
  · obtain ⟨r, hr, h⟩ := of_bind_eq_ok h
    obtain ⟨objects, hw, h⟩ := of_bind_eq_ok h
    obtain rfl := Except.ok.inj h
    exact hs.becomes_modifyVertex hr
      (fun hfit => ⟨hfit.1, (Layout.length_of_writeObject hw).trans hfit.2⟩)
  · rename_i owner e global
    obtain ⟨r, hr, h⟩ := of_bind_eq_ok h
    obtain ⟨x, hx, h⟩ := of_bind_eq_ok h
    obtain ⟨objects, hw, h⟩ := of_bind_eq_ok h
    obtain rfl := Except.ok.inj h
    refine hs.becomes_modifyEdge hr (fun hfit => ⟨?_, fun y hy => ?_⟩)
      (fun r hr => EdgeRecord.modifyCarried_ne_nil global _ hr)
    · cases global with
      | none => exact hfit.1
      | some global => exact hfit.1
    · rcases EdgeRecord.of_mem_modifyCarried hy with hy | ⟨z, -, rfl⟩
      · exact hfit.2 y hy
      · exact (Layout.length_of_writeObject hw).trans
          (hfit.2 x (EdgeRecord.mem_of_carriedFor hx))

/-! ## Indices -/

theorem Sound.becomes_numberVertices {t : Tree} (hs : t.Sound) (c : ClusterId) (k : Nat)
    (vs : List LocalVertex) : t.Becomes (t.numberVertices c k vs) := by
  induction vs generalizing t k with
  | nil => exact hs.becomes
  | cons v rest ih =>
      have h : t.Becomes (t.modifyVertex c v (fun r =>
          { r with properties := t.config.vertex.put vertexIndex (.index k) r.properties })) := by
        refine hs.becomes_mapStorage c (fun n hn _ => ?_)
        have hsound := hs.nodes n hn
        exact ⟨hsound.storage.modifyVertex v _,
          hsound.fits.modifyVertex v (fun r _ hfit => ⟨hfit.1.put .., hfit.2⟩),
          fun w hw => (Storage.hasVertex_modifyVertex ..).trans hw⟩
      exact h.trans (ih h.sound (k + 1))

theorem Sound.becomes_numberEdges {t : Tree} (hs : t.Sound) (c : ClusterId) (k : Nat)
    (es : List LocalEdge) : t.Becomes (t.numberEdges c k es) := by
  induction es generalizing t k with
  | nil => exact hs.becomes
  | cons e rest ih =>
      have h : t.Becomes (t.modifyEdge c e (fun r =>
          { r with properties := t.config.edge.put edgeIndex (.index k) r.properties })) := by
        refine hs.becomes_mapStorage c (fun n hn _ => ?_)
        have hsound := hs.nodes n hn
        exact ⟨hsound.storage.modifyEdge e (fun _ hr => hr),
          hsound.fits.modifyEdge e (fun l _ hfit => ⟨hfit.1.put .., hfit.2⟩), fun w hw => hw⟩
      exact h.trans (ih h.sound (k + 1))

theorem Sound.becomes_renumber {t t' : Tree} (hs : t.Sound) {c : ClusterId}
    (h : t.renumber c = .ok t') : t.Becomes t' := by
  obtain ⟨b, -, h⟩ := of_bind_eq_ok h
  obtain rfl := Except.ok.inj h
  have h := hs.becomes_numberVertices c 0 b.cluster.storage.vertices.handles
  exact h.trans (h.sound.becomes_numberEdges c 0 _)

/-! ## New clusters -/

/-- The tree after it gave out the id of a cluster. -/
def withNext (t : Tree) : Tree := { t with nextClusterId := t.nextClusterId + 1 }

theorem Sound.withNext {t : Tree} (hs : t.Sound) : t.withNext.Sound :=
  ⟨hs.root, hs.distinct, fun d hd => Nat.lt_succ_of_lt (hs.bound d hd), hs.complete, hs.nodes⟩

theorem nestedNodes_newCluster (config : Config) (c : ClusterId) :
    nestedNodes (some ⟨config.newCluster c, .nil⟩) = {⟨config.newCluster c, []⟩} := rfl

/-- A vertex may arrive with a new cluster. -/
theorem Sound.receive_cluster {t : Tree} (hs : t.Sound) (c : ClusterId) (global : GlobalVertex) :
    (t.withNext.receive c (t.config.newVertex global)
      (some ⟨t.config.newCluster ⟨t.nextClusterId⟩, .nil⟩)).Sound := by
  refine hs.withNext.receive c (t.config.fits_newVertex _) ?_ ?_ ?_
  · intro m hm
    rw [nestedNodes_newCluster, Multiset.mem_singleton] at hm
    rw [hm]
    exact t.config.sound_newCluster _
  · rw [nestedNodes_newCluster, Multiset.map_singleton, Multiset.singleton_add, Multiset.nodup_cons]
    exact ⟨fun hmem => Nat.lt_irrefl _ (hs.bound _ hmem), hs.distinct⟩
  · intro d hd
    rw [nestedNodes_newCluster, Multiset.map_singleton, Multiset.mem_singleton] at hd
    rw [hd]
    exact Nat.lt_succ_self _

end Tree

namespace Graph

/-! ## Vertices, clusters and edges -/

/-- Two vertices of a cluster between which an edge is put. -/
structure Between (g : Graph) (c : ClusterId) (a b : LocalVertex) : Prop where
  ne : a ≠ b
  ends : ∀ n ∈ g.tree.nodes, n.id = c → n.storage.hasVertex a = true ∧ n.storage.hasVertex b = true

section Sound

variable {g h : Graph} {c child : ClusterId} {a b v : LocalVertex} {e : LocalEdge} {own : Bool}
  {global name source target : GlobalVertex} {edge : GlobalEdge}

/-- What is done when a vertex is added. -/
theorem of_addVertex (hadd : g.addVertex c = .ok (h, v, global)) :
    ∃ branch, g.tree.find? c = some branch ∧ global = ⟨g.ids.next⟩ ∧ v = branch.nextVertex
      ∧ h = ⟨g.putVertex c global, g.ids.advance⟩ := by
  obtain ⟨branch, hb, hadd⟩ := of_bind_eq_ok hadd
  obtain ⟨rfl, hanswer⟩ := Prod.mk.inj (Except.ok.inj hadd)
  obtain ⟨rfl, rfl⟩ := Prod.mk.inj hanswer
  exact ⟨branch, Tree.of_require hb, rfl, rfl, rfl⟩

/-- A name that is inside the cluster is answered by what stands for it
    there.  Any other comes in, unless it is reserved. -/
theorem of_addVertexNamed (hadd : g.addVertexNamed c name = .ok (h, v, global)) :
    global = name ∧ lastReservedId < name.id ∧ ∃ branch, g.tree.find? c = some branch
      ∧ (branch.representative? name = some v ∧ h = g
        ∨ branch.representative? name = none ∧ v = branch.nextVertex
          ∧ h = ⟨g.putVertex c name, g.ids.raise name.id⟩) := by
  rw [addVertexNamed] at hadd
  dsimp only at hadd
  split at hadd
  · cases hadd
  rename_i husable
  have hlow : lastReservedId < name.id := by simpa [GlobalVertex.isUsable] using husable
  obtain ⟨branch, hb, hadd⟩ := of_bind_eq_ok hadd
  split at hadd
  · rename_i w hw
    obtain ⟨rfl, hanswer⟩ := Prod.mk.inj (Except.ok.inj hadd)
    obtain ⟨rfl, rfl⟩ := Prod.mk.inj hanswer
    exact ⟨rfl, hlow, branch, Tree.of_require hb, Or.inl ⟨hw, rfl⟩⟩
  · rename_i hnone
    obtain ⟨rfl, hanswer⟩ := Prod.mk.inj (Except.ok.inj hadd)
    obtain ⟨rfl, rfl⟩ := Prod.mk.inj hanswer
    exact ⟨rfl, hlow, branch, Tree.of_require hb, Or.inr ⟨hnone, rfl, rfl⟩⟩

/-- What is done when a child is created. -/
theorem of_addCluster (hadd : g.addCluster c = .ok (h, child, v)) :
    ∃ branch, g.tree.find? c = some branch ∧ child = ⟨g.tree.nextClusterId⟩ ∧ v = branch.nextVertex
      ∧ h = ⟨(g.tree.withNext.receive c (g.tree.config.newVertex ⟨g.ids.next⟩)
        (some ⟨g.tree.config.newCluster child, .nil⟩)).mark c, g.ids.advance⟩ := by
  obtain ⟨branch, hb, hadd⟩ := of_bind_eq_ok hadd
  obtain ⟨rfl, hanswer⟩ := Prod.mk.inj (Except.ok.inj hadd)
  obtain ⟨rfl, rfl⟩ := Prod.mk.inj hanswer
  exact ⟨branch, Tree.of_require hb, rfl, rfl, rfl⟩

theorem becomes_putVertex (hs : g.tree.Sound) (c : ClusterId) (global : GlobalVertex) :
    g.tree.Becomes (g.putVertex c global) :=
  (hs.becomes_receive c (g.tree.config.fits_newVertex global)).mark c

theorem becomes_addVertex (hs : g.tree.Sound) (hadd : g.addVertex c = .ok (h, v, global)) :
    g.tree.Becomes h.tree := by
  obtain ⟨branch, -, -, -, rfl⟩ := of_addVertex hadd
  exact becomes_putVertex hs c _

theorem becomes_addVertexNamed (hs : g.tree.Sound)
    (hadd : g.addVertexNamed c name = .ok (h, v, global)) : g.tree.Becomes h.tree := by
  obtain ⟨-, -, branch, -, ⟨-, rfl⟩ | ⟨-, -, rfl⟩⟩ := of_addVertexNamed hadd
  · exact hs.becomes
  · exact becomes_putVertex hs c name

/-- A cluster is created under an id that is given out then. -/
theorem becomes_addCluster (hs : g.tree.Sound) (hadd : g.addCluster c = .ok (h, child, v)) :
    g.tree.Becomes h.tree := by
  obtain ⟨branch, hb, rfl, -, rfl⟩ := of_addCluster hadd
  have hc : c ∈ g.tree.ids := Tree.mem_ids_iff.mpr ⟨branch, hb⟩
  have hbecomes : g.tree.Becomes (g.tree.withNext.receive c (g.tree.config.newVertex ⟨g.ids.next⟩)
      (some ⟨g.tree.config.newCluster ⟨g.tree.nextClusterId⟩, .nil⟩)) := by
    refine ⟨hs.receive_cluster c _, rfl, Nat.le_succ g.tree.nextClusterId, fun d hd => ?_⟩
    rw [Tree.Distinct.ids_receive hs.withNext.distinct hc, Tree.nestedNodes_newCluster,
      Multiset.map_singleton, Multiset.singleton_add, Multiset.mem_cons] at hd
    rcases hd with rfl | hd
    · exact Or.inr (le_refl _)
    · exact Or.inl hd
  exact hbecomes.mark c

theorem becomes_attach (hs : g.tree.Sound) (hab : g.Between c a b) (global : GlobalEdge) :
    g.tree.Becomes (g.tree.mapStorage c (fun s =>
      s.attach a b g.tree.config.edge.initialValues [g.tree.config.newCarried global])) := by
  refine hs.becomes_mapStorage c (fun n hn hid => ?_)
  obtain ⟨ha, hb⟩ := hab.ends n hn hid
  have hsound := hs.nodes n hn
  refine ⟨hsound.storage.attach _ hab.ne ha hb (List.cons_ne_nil _ _),
    hsound.fits.attach hsound.storage.listed a b ⟨g.tree.config.edge.fits_initialValues, ?_⟩,
    fun v hv => ?_⟩
  · intro x hx
    rw [List.mem_singleton.mp hx]
    exact g.tree.config.length_newCarried global
  · rwa [Storage.hasVertex, Storage.vertices_attach]

theorem becomes_putEdge (hs : g.tree.Sound) (hab : g.Between c a b) (global : GlobalEdge) :
    g.tree.Becomes (g.putEdge c a b global).tree :=
  (becomes_attach hs hab global).mark c

theorem between_of_find? (hs : g.tree.Sound) {branch : Branch} (hb : g.tree.find? c = some branch)
    (hne : a ≠ b) (h1 : branch.cluster.storage.hasVertex a = true)
    (h2 : branch.cluster.storage.hasVertex b = true) : g.Between c a b := by
  refine ⟨hne, fun n hn hid => ?_⟩
  obtain rfl : branch.node = n := hs.distinct.node_of_find? hn (hid ▸ hb)
  exact ⟨h1, h2⟩

theorem between_of_edgeEnds (hs : g.tree.Sound) {branch : Branch}
    (h : g.edgeEnds c a b = .ok (branch, source, target)) : g.Between c a b := by
  obtain ⟨hne, hfind, hsource, htarget, -, -⟩ := of_edgeEnds h
  exact between_of_find? hs hfind hne (Storage.hasVertex_of_global? hsource)
    (Storage.hasVertex_of_global? htarget)

/-- An edge between two global vertices is put between what represents them
    in one cluster. -/
theorem of_edgePlace (hs : g.tree.Sound) {holder : Branch}
    (h : g.edgePlace c source target = .ok (holder, a, b)) :
    a ≠ b ∧ g.tree.find? holder.cluster.id = some holder
      ∧ holder.representative? source = some a ∧ holder.representative? target = some b
      ∧ g.requireOrdinaryGlobal c source = .ok () ∧ g.requireOrdinaryGlobal c target = .ok ()
      ∧ ∃ branch, g.tree.find? c = some branch ∧ holder.nodes ≤ branch.nodes := by
  obtain ⟨branch, hb, h⟩ := of_bind_eq_ok h
  obtain ⟨a', ha, h⟩ := of_bind_eq_ok h
  obtain ⟨b', hb', h⟩ := of_bind_eq_ok h
  obtain ⟨_, hsource, h⟩ := of_bind_eq_ok h
  obtain ⟨_, htarget, h⟩ := of_bind_eq_ok h
  have hfind := Tree.of_require hb
  split at h
  · rename_i hne
    obtain ⟨rfl, heq⟩ := Prod.mk.inj (Except.ok.inj h)
    obtain ⟨rfl, rfl⟩ := Prod.mk.inj heq
    refine ⟨hne, ?_, of_requireRepresentative ha, of_requireRepresentative hb', hsource, htarget,
      _, hfind, le_refl _⟩
    rw [Tree.id_of_find? hfind]
    exact hfind
  · -- Both are inside the child on the vertex that represents them.
    split at h
    · exact nomatch h
    · rename_i child hchild
      obtain ⟨a'', ha'', h⟩ := of_bind_eq_ok h
      obtain ⟨b'', hb'', h⟩ := of_bind_eq_ok h
      split at h
      · exact nomatch h
      · rename_i hne
        obtain ⟨rfl, heq⟩ := Prod.mk.inj (Except.ok.inj h)
        obtain ⟨rfl, rfl⟩ := Prod.mk.inj heq
        exact ⟨hne, hs.distinct.find?_of_branchAt? hfind hchild, of_requireRepresentative ha'',
          of_requireRepresentative hb'', hsource, htarget, branch, hfind,
          (Forest.nodes_le_of_mem_branches (Forest.mem_branches_of_branchAt? hchild)).trans
            (Multiset.le_cons_self ..)⟩

theorem between_of_edgePlace (hs : g.tree.Sound) {holder : Branch}
    (h : g.edgePlace c source target = .ok (holder, a, b)) : g.Between holder.cluster.id a b := by
  obtain ⟨hne, hfind, hsource, htarget, -⟩ := of_edgePlace hs h
  have hholder := hs.nodes _ (Tree.node_mem_of_find? hfind)
  exact between_of_find? hs hfind hne (Tree.Node.Sound.hasVertex_of_representative? hholder hsource)
    (Tree.Node.Sound.hasVertex_of_representative? hholder htarget)

/-- What is done when two vertices of a cluster are connected. -/
theorem of_addEdge (hs : g.tree.Sound) (hadd : g.addEdge c a b = .ok (h, e, edge)) :
    ∃ branch source target, g.edgeEnds c a b = .ok (branch, source, target)
      ∧ g.tree.find? c = some branch ∧ g.Between c a b ∧ edge = ⟨source, target, g.ids.next⟩
      ∧ e = branch.cluster.storage.attachHandle a b ∧ h = g.putEdge c a b edge := by
  obtain ⟨⟨branch, source, target⟩, hends, hadd⟩ := of_bind_eq_ok hadd
  obtain ⟨rfl, hanswer⟩ := Prod.mk.inj (Except.ok.inj hadd)
  obtain ⟨rfl, rfl⟩ := Prod.mk.inj hanswer
  obtain ⟨-, hfind, -⟩ := of_edgeEnds hends
  exact ⟨branch, source, target, hends, hfind, between_of_edgeEnds hs hends, rfl, rfl, rfl⟩

/-- What is done when two global vertices are connected. -/
theorem of_connect (hs : g.tree.Sound)
    (hadd : g.connect c source target = .ok (h, e, edge, own)) :
    ∃ holder a b, g.edgePlace c source target = .ok (holder, a, b)
      ∧ g.tree.find? holder.cluster.id = some holder ∧ g.Between holder.cluster.id a b
      ∧ edge = ⟨source, target, g.ids.next⟩ ∧ e = holder.cluster.storage.attachHandle a b
      ∧ own = decide (holder.cluster.id = c) ∧ h = g.putEdge holder.cluster.id a b edge := by
  obtain ⟨⟨holder, a, b⟩, hplace, hadd⟩ := of_bind_eq_ok hadd
  obtain ⟨rfl, hanswer⟩ := Prod.mk.inj (Except.ok.inj hadd)
  obtain ⟨rfl, hglobal⟩ := Prod.mk.inj hanswer
  obtain ⟨rfl, rfl⟩ := Prod.mk.inj hglobal
  obtain ⟨-, hfind, -⟩ := of_edgePlace hs hplace
  exact ⟨holder, a, b, hplace, hfind, between_of_edgePlace hs hplace, rfl, rfl, rfl, rfl⟩

theorem becomes_addEdge (hs : g.tree.Sound) (hadd : g.addEdge c a b = .ok (h, e, edge)) :
    g.tree.Becomes h.tree := by
  obtain ⟨branch, source, target, -, -, hab, -, -, rfl⟩ := of_addEdge hs hadd
  exact becomes_putEdge hs hab edge

theorem becomes_connect (hs : g.tree.Sound)
    (hadd : g.connect c source target = .ok (h, e, edge, own)) : g.tree.Becomes h.tree := by
  obtain ⟨holder, a, b, -, -, hab, -, -, -, rfl⟩ := of_connect hs hadd
  exact becomes_putEdge hs hab edge

/-! ## Commands -/

theorem of_quietly {x : Except Error Tree} {reply : Reply}
    (hg : g.quietly <$> x = .ok (h, reply)) :
    ∃ t, x = .ok t ∧ h = { g with tree := t } ∧ reply = .done := by
  obtain ⟨t, ht, heq⟩ := of_map_eq_ok hg
  obtain ⟨rfl, rfl⟩ := Prod.mk.inj heq
  exact ⟨t, ht, rfl, rfl⟩

theorem of_reporting {x : Except Error (Tree × List Removal)} {reply : Reply}
    (hg : g.reporting <$> x = .ok (h, reply)) :
    ∃ r, x = .ok r ∧ h = { g with tree := r.1 } ∧ reply = .removed r.2 := by
  obtain ⟨r, hr, heq⟩ := of_map_eq_ok hg
  obtain ⟨rfl, rfl⟩ := Prod.mk.inj heq
  exact ⟨r, hr, rfl, rfl⟩

theorem of_moving {x : Except Error (Tree × LocalVertex)} {reply : Reply}
    (hg : g.moving <$> x = .ok (h, reply)) :
    ∃ r, x = .ok r ∧ h = { g with tree := r.1 } ∧ reply = .moved r.2 := by
  obtain ⟨r, hr, heq⟩ := of_map_eq_ok hg
  obtain ⟨rfl, rfl⟩ := Prod.mk.inj heq
  exact ⟨r, hr, rfl, rfl⟩

/-- A command that is carried out keeps the tree sound, and brings no id
    back. -/
theorem becomes_perform (hs : g.tree.Sound) {command : Command} {reply : Reply}
    (hp : g.perform command = .ok (h, reply)) : g.tree.Becomes h.tree := by
  cases command with
  | drawId | raiseIds =>
      obtain ⟨rfl, -⟩ := Prod.mk.inj (Except.ok.inj hp)
      exact hs.becomes
  | setChanged c =>
      obtain ⟨t, ht, rfl, -⟩ := of_quietly hp
      exact hs.becomes_setChanged ht
  | clearChanged c =>
      obtain ⟨t, ht, rfl, -⟩ := of_quietly hp
      exact hs.becomes_setClusterProperty ht
  | setCopyMode c on =>
      obtain ⟨t, ht, rfl, -⟩ := of_quietly hp
      exact hs.becomes_setCopyMode ht
  | addCluster c =>
      obtain ⟨⟨g', child, v⟩, hadd, heq⟩ := of_map_eq_ok hp
      obtain ⟨rfl, -⟩ := Prod.mk.inj heq
      exact becomes_addCluster hs hadd
  | removeCluster c child =>
      obtain ⟨r, hr, rfl, -⟩ := of_reporting hp
      exact hs.becomes_removeCluster hr
  | removeClusterOn c v =>
      obtain ⟨r, hr, rfl, -⟩ := of_reporting hp
      exact hs.becomes_removeClusterOn hr
  | removeClusters c =>
      obtain ⟨r, hr, rfl, -⟩ := of_reporting hp
      exact hs.becomes_removeClusters hr
  | addVertex c =>
      obtain ⟨⟨g', v, global⟩, hadd, heq⟩ := of_map_eq_ok hp
      obtain ⟨rfl, -⟩ := Prod.mk.inj heq
      exact becomes_addVertex hs hadd
  | addVertexNamed c name =>
      obtain ⟨⟨g', v, global⟩, hadd, heq⟩ := of_map_eq_ok hp
      obtain ⟨rfl, -⟩ := Prod.mk.inj heq
      exact becomes_addVertexNamed hs hadd
  | addEdge c a b =>
      obtain ⟨⟨g', e, global⟩, hadd, heq⟩ := of_map_eq_ok hp
      obtain ⟨rfl, -⟩ := Prod.mk.inj heq
      exact becomes_addEdge hs hadd
  | connect c source target =>
      obtain ⟨⟨g', e, global, own⟩, hadd, heq⟩ := of_map_eq_ok hp
      obtain ⟨rfl, -⟩ := Prod.mk.inj heq
      exact becomes_connect hs hadd
  | removeVertex c v =>
      obtain ⟨r, hr, rfl, -⟩ := of_reporting hp
      exact hs.becomes_removeVertex hr
  | removeGlobalVertex c global =>
      obtain ⟨r, hr, rfl, -⟩ := of_reporting hp
      exact hs.becomes_removeGlobalVertex hr
  | removeEdge c e =>
      obtain ⟨r, hr, rfl, -⟩ := of_reporting hp
      exact hs.becomes_removeEdge hr
  | removeGlobalEdge c global =>
      obtain ⟨t, ht, rfl, -⟩ := of_quietly hp
      exact hs.becomes_removeGlobalEdge ht
  | moveIn c v child =>
      obtain ⟨r, hr, rfl, -⟩ := of_moving hp
      exact hs.becomes_moveIn hr
  | moveInOn c v place =>
      obtain ⟨r, hr, rfl, -⟩ := of_moving hp
      exact hs.becomes_moveInOn hr
  | moveOut c v =>
      obtain ⟨r, hr, rfl, -⟩ := of_moving hp
      exact hs.becomes_moveOut hr
  | setProperty type c key value =>
      obtain ⟨t, ht, rfl, -⟩ := of_quietly hp
      exact hs.becomes_setProperty ht
  | setClusterProperty type c value =>
      obtain ⟨t, ht, rfl, -⟩ := of_quietly hp
      exact hs.becomes_setClusterProperty ht
  | setSubclusterProperty type c v value =>
      obtain ⟨t, ht, rfl, -⟩ := of_quietly hp
      exact hs.becomes_setSubclusterProperty ht
  | setObject c key object =>
      obtain ⟨t, ht, heq⟩ := of_map_eq_ok hp
      obtain ⟨rfl, -⟩ := Prod.mk.inj heq
      exact hs.becomes_writeObject ht
  | clearObject type c key =>
      obtain ⟨t, ht, rfl, -⟩ := of_quietly hp
      exact hs.becomes_writeObject ht
  | renumber c =>
      obtain ⟨t, ht, rfl, -⟩ := of_quietly hp
      exact hs.becomes_renumber ht

end Sound

end Graph

end NestedGraph
