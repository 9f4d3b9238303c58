import NestedGraph.Proofs.Thinning

/-! # Persistence — changes that take nothing away

    A storage PERSISTS when each handle that resolved still does: a vertex
    has its global name, an edge its ends in their order.  What only adds
    to a tree, or only touches attributes, lets every cluster persist.
    Commands on attributes do so one small change at a time: each TOUCHES
    one cluster, and leaves the names in it alone. -/

namespace NestedGraph

/-! ## Storages -/

namespace Storage

variable {s s' s'' : Storage} {e : LocalEdge} {l : Link} {a b : LocalVertex}

/-- No handle went, and none stands for something else. -/
structure Persists (s s' : Storage) : Prop where
  vertex : ∀ v g, s.global? v = some g → s'.global? v = some g
  edge : ∀ e l, s.link? e = some l →
    ∃ l', s'.link? e = some l' ∧ l'.first = l.first ∧ l'.second = l.second

theorem Persists.refl (s : Storage) : s.Persists s :=
  ⟨fun _ _ hg => hg, fun _ l hl => ⟨l, hl, rfl, rfl⟩⟩

theorem Persists.trans (h : s.Persists s') (h' : s'.Persists s'') : s.Persists s'' := by
  refine ⟨fun v g hg => h'.vertex v g (h.vertex v g hg), fun e l hl => ?_⟩
  obtain ⟨l', hl', hfirst, hsecond⟩ := h.edge e l hl
  obtain ⟨l'', hl'', hfirst', hsecond'⟩ := h'.edge e l' hl'
  exact ⟨l'', hl'', hfirst'.trans hfirst, hsecond'.trans hsecond⟩

theorem persists_modifyVertex (s : Storage) (v : LocalVertex) {f : VertexRecord → VertexRecord}
    (hf : ∀ r, (f r).global = r.global) : s.Persists (s.modifyVertex v f) := by
  refine ⟨fun w g hg => ?_, fun _ l hl => ⟨l, hl, rfl, rfl⟩⟩
  obtain ⟨r, hr, rfl⟩ := Option.map_eq_some_iff.mp hg
  have hget : (s.modifyVertex v f).vertex? w = if w = v then (s.vertex? v).map f else s.vertex? w :=
    SlotStore.get?_modify ..
  rw [global?, hget]
  split
  · rename_i heq
    rw [← heq, hr]
    exact congrArg some (hf r)
  · rw [hr]
    rfl

theorem persists_modifyEdge (s : Storage) (e : LocalEdge) (f : EdgeRecord → EdgeRecord) :
    s.Persists (s.modifyEdge e f) := by
  refine ⟨fun _ _ hg => hg, fun k l hl => ?_⟩
  rw [link?_modifyEdge]
  split
  · rename_i heq
    rw [← heq, hl]
    exact ⟨_, rfl, rfl, rfl⟩
  · exact ⟨l, hl, rfl, rfl⟩

theorem persists_addVertex (hs : s.vertices.Tidy) (r : VertexRecord) :
    s.Persists (s.addVertex r) := by
  refine ⟨fun w g hg => ?_, fun _ l hl => ⟨l, hl, rfl, rfl⟩⟩
  obtain ⟨r', hr', rfl⟩ := Option.map_eq_some_iff.mp hg
  have hne : w ≠ s.vertices.nextHandle := by
    rintro rfl
    exact nomatch (SlotStore.get?_nextHandle hs).symm.trans hr'
  rw [global?, vertex?_addVertex hs, if_neg hne, hr']
  rfl

theorem persists_attach (hs : s.Listed) (a b : LocalVertex) (properties : List Value)
    (carried : List CarriedEdge) : s.Persists (s.attach a b properties carried) := by
  rw [attach]
  split
  · exact s.persists_modifyEdge _ _
  · refine ⟨fun _ _ hg => hg, fun k l hl => ⟨l, ?_, rfl, rfl⟩⟩
    have hne : k ≠ s.edges.nextHandle := by
      rintro rfl
      exact nomatch (SlotStore.get?_nextHandle hs.tidy).symm.trans hl
    rw [link?_addEdge hs, if_neg hne, hl]

theorem persists_attachLinks (hs : s.Listed) (links : List Link) :
    s.Persists (s.attachLinks links) := by
  induction links generalizing s with
  | nil => exact .refl s
  | cons l rest ih =>
      have hfirst := s.persists_attach hs l.first l.second l.record.properties l.record.carried
      exact hfirst.trans (ih (hs.attach ..))

/-- Attaching makes an edge for the ends given, if any. -/
theorem of_link?_attach (hs : s.Listed) {properties : List Value} {carried : List CarriedEdge}
    {l' : Link} (hl' : (s.attach a b properties carried).link? e = some l') :
    (∃ l, s.link? e = some l ∧ l'.first = l.first ∧ l'.second = l.second) ∨ l'.ends = s(a, b) := by
  rw [attach] at hl'
  split at hl'
  · rw [link?_modifyEdge] at hl'
    split at hl'
    · rename_i heq
      obtain ⟨l, hl, rfl⟩ := Option.map_eq_some_iff.mp hl'
      exact Or.inl ⟨l, heq ▸ hl, rfl, rfl⟩
    · exact Or.inl ⟨l', hl', rfl, rfl⟩
  · rw [link?_addEdge hs] at hl'
    split at hl'
    · obtain rfl := Option.some.inj hl'
      exact Or.inr rfl
    · exact Or.inl ⟨l', hl', rfl, rfl⟩

theorem of_link?_attachLinks (hs : s.Listed) {links : List Link} {l' : Link}
    (hl' : (s.attachLinks links).link? e = some l') :
    (∃ l, s.link? e = some l ∧ l'.first = l.first ∧ l'.second = l.second)
      ∨ ∃ x ∈ links, l'.ends = x.ends := by
  induction links generalizing s with
  | nil => exact Or.inl ⟨l', hl', rfl, rfl⟩
  | cons x rest ih =>
      rcases ih (hs.attach ..) hl' with ⟨l, hl, hfirst, hsecond⟩ | ⟨y, hy, hends⟩
      · rcases of_link?_attach hs hl with ⟨l0, hl0, hfirst0, hsecond0⟩ | hends
        · exact Or.inl ⟨l0, hl0, hfirst.trans hfirst0, hsecond.trans hsecond0⟩
        · refine Or.inr ⟨x, List.mem_cons_self .., ?_⟩
          rw [Link.ends, hfirst, hsecond]
          exact hends
      · exact Or.inr ⟨y, List.mem_cons_of_mem _ hy, hends⟩

/-- A handle whose slot is of another generation stays dead. -/
theorem outdated_attachLinks (h : s.edges.Outdated e) (links : List Link) :
    (s.attachLinks links).edges.Outdated e := by
  induction links generalizing s with
  | nil => exact h
  | cons l rest ih =>
      refine ih ?_
      show (s.attach l.first l.second l.record.properties l.record.carried).edges.Outdated e
      rw [attach]
      split
      · exact h.modify _ _
      · exact h.insert _

end Storage

/-! ## Trees -/

namespace Tree

variable {t t' t'' : Tree} {c : ClusterId} {type : AttributeType} {key : AttributeKey}

/-- Every cluster is there still, and persists. -/
def Persists (t t' : Tree) : Prop :=
  ∀ n ∈ t.nodes, ∃ n' ∈ t'.nodes, n'.id = n.id ∧ n.storage.Persists n'.storage

theorem Persists.refl (t : Tree) : t.Persists t := fun n hn => ⟨n, hn, rfl, .refl _⟩

theorem Persists.trans (h : t.Persists t') (h' : t'.Persists t'') : t.Persists t'' := by
  intro n hn
  obtain ⟨n', hn', hid, hkeep⟩ := h n hn
  obtain ⟨n'', hn'', hid', hkeep'⟩ := h' n' hn'
  exact ⟨n'', hn'', hid'.trans hid, hkeep.trans hkeep'⟩

theorem Distinct.persists_mapCluster (hd : t.Distinct) (c : ClusterId) {f : Cluster → Cluster}
    (hf : ∀ k : Cluster, (f k).id = k.id)
    (h : ∀ n ∈ t.nodes, n.storage.Persists (f n.cluster).storage) :
    t.Persists (t.mapCluster c f) := by
  intro n hn
  refine ⟨n.changeAt c f, ?_, Node.id_changeAt c hf n, ?_⟩
  · rw [hd.nodes_mapCluster c hf]
    exact Multiset.mem_map_of_mem _ hn
  · exact Node.changeAt_cases (P := fun n' => n.storage.Persists n'.storage) c (.refl _)
      (fun _ => h n hn)

theorem Distinct.persists_mapStorage (hd : t.Distinct) (c : ClusterId) {f : Storage → Storage}
    (h : ∀ n ∈ t.nodes, n.storage.Persists (f n.storage)) : t.Persists (t.mapStorage c f) :=
  hd.persists_mapCluster c (f := fun k => { k with storage := f k.storage }) (fun _ => rfl) h

theorem Distinct.persists_mark (hd : t.Distinct) (c : ClusterId) : t.Persists (t.mark c) := by
  refine hd.persists_mapCluster c (Cluster.id_mark t.config) (fun n _ => ?_)
  rw [Cluster.storage_mark]
  exact .refl _

theorem Sound.persists_receive (hs : t.Sound) (c : ClusterId) (r : VertexRecord)
    (nested : Option Branch) : t.Persists (t.receive c r nested) := by
  by_cases hc : c ∈ t.ids
  · obtain ⟨m, hm, rfl⟩ := Multiset.mem_map.mp hc
    obtain ⟨rest, hrest⟩ := nodes_cons_of_mem hm
    intro n hn
    rw [hs.distinct.nodes_receive hrest]
    rw [hrest, Multiset.mem_cons] at hn
    rcases hn with rfl | hn
    · exact ⟨_, Multiset.mem_cons_self .., rfl,
        Storage.persists_addVertex (hs.nodes n hm).storage.vertices r⟩
    · exact ⟨n, Multiset.mem_cons_of_mem (Multiset.mem_add.mpr (Or.inr hn)), rfl, .refl _⟩
  · rw [Tree.receive, update_of_dead _ hc]
    exact .refl t

/-! ### Attributes -/

/-- One small change of a cluster that leaves all names in it alone. -/
inductive Touches (t : Tree) : Tree → Prop where
  | cluster (c : ClusterId) (f : Cluster → Cluster) (hid : ∀ k : Cluster, (f k).id = k.id)
      (hstorage : ∀ k : Cluster, (f k).storage = k.storage) : Touches t (t.mapCluster c f)
  | vertex (c : ClusterId) (v : LocalVertex) (f : VertexRecord → VertexRecord)
      (hf : ∀ r, (f r).global = r.global) : Touches t (t.modifyVertex c v f)
  | edge (c : ClusterId) (e : LocalEdge) (f : EdgeRecord → EdgeRecord)
      (hf : ∀ r, (f r).globals = r.globals) : Touches t (t.modifyEdge c e f)

/-- Small changes in a row. -/
abbrev Retouches : Tree → Tree → Prop := Relation.ReflTransGen Touches

theorem retouches_setProperty {value : Value} (h : t.setProperty type c key value = .ok t') :
    t.Retouches t' := by
  obtain ⟨place, -, h⟩ := of_bind_eq_ok h
  split at h
  · obtain ⟨r, -, h⟩ := of_bind_eq_ok h
    obtain ⟨properties, -, h⟩ := of_bind_eq_ok h
    obtain rfl := Except.ok.inj h
    exact .single (.vertex _ _ _ (fun _ => rfl))
  · obtain ⟨r, -, h⟩ := of_bind_eq_ok h
    obtain ⟨properties, -, h⟩ := of_bind_eq_ok h
    obtain rfl := Except.ok.inj h
    exact .single (.edge _ _ _ (fun _ => rfl))

theorem retouches_setClusterProperty {value : Value}
    (h : t.setClusterProperty type c value = .ok t') : t.Retouches t' := by
  obtain ⟨b, -, h⟩ := of_bind_eq_ok h
  obtain ⟨properties, -, h⟩ := of_bind_eq_ok h
  obtain rfl := Except.ok.inj h
  exact .single (.cluster c (fun k => { k with properties := properties })
    (fun _ => rfl) (fun _ => rfl))

theorem retouches_writeObject {object : Option TypedObject}
    (h : t.writeObject type c key object = .ok t') : t.Retouches t' := by
  obtain ⟨place, -, h⟩ := of_bind_eq_ok h
  split at h
  · obtain ⟨r, -, h⟩ := of_bind_eq_ok h
    obtain ⟨objects, -, h⟩ := of_bind_eq_ok h
    obtain rfl := Except.ok.inj h
    exact .single (.vertex _ _ _ (fun _ => rfl))
  · rename_i owner e global
    obtain ⟨r, -, h⟩ := of_bind_eq_ok h
    obtain ⟨x, -, h⟩ := of_bind_eq_ok h
    obtain ⟨objects, -, h⟩ := of_bind_eq_ok h
    obtain rfl := Except.ok.inj h
    exact .single (.edge _ _ _ (fun r => r.globals_modifyCarried global (fun _ => rfl)))

theorem retouches_numberVertices (t : Tree) (c : ClusterId) (k : Nat) (vs : List LocalVertex) :
    t.Retouches (t.numberVertices c k vs) := by
  induction vs generalizing t k with
  | nil => exact .refl
  | cons v rest ih =>
      have hone : t.Touches (t.numberVertices c k [v]) := .vertex c v _ (fun _ => rfl)
      exact .head hone (ih _ (k + 1))

theorem retouches_numberEdges (t : Tree) (c : ClusterId) (k : Nat) (es : List LocalEdge) :
    t.Retouches (t.numberEdges c k es) := by
  induction es generalizing t k with
  | nil => exact .refl
  | cons e rest ih =>
      have hone : t.Touches (t.numberEdges c k [e]) := .edge c e _ (fun _ => rfl)
      exact .head hone (ih _ (k + 1))

theorem retouches_renumber (h : t.renumber c = .ok t') : t.Retouches t' := by
  obtain ⟨b, -, h⟩ := of_bind_eq_ok h
  obtain rfl := Except.ok.inj h
  exact (t.retouches_numberVertices c 0 _).trans (retouches_numberEdges _ c 0 _)

theorem Touches.distinct (hd : t.Distinct) (h : t.Touches t') : t'.Distinct := by
  cases h with
  | cluster c f hid => exact hd.mapCluster c hid
  | vertex c v f => exact hd.mapStorage c _
  | edge c e f => exact hd.mapStorage c _

theorem Touches.persists (hd : t.Distinct) (h : t.Touches t') : t.Persists t' := by
  cases h with
  | cluster c f hid hstorage =>
      refine hd.persists_mapCluster c hid (fun n _ => ?_)
      rw [hstorage]
      exact .refl _
  | vertex c v f hf =>
      exact hd.persists_mapStorage c (fun n _ => n.storage.persists_modifyVertex v hf)
  | edge c e f => exact hd.persists_mapStorage c (fun n _ => n.storage.persists_modifyEdge e f)

theorem Retouches.persists (hd : t.Distinct) (h : t.Retouches t') : t.Persists t' := by
  induction h using Relation.ReflTransGen.head_induction_on with
  | refl => exact .refl t'
  | head hfirst _ ih => exact (hfirst.persists hd).trans (ih (hfirst.distinct hd))

end Tree

/-! ## Commands -/

/-- A command on attributes goes by small changes. -/
theorem Graph.retouches_perform {g h : Graph} {command : Command} {reply : Reply}
    (hc : command.restyles = true) (hp : g.perform command = .ok (h, reply)) :
    g.tree.Retouches h.tree := by
  cases command with
  | setChanged c =>
      obtain ⟨t, ht, rfl, -⟩ := of_quietly hp
      obtain ⟨b, -, ht⟩ := of_bind_eq_ok ht
      obtain rfl := Except.ok.inj ht
      exact .single (.cluster c _ (Cluster.id_mark _) (Cluster.storage_mark _))
  | clearChanged c =>
      obtain ⟨t, ht, rfl, -⟩ := of_quietly hp
      exact Tree.retouches_setClusterProperty ht
  | setCopyMode c on =>
      obtain ⟨t, ht, rfl, -⟩ := of_quietly hp
      obtain ⟨b, -, ht⟩ := of_bind_eq_ok ht
      obtain rfl := Except.ok.inj ht
      exact .single (.cluster c (fun k => { k with copyMode := on }) (fun _ => rfl) (fun _ => rfl))
  | setProperty type c key value =>
      obtain ⟨t, ht, rfl, -⟩ := of_quietly hp
      exact Tree.retouches_setProperty ht
  | setClusterProperty type c value =>
      obtain ⟨t, ht, rfl, -⟩ := of_quietly hp
      exact Tree.retouches_setClusterProperty ht
  | setSubclusterProperty type c v value =>
      obtain ⟨t, ht, rfl, -⟩ := of_quietly hp
      obtain ⟨child, -, ht⟩ := of_bind_eq_ok ht
      exact Tree.retouches_setClusterProperty ht
  | setObject c key object =>
      obtain ⟨t, ht, heq⟩ := of_map_eq_ok hp
      obtain ⟨rfl, -⟩ := Prod.mk.inj heq
      exact Tree.retouches_writeObject ht
  | clearObject type c key =>
      obtain ⟨t, ht, rfl, -⟩ := of_quietly hp
      exact Tree.retouches_writeObject ht
  | renumber c =>
      obtain ⟨t, ht, rfl, -⟩ := of_quietly hp
      exact Tree.retouches_renumber ht
  | _ => exact absurd hc Bool.false_ne_true

namespace Graph

variable {g h : Graph} {c : ClusterId} {command : Command} {reply : Reply}

/-! ### What is added -/

theorem of_perform_addCluster (hp : g.perform (.addCluster c) = .ok (h, reply)) :
    ∃ branch, g.tree.find? c = some branch
      ∧ h.tree = (g.tree.withNext.receive c (g.tree.config.newVertex ⟨g.ids.next⟩)
        (some ⟨g.tree.config.newCluster ⟨g.tree.nextClusterId⟩, .nil⟩)).mark c
      ∧ reply = .subcluster ⟨g.tree.nextClusterId⟩ branch.nextVertex := by
  obtain ⟨⟨g', child, v⟩, hadd, heq⟩ := of_map_eq_ok hp
  obtain ⟨rfl, rfl⟩ := Prod.mk.inj heq
  obtain ⟨branch, hb, rfl, rfl, rfl⟩ := of_addCluster hadd
  exact ⟨branch, hb, rfl, rfl⟩

theorem of_perform_addVertex (hp : g.perform (.addVertex c) = .ok (h, reply)) :
    ∃ branch, g.tree.find? c = some branch ∧ h.tree = g.putVertex c ⟨g.ids.next⟩
      ∧ reply = .vertex branch.nextVertex ⟨g.ids.next⟩ := by
  obtain ⟨⟨g', v, global⟩, hadd, heq⟩ := of_map_eq_ok hp
  obtain ⟨rfl, rfl⟩ := Prod.mk.inj heq
  obtain ⟨branch, hb, rfl, rfl, rfl⟩ := of_addVertex hadd
  exact ⟨branch, hb, rfl, rfl⟩

/-- A name that is inside the cluster is answered by what stands for it there. -/
theorem of_perform_addVertexNamed {name : GlobalVertex}
    (hp : g.perform (.addVertexNamed c name) = .ok (h, reply)) :
    ∃ branch, g.tree.find? c = some branch ∧ ∃ v, reply = .vertex v name
      ∧ (branch.representative? name = some v ∧ h.tree = g.tree
        ∨ branch.representative? name = none ∧ h.tree = g.putVertex c name
          ∧ v = branch.nextVertex) := by
  obtain ⟨⟨g', v, global⟩, hadd, heq⟩ := of_map_eq_ok hp
  obtain ⟨rfl, rfl⟩ := Prod.mk.inj heq
  obtain ⟨rfl, -, branch, hb, ⟨hv, rfl⟩ | ⟨hnone, rfl, rfl⟩⟩ := of_addVertexNamed hadd
  · exact ⟨branch, hb, v, rfl, Or.inl ⟨hv, rfl⟩⟩
  · exact ⟨branch, hb, _, rfl, Or.inr ⟨hnone, rfl, rfl⟩⟩

theorem of_perform_addEdge {a b : LocalVertex} (hs : g.tree.Sound)
    (hp : g.perform (.addEdge c a b) = .ok (h, reply)) :
    ∃ branch global, g.tree.find? c = some branch ∧ g.Between c a b
      ∧ GlobalEdge.id global = g.ids.next ∧ h.tree = (g.putEdge c a b global).tree
      ∧ reply = .edge (branch.cluster.storage.attachHandle a b) global := by
  obtain ⟨⟨g', e, global⟩, hadd, heq⟩ := of_map_eq_ok hp
  obtain ⟨rfl, rfl⟩ := Prod.mk.inj heq
  obtain ⟨branch, source, target, -, hfind, hab, rfl, rfl, rfl⟩ := of_addEdge hs hadd
  exact ⟨branch, _, hfind, hab, rfl, rfl, rfl⟩

theorem of_perform_connect {source target : GlobalVertex} (hs : g.tree.Sound)
    (hp : g.perform (.connect c source target) = .ok (h, reply)) :
    ∃ holder a b global, g.edgePlace c source target = .ok (holder, a, b)
      ∧ g.tree.find? holder.cluster.id = some holder ∧ g.Between holder.cluster.id a b
      ∧ GlobalEdge.id global = g.ids.next
      ∧ h.tree = (g.putEdge holder.cluster.id a b global).tree
      ∧ reply = .placedEdge (holder.cluster.storage.attachHandle a b) global
        (decide (holder.cluster.id = c)) := by
  obtain ⟨⟨g', e, global, own⟩, hadd, heq⟩ := of_map_eq_ok hp
  obtain ⟨rfl, rfl⟩ := Prod.mk.inj heq
  obtain ⟨holder, a, b, hplace, hfind, hab, rfl, rfl, rfl, rfl⟩ := of_connect hs hadd
  exact ⟨holder, a, b, _, hplace, hfind, hab, rfl, rfl, rfl⟩

theorem persists_putVertex (hs : g.tree.Sound) (c : ClusterId) (global : GlobalVertex) :
    g.tree.Persists (g.putVertex c global) := by
  have hsound := (hs.becomes_receive c (g.tree.config.fits_newVertex global)).sound
  exact (hs.persists_receive c _ none).trans (hsound.distinct.persists_mark c)

theorem persists_putEdge (hs : g.tree.Sound) (c : ClusterId) (a b : LocalVertex)
    (global : GlobalEdge) :
    g.tree.Persists (g.putEdge c a b global).tree :=
  (hs.distinct.persists_mapStorage c (fun n hn =>
    n.storage.persists_attach (hs.nodes n hn).storage.listed a b _ _)).trans
      ((hs.distinct.mapStorage c _).persists_mark c)

/-- What takes nothing away lets every cluster persist. -/
theorem persists_perform (hs : g.tree.Sound) (hremoves : command.removes = false)
    (hmoves : command.moves = false) (hp : g.perform command = .ok (h, reply)) :
    g.tree.Persists h.tree := by
  by_cases hstyle : command.restyles = true
  · exact (retouches_perform hstyle hp).persists hs.distinct
  cases command with
  | drawId | raiseIds =>
      obtain ⟨rfl, -⟩ := Prod.mk.inj (Except.ok.inj hp)
      exact .refl _
  | addCluster c =>
      obtain ⟨branch, -, htree, -⟩ := of_perform_addCluster hp
      rw [htree]
      have hreceive : g.tree.Persists (g.tree.withNext.receive c
          (g.tree.config.newVertex ⟨g.ids.next⟩)
          (some ⟨g.tree.config.newCluster ⟨g.tree.nextClusterId⟩, .nil⟩)) :=
        hs.withNext.persists_receive c _ _
      exact hreceive.trans ((hs.receive_cluster c ⟨g.ids.next⟩).distinct.persists_mark c)
  | addVertex c =>
      obtain ⟨branch, -, htree, -⟩ := of_perform_addVertex hp
      rw [htree]
      exact persists_putVertex hs c _
  | addVertexNamed c name =>
      obtain ⟨branch, -, v, -, ⟨-, htree⟩ | ⟨-, htree, -⟩⟩ := of_perform_addVertexNamed hp
      · rw [htree]
        exact .refl _
      · rw [htree]
        exact persists_putVertex hs c name
  | addEdge c a b =>
      obtain ⟨branch, global, -, -, -, htree, -⟩ := of_perform_addEdge hs hp
      rw [htree]
      exact persists_putEdge hs c a b _
  | connect c source target =>
      obtain ⟨holder, a, b, global, -, -, -, -, htree, -⟩ := of_perform_connect hs hp
      rw [htree]
      exact persists_putEdge hs holder.cluster.id a b _
  | removeCluster | removeClusterOn | removeClusters | removeVertex | removeGlobalVertex
  | removeEdge | removeGlobalEdge => exact absurd hremoves Bool.false_ne_true.symm
  | moveIn | moveInOn | moveOut => exact absurd hmoves Bool.false_ne_true.symm
  | _ => exact absurd rfl hstyle

end Graph

end NestedGraph
