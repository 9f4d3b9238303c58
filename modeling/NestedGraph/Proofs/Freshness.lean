import NestedGraph.Proofs.Order

/-! # Freshness — an id that is drawn was never seen before

    Several trees may draw from one source, while callers give names of
    their own and content is copied from tree to tree.  A source PASSED an
    id when its count is not below it.  Each of these ways to bring an id
    into a tree takes the source past it, and a source that passed an id
    stays past it, so what is drawn next is greater than everything that
    was in a tree of the source or was drawn from it at any time. -/

namespace NestedGraph

namespace Tree

variable {t t' : Tree} {c child : ClusterId} {v : LocalVertex} {result : Tree × List Removal}

/-! ## Changes that bring no name -/

theorem names_subset (h : t'.nodes.bind (fun n => n.storage.names)
    ≤ t.nodes.bind (fun n => n.storage.names)) : t'.names ⊆ t.names := by
  intro id hid
  rw [← Multiset.mem_coe, coe_names] at hid ⊢
  exact Multiset.mem_of_le h hid

theorem Lighter.names_subset (h : t.Lighter t') : t'.names ⊆ t.names := Tree.names_subset h.names_le

theorem Restyled.names_subset (h : t.Restyled t') : t'.names ⊆ t.names := h.lighter.names_subset

theorem Sound.names_discard (hs : t.Sound) (c : ClusterId) (v : LocalVertex) :
    (t.discard c v).1.names ⊆ t.names := Tree.names_subset (hs.names_discard_le c v)

theorem Sound.names_discardAll (hs : t.Sound) (c : ClusterId) (vs : List LocalVertex) :
    (t.discardAll c vs).1.names ⊆ t.names := by
  induction vs generalizing t with
  | nil => exact List.Subset.refl _
  | cons v rest ih =>
      have hfirst := hs.names_discard c v
      exact List.Subset.trans (ih (hs.becomes_discard c v).sound) hfirst

theorem Sound.names_removeCluster (hs : t.Sound) (h : t.removeCluster c child = .ok result) :
    result.1.names ⊆ t.names := by
  obtain ⟨w, -, h⟩ := of_bind_eq_ok h
  obtain rfl := Except.ok.inj h
  exact hs.names_discard c w

theorem Sound.names_removeClusterOn (hs : t.Sound) (h : t.removeClusterOn c v = .ok result) :
    result.1.names ⊆ t.names := by
  obtain ⟨child, -, h⟩ := of_bind_eq_ok h
  exact hs.names_removeCluster h

theorem Sound.names_removeClusters (hs : t.Sound) (h : t.removeClusters c = .ok result) :
    result.1.names ⊆ t.names := by
  obtain ⟨b, -, h⟩ := of_bind_eq_ok h
  obtain rfl := Except.ok.inj h
  exact hs.names_discardAll c _

theorem Sound.names_removeVertex (hs : t.Sound) (h : t.removeVertex c v = .ok result) :
    result.1.names ⊆ t.names := by
  obtain ⟨b, -, h⟩ := of_bind_eq_ok h
  obtain rfl := Except.ok.inj h
  exact hs.names_discard c v

theorem Sound.names_removeGlobalVertex (hs : t.Sound) {global : GlobalVertex}
    (h : t.removeGlobalVertex c global = .ok result) : result.1.names ⊆ t.names := by
  rw [removeGlobalVertex] at h
  split at h
  · cases h
  · rename_i owner w _
    obtain rfl := Except.ok.inj h
    have hmark := (hs.becomes_discard owner w).sound.distinct.restyled_markUpTo owner c
    exact List.Subset.trans hmark.names_subset (hs.names_discard owner w)

theorem Sound.names_removeEdge (hs : t.Sound) {e : LocalEdge} (h : t.removeEdge c e = .ok result) :
    result.1.names ⊆ t.names := by
  obtain ⟨b, -, h⟩ := of_bind_eq_ok h
  obtain rfl := Except.ok.inj h
  have hmark := Distinct.restyled_mark (hs.distinct.mapStorage c (fun s => s.removeEdge e)) c
  exact List.Subset.trans hmark.names_subset (hs.distinct.lighter_removeEdge c e).names_subset

theorem Sound.names_removeGlobalEdge (hs : t.Sound) {global : GlobalEdge}
    (h : t.removeGlobalEdge c global = .ok t') : t'.names ⊆ t.names := by
  rw [removeGlobalEdge] at h
  split at h
  · cases h
  · rename_i owner e _
    obtain rfl := Except.ok.inj h
    let p : GlobalEdge → Bool := fun other => other.same global
    have hmark := Distinct.restyled_markUpTo
      (hs.distinct.mapStorage owner (fun s => s.withdraw p e)) owner c
    exact List.Subset.trans hmark.names_subset (hs.lighter_withdraw p owner e).names_subset

theorem Sound.names_moveIn (hs : t.Sound) {result : Tree × LocalVertex}
    (h : t.moveIn c v child = .ok result) : result.1.names ⊆ t.names := by
  obtain ⟨b, inner, cv, record, routes, hin, -, -, hroutes, heq, -⟩ := of_moveIn hs h
  rw [heq]
  have hcarries := hin.carries hs (Branch.exists_target? hroutes)
  exact Tree.names_subset (le_of_eq ((hin.handover hs routes).names hcarries))

theorem Sound.names_moveInOn (hs : t.Sound) {place : LocalVertex} {result : Tree × LocalVertex}
    (h : t.moveInOn c v place = .ok result) : result.1.names ⊆ t.names := by
  obtain ⟨child, -, h⟩ := of_bind_eq_ok h
  exact hs.names_moveIn h

theorem Sound.names_moveOut (hs : t.Sound) {result : Tree × LocalVertex}
    (h : t.moveOut c v = .ok result) : result.1.names ⊆ t.names := by
  obtain ⟨b, inner, cv, record, hout, -, heq, -⟩ := of_moveOut hs h
  rw [heq]
  exact Tree.names_subset (le_of_eq ((hout.handover hs).names (hout.carries hs)))

/-! ## Changes that bring one -/

theorem mem_names_of_cons {id x : UInt64} (h : t'.nodes.bind (fun n => n.storage.names)
    = id ::ₘ t.nodes.bind (fun n => n.storage.names)) (hx : x ∈ t'.names) : x = id ∨ x ∈ t.names := by
  rw [← Multiset.mem_coe, coe_names, h, Multiset.mem_cons, ← coe_names, Multiset.mem_coe] at hx
  exact hx

end Tree

namespace Graph

variable {g h : Graph} {command : Command} {reply : Reply} {id : UInt64}

theorem of_mem_names_putVertex (hs : g.tree.Sound) {c : ClusterId} (hc : c ∈ g.tree.ids)
    {global : GlobalVertex} (hid : id ∈ (g.putVertex c global).names) :
    id = global.id ∨ id ∈ g.tree.names := by
  have hreceive := (hs.becomes_receive c (g.tree.config.fits_newVertex global)).sound
  have hmark := hreceive.distinct.restyled_mark c
  have hempty : ∀ m ∈ nestedNodes none, m.storage = .empty :=
    fun m hm => absurd hm (Multiset.notMem_zero m)
  have hnames := hs.names_receive hc (g.tree.config.newVertex global) hempty
  exact Tree.mem_names_of_cons hnames (hmark.names_subset hid)

theorem of_mem_names_putEdge (hs : g.tree.Sound) {c : ClusterId} (hc : c ∈ g.tree.ids)
    {a b : LocalVertex} {global : GlobalEdge} (hid : id ∈ (g.putEdge c a b global).tree.names) :
    id = global.id ∨ id ∈ g.tree.names := by
  have hmark := Tree.Distinct.restyled_mark (hs.distinct.mapStorage c (fun s =>
    s.attach a b g.tree.config.edge.initialValues [g.tree.config.newCarried global])) c
  exact Tree.mem_names_of_cons (hs.names_attach hc a b _ _) (hmark.names_subset hid)

theorem of_mem_names_addCluster (hs : g.tree.Sound) {c child : ClusterId} {v : LocalVertex}
    (hadd : g.addCluster c = .ok (h, child, v)) (hid : id ∈ h.tree.names) :
    id ∈ g.tree.names ∨ id ≤ h.ids.count := by
  obtain ⟨branch, hb, rfl, -, rfl⟩ := of_addCluster hadd
  have hc : c ∈ g.tree.ids := Tree.mem_ids_iff.mpr ⟨branch, hb⟩
  have hmark := (hs.receive_cluster c ⟨g.ids.next⟩).distinct.restyled_mark c
  -- The child comes without vertices, so its own vertex is the only one that is new.
  have hempty : ∀ m ∈ nestedNodes (some ⟨g.tree.config.newCluster ⟨g.tree.nextClusterId⟩, .nil⟩),
      m.storage = .empty := by
    intro m hm
    rw [Tree.nestedNodes_newCluster, Multiset.mem_singleton] at hm
    rw [hm]
    rfl
  have hnames := hs.withNext.names_receive hc (g.tree.config.newVertex ⟨g.ids.next⟩) hempty
  rcases Tree.mem_names_of_cons hnames (hmark.names_subset hid) with rfl | hid
  · exact Or.inr (UInt64.le_refl _)
  · exact Or.inl hid

/-- What a command brings into a tree, the source has passed afterwards. -/
theorem of_mem_names_perform (hs : g.tree.Sound) (hp : g.perform command = .ok (h, reply))
    (hid : id ∈ h.tree.names) : id ∈ g.tree.names ∨ id ≤ h.ids.count := by
  cases command with
  | drawId | raiseIds =>
      obtain ⟨rfl, -⟩ := Prod.mk.inj (Except.ok.inj hp)
      exact Or.inl hid
  | addCluster c =>
      obtain ⟨⟨g', child, v⟩, hadd, heq⟩ := of_map_eq_ok hp
      obtain ⟨rfl, -⟩ := Prod.mk.inj heq
      exact of_mem_names_addCluster hs hadd hid
  | removeCluster c child =>
      obtain ⟨r, hr, rfl, -⟩ := of_reporting hp
      exact Or.inl (hs.names_removeCluster hr hid)
  | removeClusterOn c v =>
      obtain ⟨r, hr, rfl, -⟩ := of_reporting hp
      exact Or.inl (hs.names_removeClusterOn hr hid)
  | removeClusters c =>
      obtain ⟨r, hr, rfl, -⟩ := of_reporting hp
      exact Or.inl (hs.names_removeClusters hr hid)
  | addVertex c =>
      obtain ⟨⟨g', v, global⟩, hadd, heq⟩ := of_map_eq_ok hp
      obtain ⟨rfl, -⟩ := Prod.mk.inj heq
      obtain ⟨branch, hb, rfl, -, rfl⟩ := of_addVertex hadd
      rcases of_mem_names_putVertex hs (Tree.mem_ids_iff.mpr ⟨branch, hb⟩) hid with rfl | hid
      · exact Or.inr (UInt64.le_refl _)
      · exact Or.inl hid
  | addVertexNamed c name =>
      obtain ⟨⟨g', v, global⟩, hadd, heq⟩ := of_map_eq_ok hp
      obtain ⟨rfl, -⟩ := Prod.mk.inj heq
      obtain ⟨-, -, branch, hb, ⟨-, rfl⟩ | ⟨-, -, rfl⟩⟩ := of_addVertexNamed hadd
      · exact Or.inl hid
      · rcases of_mem_names_putVertex hs (Tree.mem_ids_iff.mpr ⟨branch, hb⟩) hid with rfl | hid
        · exact Or.inr (IdSource.le_raise ..).2
        · exact Or.inl hid
  | addEdge c a b =>
      obtain ⟨⟨g', e, global⟩, hadd, heq⟩ := of_map_eq_ok hp
      obtain ⟨rfl, -⟩ := Prod.mk.inj heq
      obtain ⟨branch, source, target, -, hb, -, rfl, -, rfl⟩ := of_addEdge hs hadd
      rcases of_mem_names_putEdge hs (Tree.mem_ids_iff.mpr ⟨branch, hb⟩) hid with rfl | hid
      · exact Or.inr (UInt64.le_refl _)
      · exact Or.inl hid
  | connect c source target =>
      obtain ⟨⟨g', e, global, own⟩, hadd, heq⟩ := of_map_eq_ok hp
      obtain ⟨rfl, -⟩ := Prod.mk.inj heq
      obtain ⟨holder, a, b, -, hb, -, rfl, -, -, rfl⟩ := of_connect hs hadd
      rcases of_mem_names_putEdge hs (Tree.mem_ids_iff.mpr ⟨holder, hb⟩) hid with rfl | hid
      · exact Or.inr (UInt64.le_refl _)
      · exact Or.inl hid
  | removeVertex c v =>
      obtain ⟨r, hr, rfl, -⟩ := of_reporting hp
      exact Or.inl (hs.names_removeVertex hr hid)
  | removeGlobalVertex c global =>
      obtain ⟨r, hr, rfl, -⟩ := of_reporting hp
      exact Or.inl (hs.names_removeGlobalVertex hr hid)
  | removeEdge c e =>
      obtain ⟨r, hr, rfl, -⟩ := of_reporting hp
      exact Or.inl (hs.names_removeEdge hr hid)
  | removeGlobalEdge c global =>
      obtain ⟨t, ht, rfl, -⟩ := of_quietly hp
      exact Or.inl (hs.names_removeGlobalEdge ht hid)
  | moveIn c v child =>
      obtain ⟨r, hr, rfl, -⟩ := of_moving hp
      exact Or.inl (hs.names_moveIn hr hid)
  | moveInOn c v place =>
      obtain ⟨r, hr, rfl, -⟩ := of_moving hp
      exact Or.inl (hs.names_moveInOn hr hid)
  | moveOut c v =>
      obtain ⟨r, hr, rfl, -⟩ := of_moving hp
      exact Or.inl (hs.names_moveOut hr hid)
  | setChanged | clearChanged | setCopyMode | setProperty | setClusterProperty
  | setSubclusterProperty | setObject | clearObject | renumber =>
      obtain ⟨t, ht, rfl, -⟩ := of_restyles hs.distinct rfl hp
      exact Or.inl (ht.names_subset hid)

/-- What a copy brings into a tree was in its source. -/
theorem of_mem_names_copyInto {σ : Type} {source : Graph} {c into : ClusterId} {cloner : Cloner σ}
    {state state' : σ} (hs : source.tree.Sound) (hg : g.tree.Sound)
    (hcopy : source.copyInto c g into cloner state = (.ok h, state')) (hid : id ∈ h.tree.names) :
    id ∈ source.tree.names ∨ id ∈ g.tree.names := by
  obtain ⟨branch, place, hcopy, hreplace, -⟩ := of_copyInto hcopy
  obtain ⟨names, hgrows⟩ := hs.grows cloner hcopy state
  obtain ⟨-, hbranch, hplace, -⟩ := Tree.of_copyable hcopy
  obtain rfl := Tree.id_of_find? hbranch
  obtain rfl := Tree.id_of_find? hplace
  rw [Tree.replaceContent_eq] at hreplace
  rw [← (Prod.mk.inj hreplace).1] at hid
  exact hg.of_mem_names_replaced hplace hbranch hgrows hid

end Graph

/-! ## What is drawn -/

namespace Command

/-- The command draws an id when it is carried out. -/
def draws : Command → Bool
  | .drawId => true
  | .addCluster _ => true
  | .addVertex _ => true
  | .addEdge .. => true
  | .connect .. => true
  | _ => false

/-- The id that a command drew, by its answer and by the tree afterwards; for
    a new cluster it is that of the vertex. -/
def drawn (t : Tree) (reply : Reply) : Command → Option UInt64
  | .drawId => match reply with
      | .id id => some id
      | _ => none
  | .addCluster c => match reply with
      | .subcluster _ v => (t.global? c v).map GlobalVertex.id
      | _ => none
  | .addVertex _ => match reply with
      | .vertex _ global => some global.id
      | _ => none
  | .addEdge .. => match reply with
      | .edge _ global => some global.id
      | _ => none
  | .connect .. => match reply with
      | .placedEdge _ global _ => some global.id
      | _ => none
  | _ => none

end Command

namespace Graph

variable {g h : Graph} {command : Command} {reply : Reply} {id : UInt64}

/-- The vertex of a new cluster has the name that was drawn. -/
theorem global?_addCluster (hs : g.tree.Sound) {c child : ClusterId} {v : LocalVertex}
    (hadd : g.addCluster c = .ok (h, child, v)) : h.tree.global? c v = some ⟨g.ids.next⟩ := by
  obtain ⟨b, hb, rfl, rfl, rfl⟩ := of_addCluster hadd
  obtain rfl := Tree.id_of_find? hb
  obtain ⟨rest, hrest⟩ := Tree.nodes_cons_of_mem (Tree.node_mem_of_find? hb)
  have htidy := (hs.nodes _ (Tree.node_mem_of_find? hb)).storage.vertices
  -- The tree as `addCluster` leaves it, marked.
  let grown := g.tree.withNext.receive b.cluster.id (g.tree.config.newVertex ⟨g.ids.next⟩)
    (some ⟨g.tree.config.newCluster ⟨g.tree.nextClusterId⟩, .nil⟩)
  have hgrown := (hs.receive_cluster b.cluster.id ⟨g.ids.next⟩).distinct
  have hnodes := hs.withNext.distinct.nodes_receive hrest (g.tree.config.newVertex ⟨g.ids.next⟩)
    (some ⟨g.tree.config.newCluster ⟨g.tree.nextClusterId⟩, .nil⟩)
  have hmark := hgrown.nodes_mark hnodes
  show (grown.mark b.cluster.id).global? b.cluster.id b.nextVertex = _
  have hglobal := (hgrown.mark b.cluster.id).global?_of_mem (hmark ▸ Multiset.mem_cons_self ..)
    b.nextVertex
  rw [Node.id_mark, Node.storage_mark] at hglobal
  refine hglobal.trans ?_
  rw [Node.storage_receive, Storage.global?, Storage.vertex?_addVertex htidy]
  exact congrArg _ (if_pos rfl)

/-- A command that draws an id draws the next one. -/
theorem drawn_perform (hs : g.tree.Sound) (hd : command.draws = true)
    (hp : g.perform command = .ok (h, reply)) :
    command.drawn h.tree reply = some g.ids.next ∧ h.ids = g.ids.advance := by
  cases command with
  | drawId =>
      obtain ⟨rfl, rfl⟩ := Prod.mk.inj (Except.ok.inj hp)
      exact ⟨rfl, rfl⟩
  | addCluster c =>
      obtain ⟨⟨g', child, v⟩, hadd, heq⟩ := of_map_eq_ok hp
      obtain ⟨rfl, rfl⟩ := Prod.mk.inj heq
      have hglobal := global?_addCluster hs hadd
      obtain ⟨branch, -, -, -, rfl⟩ := of_addCluster hadd
      exact ⟨congrArg (Option.map GlobalVertex.id) hglobal, rfl⟩
  | addVertex c =>
      obtain ⟨⟨g', v, global⟩, hadd, heq⟩ := of_map_eq_ok hp
      obtain ⟨rfl, rfl⟩ := Prod.mk.inj heq
      obtain ⟨branch, -, rfl, -, rfl⟩ := of_addVertex hadd
      exact ⟨rfl, rfl⟩
  | addEdge c a b =>
      obtain ⟨⟨g', e, global⟩, hadd, heq⟩ := of_map_eq_ok hp
      obtain ⟨rfl, rfl⟩ := Prod.mk.inj heq
      obtain ⟨branch, source, target, -, -, -, rfl, -, rfl⟩ := of_addEdge hs hadd
      exact ⟨rfl, rfl⟩
  | connect c source target =>
      obtain ⟨⟨g', e, global, own⟩, hadd, heq⟩ := of_map_eq_ok hp
      obtain ⟨rfl, rfl⟩ := Prod.mk.inj heq
      obtain ⟨holder, a, b, -, -, -, rfl, -, -, rfl⟩ := of_connect hs hadd
      exact ⟨rfl, rfl⟩
  | _ => exact absurd hd Bool.false_ne_true

theorem drawn_eq_none (t : Tree) (reply : Reply) (hd : command.draws = false) :
    command.drawn t reply = none := by
  cases command with
  | drawId | addCluster | addVertex | addEdge | connect => exact absurd hd Bool.false_ne_true.symm
  | _ => rfl

end Graph

namespace Workspace

variable {w w' : Workspace} {operation : Operation} {result : Except Error Reply} {number s : Nat}
  {x id : UInt64} {among : Nat → Bool} {g g' : Graph}

/-! ## The history of a run -/

/-- All ids in the trees, each with the source that the tree draws from. -/
def stored (w : Workspace) : List (Nat × UInt64) :=
  w.members.flatMap (fun m => m.tree.names.map (fun id => (m.source, id)))

/-- The id that an operation draws, with the source. -/
def drawn? (w : Workspace) : Operation → Option (Nat × UInt64)
  | .change number command =>
      match w.step (.change number command) with
      | (w', .ok reply) => do
          let m ← w'.members[number]?
          let id ← command.drawn m.tree reply
          return (m.source, id)
      | (_, .error _) => none
  | _ => none

/-- Every id that was in a tree at some time of a run or was drawn in it,
    with the source. -/
def history : Workspace → List Operation → List (Nat × UInt64)
  | w, [] => w.stored
  | w, operation :: rest =>
      w.stored ++ (w.drawn? operation).toList ++ (w.step operation).1.history rest

/-- From the source of which tree to that of which a copy takes content. -/
def flow? (w : Workspace) : Operation → Option (Nat × Nat)
  | .copyInto number _ target _ _ => do
      let m ← w.members[number]?
      let m' ← w.members[target]?
      return (m.source, m'.source)
  | .duplicate number _ => do
      let m ← w.members[number]?
      return (m.source, w.sources.length)
  | _ => none

/-- Content gets into trees of some sources from trees of these only. -/
def Closed (among : Nat → Bool) (w : Workspace) (operation : Operation) : Prop :=
  ∀ flow ∈ w.flow? operation, among flow.2 = true → among flow.1 = true

/-- None of some sources went back, as it does when it overflows. -/
def Onward (among : Nat → Bool) (w w' : Workspace) : Prop :=
  ∀ s < w.sources.length, among s = true → ∀ ids ∈ w.sources[s]?, ∀ ids' ∈ w'.sources[s]?,
    ids.count ≤ ids'.count

/-- In a run some sources do not overflow, and content gets into their trees
    from their trees only. -/
def Steady (among : Nat → Bool) : Workspace → List Operation → Prop
  | _, [] => True
  | w, operation :: rest =>
      (w.Closed among operation ∧ w.Onward among (w.step operation).1)
        ∧ Steady among (w.step operation).1 rest

instance (among : Nat → Bool) (w : Workspace) (operation : Operation) :
    Decidable (w.Closed among operation) :=
  inferInstanceAs (Decidable (∀ flow ∈ w.flow? operation, among flow.2 = true → among flow.1 = true))

instance (among : Nat → Bool) (w w' : Workspace) : Decidable (w.Onward among w') :=
  inferInstanceAs (Decidable (∀ s < w.sources.length, among s = true → ∀ ids ∈ w.sources[s]?,
    ∀ ids' ∈ w'.sources[s]?, ids.count ≤ ids'.count))

instance decidableSteady (among : Nat → Bool) :
    (w : Workspace) → (operations : List Operation) → Decidable (w.Steady among operations)
  | _, [] => isTrue trivial
  | w, operation :: rest =>
      have := decidableSteady among (w.step operation).1 rest
      inferInstanceAs (Decidable (_ ∧ _))

/-- The source has passed the id. -/
def Passed (w : Workspace) (s : Nat) (x : UInt64) : Prop :=
  ∃ ids, w.sources[s]? = some ids ∧ x ≤ ids.count

/-- Some sources have passed all that is in their trees. -/
def Covered (among : Nat → Bool) (w : Workspace) : Prop :=
  ∀ m ∈ w.members, among m.source = true → ∀ x ∈ m.tree.names, w.Passed m.source x

theorem mem_stored : (s, x) ∈ w.stored ↔ ∃ m ∈ w.members, m.source = s ∧ x ∈ m.tree.names := by
  rw [stored, List.mem_flatMap]
  refine exists_congr (fun m => and_congr_right (fun _ => ?_))
  rw [List.mem_map]
  constructor
  · rintro ⟨id, hid, heq⟩
    obtain ⟨rfl, rfl⟩ := Prod.mk.inj heq
    exact ⟨rfl, hid⟩
  · rintro ⟨rfl, hx⟩
    exact ⟨x, hx, rfl⟩

theorem Covered.of_mem_stored (h : w.Covered among) (hs : among s = true) (hx : (s, x) ∈ w.stored) :
    w.Passed s x := by
  obtain ⟨m, hm, rfl, hname⟩ := mem_stored.mp hx
  exact h m hm hs x hname

/-! ## What is passed stays passed -/

theorem length_sources_put (w : Workspace) (number : Nat) (g : Graph) :
    (w.put number g).sources.length = w.sources.length := by
  rw [put]
  split
  · exact List.length_set
  · rfl

/-- A source that there is stays. -/
theorem Outcome.length_sources_le (h : w.Outcome operation w' result) :
    w.sources.length ≤ w'.sources.length := by
  cases h with
  | refused serial e => exact le_refl _
  | idle serial => exact le_refl _
  | command _ _ _ => exact le_of_eq (length_sources_put ..).symm
  | copy _ _ _ => exact le_of_eq (length_sources_put ..).symm
  | new hnew =>
      obtain ⟨config, -, -, hadd⟩ := of_newGraph hnew
      rcases hadd with ⟨m, -, rfl⟩ | ⟨count, rfl⟩
      · exact le_refl _
      · show _ ≤ (w.sources ++ [_]).length
        rw [List.length_append]
        exact Nat.le_add_right ..
  | duplicate _ _ =>
      show _ ≤ (w.sources ++ [_]).length
      rw [List.length_append]
      exact Nat.le_add_right ..

theorem Passed.onward (hx : w.Passed s x) (hlen : w.sources.length ≤ w'.sources.length)
    (hon : w.Onward among w') (hs : among s = true) : w'.Passed s x := by
  obtain ⟨ids, hids, hle⟩ := hx
  have hlt := (List.getElem?_eq_some_iff.mp hids).1
  have hids' := List.getElem?_eq_getElem (Nat.lt_of_lt_of_le hlt hlen)
  exact ⟨_, hids', UInt64.le_trans hle (hon s hlt hs ids hids _ hids')⟩

/-! ## What comes in is passed -/

theorem covered_put (hw : w.Sound) (hg : w.graph? number = some g) (hc : w.Covered among)
    (hon : w.Onward among (w.put number g'))
    (hnames : ∀ m, w.members[number]? = some m → among m.source = true → ∀ x ∈ g'.tree.names,
      x ≤ g'.ids.count ∨ w.Passed m.source x) : (w.put number g').Covered among := by
  have hlen := le_of_eq (length_sources_put w number g').symm
  obtain ⟨m, ids, hm, hids, rfl⟩ := graph?_eq_some.mp hg
  intro m' hm' hs x hx
  have hsame : m' ∈ w.members ∨ m' = { m with tree := g'.tree } := by
    rw [put_of_member hm] at hm'
    exact List.mem_or_eq_of_mem_set hm'
  rcases hsame with hm' | rfl
  · exact (hc m' hm' hs x hx).onward hlen hon hs
  · rcases hnames m hm hs x hx with hle | hpassed
    · refine ⟨g'.ids, ?_, hle⟩
      rw [put_of_member hm]
      exact List.getElem?_set_self (hw.sources m (List.mem_of_getElem? hm))
    · exact hpassed.onward hlen hon hs

theorem covered_addMember (hc : w.Covered among) {t : Tree} {source : Nat}
    (hnames : among source = true → ∀ x ∈ t.names, w.Passed source x) :
    (w.addMember t source).1.Covered among := by
  intro m hm hs x hx
  rcases List.mem_append.mp hm with hm | hm
  · exact hc m hm hs x hx
  · rw [List.mem_singleton.mp hm] at hs hx ⊢
    exact hnames hs x hx

theorem covered_addGraph (hc : w.Covered among)
    (hnames : among w.sources.length = true → ∀ x ∈ g.tree.names, x ≤ g.ids.count) :
    (w.addGraph g).1.Covered among := by
  let w' : Workspace := { w with sources := w.sources ++ [g.ids] }
  have hc' : w'.Covered among := by
    intro m hm hs x hx
    obtain ⟨ids, hids, hle⟩ := hc m hm hs x hx
    refine ⟨ids, ?_, hle⟩
    exact (List.getElem?_append_left (List.getElem?_eq_some_iff.mp hids).1).trans hids
  refine covered_addMember (w := w') hc' (fun hs x hx => ?_)
  exact ⟨g.ids, List.getElem?_concat_length, hnames hs x hx⟩

/-- The source of a graph has passed what is in the tree. -/
theorem Covered.le_count (hc : w.Covered among) {m : Member} (hm : w.members[number]? = some m)
    (hs : among m.source = true) (hg : w.graph? number = some g) (hx : x ∈ g.tree.names) :
    x ≤ g.ids.count := by
  obtain ⟨m', ids, hm', hids, rfl⟩ := graph?_eq_some.mp hg
  obtain rfl := Option.some.inj (hm.symm.trans hm')
  obtain ⟨ids', hids', hle⟩ := hc m (List.mem_of_getElem? hm) hs x hx
  obtain rfl := Option.some.inj (hids.symm.trans hids')
  exact hle

/-- One operation leaves everything passed. -/
theorem Outcome.covered (hw : w.Sound) (hc : w.Covered among) (h : w.Outcome operation w' result)
    (hclosed : w.Closed among operation) (hon : w.Onward among w') : w'.Covered among := by
  cases h with
  | refused serial e => exact hc
  | idle serial => exact hc
  | @command operation number serial command g g' reply hop hg hp =>
      refine covered_put hw hg hc hon (fun m hm hs x hx => ?_)
      rcases Graph.of_mem_names_perform (hw.tree hg) hp hx with hx | hle
      · obtain ⟨m', ids, hm', hids, rfl⟩ := graph?_eq_some.mp hg
        obtain rfl := Option.some.inj (hm.symm.trans hm')
        exact Or.inr (hc m (List.mem_of_getElem? hm) hs x hx)
      · exact Or.inl hle
  | @copy number target serial c into cloner source g g' hs hg hcopy =>
      refine covered_put hw hg hc hon (fun m hm hm' x hx => ?_)
      obtain ⟨branch, place, -, -, hids⟩ := Graph.of_copyInto hcopy
      rcases Graph.of_mem_names_copyInto (hw.tree hs) (hw.tree hg) hcopy hx with hx | hx
      · -- The other source passed it, and this one goes at least as far.
        obtain ⟨k, ids, hk, hkids, rfl⟩ := graph?_eq_some.mp hs
        have hfrom : among k.source = true := by
          refine hclosed (k.source, m.source) ?_ hm'
          show w.flow? (.copyInto number c target into cloner) = _
          rw [flow?, hk, hm]
          rfl
        have hle := hc.le_count hk hfrom hs hx
        rw [hids]
        exact Or.inl (UInt64.le_trans hle (g.ids.le_raise _).2)
      · obtain ⟨m', ids, hm'', -, rfl⟩ := graph?_eq_some.mp hg
        obtain rfl := Option.some.inj (hm.symm.trans hm'')
        exact Or.inr (hc m (List.mem_of_getElem? hm) hm' x hx)
  | new hnew =>
      obtain ⟨config, -, -, hadd⟩ := of_newGraph hnew
      rcases hadd with ⟨m, -, rfl⟩ | ⟨count, rfl⟩
      · exact covered_addMember hc (fun _ x hx => absurd hx List.not_mem_nil)
      · exact covered_addGraph hc (fun _ x hx => absurd hx List.not_mem_nil)
  | @duplicate number serial cloner g g' hg hcopy =>
      refine covered_addGraph (w := { w with serial := serial }) hc (fun hnew x hx => ?_)
      obtain ⟨m, ids, hm, hids, rfl⟩ := graph?_eq_some.mp hg
      have hfrom : among m.source = true := by
        refine hclosed (m.source, w.sources.length) ?_ hnew
        show w.flow? (.duplicate number cloner) = _
        rw [flow?, hm]
        rfl
      obtain ⟨branch, place, -, -, hraise⟩ := Graph.of_copyInto hcopy
      have hempty := Tree.sound_new (hw.tree hg).complete
      rcases Graph.of_mem_names_copyInto (hw.tree hg) hempty hcopy hx with hx | hx
      · rw [hraise]
        exact UInt64.le_trans (hc.le_count hm hfrom hg hx) (IdSource.le_raise ..).2
      · exact absurd hx List.not_mem_nil

/-! ## What is drawn is new -/

theorem drawn_done (t : Tree) (command : Command) : command.drawn t .done = none := by
  cases command <;> rfl

/-- What an operation draws is the next id of the source. -/
theorem of_drawn? (hw : w.Sound) (h : w.drawn? operation = some (s, id)) :
    ∃ ids, w.sources[s]? = some ids ∧ (w.step operation).1.sources[s]? = some ids.advance
      ∧ id = ids.next := by
  cases operation with
  | change number command =>
    have hstep := step_outcome hw (.change number command)
    rw [drawn?] at h
    generalize w.step (.change number command) = out at h hstep ⊢
    obtain ⟨w', result⟩ := out
    cases hstep with
    | refused serial e => exact nomatch h
    | idle serial hop =>
      obtain ⟨m, -, h⟩ := Option.bind_eq_some_iff.mp h
      rw [drawn_done] at h
      exact nomatch h
    | @command _ target serial command' g g' reply hop hg hp =>
      obtain ⟨rfl, rfl⟩ := Prod.mk.inj (Option.some.inj hop)
      obtain ⟨m, ids, hm, hids, rfl⟩ := graph?_eq_some.mp hg
      obtain ⟨m', hm', h⟩ := Option.bind_eq_some_iff.mp h
      obtain ⟨id', hdrawn, h⟩ := Option.bind_eq_some_iff.mp h
      obtain ⟨hsource, rfl⟩ := Prod.mk.inj (Option.some.inj h)
      replace hm' : (w.put number g').members[number]? = some m' := hm'
      rw [put_of_member hm, List.getElem?_set_self (List.getElem?_eq_some_iff.mp hm).1] at hm'
      obtain rfl := Option.some.inj hm'
      obtain rfl : m.source = s := hsource
      cases hd : command.draws with
      | false =>
        rw [Graph.drawn_eq_none _ _ hd] at hdrawn
        cases hdrawn
      | true =>
        obtain ⟨hnext, hadvance⟩ := Graph.drawn_perform (hw.tree hg) hd hp
        refine ⟨ids, hids, ?_, Option.some.inj (hdrawn.symm.trans hnext)⟩
        show (w.put number g').sources[m.source]? = _
        rw [put_of_member hm, hadvance]
        exact List.getElem?_set_self (List.getElem?_eq_some_iff.mp hids).1
  | _ => exact nomatch h

/-- A command that is carried out and draws an id is seen to do so. -/
theorem exists_drawn? (hw : w.Sound) {command : Command} {reply : Reply} {m : Member}
    (hd : command.draws = true) (hstep : w.step (.change number command) = (w', .ok reply))
    (hm : w'.members[number]? = some m) :
    ∃ id, command.drawn m.tree reply = some id
      ∧ w.drawn? (.change number command) = some (m.source, id) := by
  obtain ⟨k, ids, g', hk, hids, hp, rfl⟩ := exists_perform hw hstep hm
  have hs := hw.trees k (List.mem_of_getElem? hk)
  have hid : command.drawn g'.tree reply = some ids.next :=
    (Graph.drawn_perform (g := ⟨k.tree, ids⟩) hs hd hp).1
  refine ⟨ids.next, hid, ?_⟩
  rw [drawn?, hstep]
  refine Option.bind_eq_some_iff.mpr ⟨_, hm, ?_⟩
  exact Option.bind_eq_some_iff.mpr ⟨ids.next, hid, rfl⟩

/-- An id that is drawn is greater than all that the source had passed, and
    is passed afterwards. -/
theorem fresh_step (hw : w.Sound) (hs : among s = true)
    (hon : w.Onward among (w.step operation).1) (hd : w.drawn? operation = some (s, id)) :
    (∀ x, w.Passed s x → x < id) ∧ (w.step operation).1.Passed s id := by
  obtain ⟨ids, hids, hids', rfl⟩ := of_drawn? hw hd
  have hlt := IdSource.count_lt_next
    (hon s (List.getElem?_eq_some_iff.mp hids).1 hs ids hids _ hids')
  refine ⟨fun x hx => ?_, ids.advance, hids', UInt64.le_refl _⟩
  obtain ⟨ids', heq, hle⟩ := hx
  obtain rfl := Option.some.inj (hids.symm.trans heq)
  exact UInt64.lt_of_le_of_lt hle hlt

/-! ## Runs -/

theorem Passed.run (hw : w.Sound) (hs : among s = true) (hx : w.Passed s x)
    {operations : List Operation} (h : w.Steady among operations) : (w.run operations).Passed s x := by
  induction operations generalizing w with
  | nil => exact hx
  | cons operation rest ih =>
      obtain ⟨⟨-, hon⟩, hrest⟩ := h
      have hlen := (step_outcome hw operation).length_sources_le
      exact ih (hw.becomes_step operation).sound (hx.onward hlen hon hs) hrest

/-- Everything in the history of a run is passed at its end. -/
theorem passed_history (hw : w.Sound) (hc : w.Covered among) {operations : List Operation}
    (h : w.Steady among operations) (hs : among s = true) (hx : (s, x) ∈ w.history operations) :
    (w.run operations).Passed s x := by
  induction operations generalizing w with
  | nil => exact hc.of_mem_stored hs hx
  | cons operation rest ih =>
      obtain ⟨⟨hclosed, hon⟩, hrest⟩ := h
      have hw' := (hw.becomes_step operation).sound
      rw [history, List.mem_append, List.mem_append] at hx
      rcases hx with (hx | hx) | hx
      · have hpassed := hc.of_mem_stored hs hx
        have hlen := (step_outcome hw operation).length_sources_le
        exact (hpassed.onward hlen hon hs).run hw' hs hrest
      · have hdrawn := Option.mem_toList.mp hx
        exact (fresh_step hw hs hon hdrawn).2.run hw' hs hrest
      · exact ih hw' ((step_outcome hw operation).covered hw hc hclosed hon) hrest hx

/-- **FRESH IDS**: take some sources that do not overflow, into the trees of
    which content is copied from their own trees only, and any run.  The
    count of such a source is never below an id that was at any time in a
    tree of the source or was drawn from it, and a command that draws an id
    gets one that is greater than all of these. -/
theorem fresh_run {operations : List Operation} (h : empty.Steady among operations) :
    (∀ s, among s = true → ∀ x, (s, x) ∈ empty.history operations →
      ∃ ids, (empty.run operations).sources[s]? = some ids ∧ x ≤ ids.count)
    ∧ ∀ number command reply w' m, command.draws = true →
      (empty.run operations).step (.change number command) = (w', .ok reply) →
      (empty.run operations).Onward among w' → w'.members[number]? = some m →
      among m.source = true →
      ∃ id, command.drawn m.tree reply = some id
        ∧ ∀ x, (m.source, x) ∈ empty.history operations → x < id := by
  have hpassed : ∀ s, among s = true → ∀ x, (s, x) ∈ empty.history operations →
      (empty.run operations).Passed s x := fun s hs x hx =>
    passed_history sound_empty (fun m hm => absurd hm List.not_mem_nil) h hs hx
  refine ⟨hpassed, fun number command reply w' m hd hstep hon hm hs => ?_⟩
  have hw := sound_run operations
  obtain ⟨id, hid, hdrawn⟩ := exists_drawn? hw hd hstep hm
  have honward : (empty.run operations).Onward among
      ((empty.run operations).step (.change number command)).1 := by
    rw [hstep]
    exact hon
  refine ⟨id, hid, fun x hx => ?_⟩
  exact (fresh_step hw hs honward hdrawn).1 x (hpassed _ hs x hx)

/-- An id that was copied into a tree and removed from it is not drawn again
    by another tree of the source; a further source may overflow. -/
theorem fresh_removed :
    let operations := [Operation.newGraph (.declared []) .fresh,
      .newGraph (.sharedWith 0) (.sharedWith 0), .newGraph (.sharedWith 0) (.startingAt 100),
      .newGraph (.sharedWith 0) (.startingAt 18446744073709551615), .change 3 .drawId,
      .change 2 (.addVertex Tree.rootId), .change 0 (.addVertexNamed Tree.rootId ⟨40⟩),
      .copyInto 2 Tree.rootId 1 Tree.rootId pure, .change 1 (.removeGlobalVertex Tree.rootId ⟨101⟩)]
    let w := empty.run operations
    let among := fun s => decide (s < 2)
    empty.Steady among operations ∧ (0, 101) ∈ empty.history operations
      ∧ (∃ ids, w.sources[0]? = some ids ∧ 101 ≤ ids.count)
      ∧ ∃ m id, (w.step (.change 0 (.addCluster Tree.rootId))).1.members[0]? = some m
        ∧ m.tree.global? Tree.rootId ⟨1, 0⟩ = some ⟨id⟩ ∧ 101 < id := by
  intro operations w among
  have h : empty.Steady among operations := by decide +kernel
  have hx : (0, 101) ∈ empty.history operations := by decide +kernel
  obtain ⟨hcount, hfresh⟩ := fresh_run h
  have hon : w.Onward among (w.step (.change 0 (.addCluster Tree.rootId))).1 := by decide +kernel
  have hreply : (w.step (.change 0 (.addCluster Tree.rootId))).2 = .ok (.subcluster ⟨1⟩ ⟨1, 0⟩) :=
    by decide +kernel
  have hm : ∃ m ∈ (w.step (.change 0 (.addCluster Tree.rootId))).1.members[0]?,
      m.source = 0 ∧ m.tree.global? Tree.rootId ⟨1, 0⟩ = some ⟨102⟩ := by decide +kernel
  obtain ⟨m, hm, hsource, hglobal⟩ := hm
  have hstep : w.step (.change 0 (.addCluster Tree.rootId))
      = ((w.step (.change 0 (.addCluster Tree.rootId))).1, .ok (.subcluster ⟨1⟩ ⟨1, 0⟩)) := by
    rw [← hreply]
  have hs : among m.source = true := by
    rw [hsource]
    rfl
  obtain ⟨id, hid, hless⟩ := hfresh 0 (.addCluster Tree.rootId) _ _ m rfl hstep hon hm hs
  rw [hsource] at hless
  have hdrawn : Command.drawn m.tree (.subcluster ⟨1⟩ ⟨1, 0⟩) (.addCluster Tree.rootId) = some 102 :=
    congrArg (Option.map GlobalVertex.id) hglobal
  obtain rfl := Option.some.inj (hdrawn.symm.trans hid)
  exact ⟨h, hx, hcount 0 rfl 101 hx, m, _, hm, hglobal, hless 101 hx⟩

end Workspace

end NestedGraph
