import NestedGraph.Proofs.Connection
import NestedGraph.Proofs.Generations
import NestedGraph.Proofs.Surroundings

/-! # Replacement — nothing is disturbed outside

    A copy that comes in place of what was in a cluster leaves the cluster
    where it is.  What was inside goes: clusters are dead, and handles do
    not resolve, since slots keep their generations when they are emptied.
    Outside, all is SPARED but for the edges that reached in. -/

namespace NestedGraph

/-! ## Handles that went with the content -/

section Copying

variable {σ : Type} (cloner : Cloner σ)

theorem generation_cloneVertices (entries : List (LocalVertex × VertexRecord)) (target : Storage)
    (state : σ) (i : Nat) :
    (cloneVertices cloner target entries state).1.1.vertices.generation i
        = target.vertices.generation i
      ∧ (cloneVertices cloner target entries state).1.1.edges = target.edges := by
  induction entries generalizing target state with
  | nil => exact ⟨rfl, rfl⟩
  | cons entry rest ih =>
      obtain ⟨v, r⟩ := entry
      obtain ⟨hvertices, hedges⟩ := ih
        (target.addVertex { r with objects := (cloneSlots cloner r.objects state).1 })
        (cloneSlots cloner r.objects state).2
      refine ⟨hvertices.trans ?_, hedges⟩
      exact SlotStore.generation_insert ..

theorem generation_cloneEdges (names : Renaming) (links : List Link) (target : Storage) (state : σ)
    (i : Nat) :
    (cloneEdges cloner names target links state).1.edges.generation i = target.edges.generation i
      ∧ (cloneEdges cloner names target links state).1.vertices = target.vertices := by
  induction links generalizing target state with
  | nil => exact ⟨rfl, rfl⟩
  | cons l rest ih =>
      rw [cloneEdges]
      cases names.handle? l.first with
      | none => exact ih target state
      | some a =>
          cases names.handle? l.second with
          | none => exact ih target state
          | some b =>
              obtain ⟨hedges, hvertices⟩ := ih
                (target.addEdge a b
                  { l.record with carried := (cloneCarried cloner l.record.carried state).1 })
                (cloneCarried cloner l.record.carried state).2
              refine ⟨hedges.trans ?_, hvertices⟩
              exact SlotStore.generation_insert ..

/-- A copy takes slots, and frees none. -/
theorem generation_cloneStorage (source target : Storage) (state : σ) (i : Nat) :
    (cloneStorage cloner source target state).1.1.vertices.generation i
        = target.vertices.generation i
      ∧ (cloneStorage cloner source target state).1.1.edges.generation i
        = target.edges.generation i := by
  obtain ⟨hvertices, hedges⟩ :=
    generation_cloneVertices cloner source.vertices.entries target state i
  obtain ⟨hedges', hvertices'⟩ := generation_cloneEdges cloner
    (cloneVertices cloner target source.vertices.entries state).1.2 source.edges.values
    (cloneVertices cloner target source.vertices.entries state).1.1
    (cloneVertices cloner target source.vertices.entries state).2 i
  constructor
  · refine Eq.trans ?_ hvertices
    exact congrArg (fun store => SlotStore.generation store i) hvertices'
  · exact hedges'.trans (congrArg (fun store => SlotStore.generation store i) hedges)

end Copying

namespace Storage

variable {s s' : Storage} {entity : Entity} {α : Type}

/-- A storage with the slots of another, each one generation further if it was
    filled. -/
structure Ages (s s' : Storage) : Prop where
  tidy : s'.Tidy
  vertices : ∀ i, s.vertices.isFilled i = true →
    s'.vertices.generation i = s.vertices.generation i + 1
  edges : ∀ i, s.edges.isFilled i = true → s'.edges.generation i = s.edges.generation i + 1

/-- Whatever is done to a storage, a handle from one generation before does not
    resolve until the count comes round. -/
theorem not_contains_changes {store : Storage → SlotStore entity α}
    (hturns : ∀ s : Storage, s.Tidy → ∀ c, (store s).Turns (store (s.change c))) (hs : s.Tidy)
    {h : Handle entity} (hgen : (store s).generation h.index = h.generation + 1)
    (cs : List StorageChange) (hfew : departures store h.index s cs + 1 < 2 ^ 32) :
    (store (s.changes cs)).contains h = false := by
  refine Bool.eq_false_iff.mpr (fun hlive => ?_)
  -- It would take a whole round of generations, less the one that has passed.
  have hsame := (SlotStore.contains_iff_isFilled.mp hlive).2
  rw [generation_changes hturns hs cs h.index, hgen, UInt32.add_assoc] at hsame
  have hzero : UInt32.ofNat (1 + departures store h.index s cs) = 0 := by
    rw [UInt32.ofNat_add]
    simpa using hsame
  have hdvd := (ofNat_eq_zero_iff _).mp hzero
  have hnone := Nat.eq_zero_of_dvd_of_lt hdvd (by omega)
  omega

/-- No handle from before resolves. -/
theorem Ages.not_contains (h : s.Ages s') (cs : List StorageChange) :
    (∀ v, s.hasVertex v = true → departures Storage.vertices v.index s' cs + 1 < 2 ^ 32 →
      (s'.changes cs).hasVertex v = false)
    ∧ ∀ e, s.hasEdge e = true → departures Storage.edges e.index s' cs + 1 < 2 ^ 32 →
      (s'.changes cs).hasEdge e = false := by
  constructor
  · intro v hv hfew
    obtain ⟨hfilled, hgen⟩ := SlotStore.contains_iff_isFilled.mp hv
    exact not_contains_changes (fun _ => turns_vertices) h.tidy (hgen ▸ h.vertices _ hfilled) cs hfew
  · intro e he hfew
    obtain ⟨hfilled, hgen⟩ := SlotStore.contains_iff_isFilled.mp he
    exact not_contains_changes (fun _ => turns_edges) h.tidy (hgen ▸ h.edges _ hfilled) cs hfew

theorem ages_cloneStorage {σ : Type} (cloner : Cloner σ) (source s : Storage) (state : σ)
    (hs : (cloneStorage cloner source s.clear state).1.1.Sound) :
    s.Ages (cloneStorage cloner source s.clear state).1.1 := by
  have hgen := generation_cloneStorage cloner source s.clear state
  refine ⟨⟨hs.vertices, hs.listed.tidy⟩, fun i hi => ?_, fun i hi => ?_⟩
  · rw [(hgen i).1]
    exact (SlotStore.generation_clear s.vertices i).trans (by rw [if_pos hi])
  · rw [(hgen i).2]
    exact (SlotStore.generation_clear s.edges i).trans (by rw [if_pos hi])

end Storage

namespace Tree

variable {t t' : Tree} {count : UInt64} {place copy b b' : Branch} {c d : ClusterId}

/-! ## What is spared -/

/-- Of a cluster outside cluster `c`, only edges that reach into `c` went. -/
structure Spares (t t' : Tree) (c d : ClusterId) : Prop where
  live : t'.isLive d = true
  place : t'.place? d = t.place? d
  children : t'.children d = t.children d
  vertices : t'.vertices d = t.vertices d ∧ ∀ v, t'.vertexRecord d v = t.vertexRecord d v
  mode : t'.isCopyMode d = t.isCopyMode d
  properties : ∀ type, type ≠ changedFlag → t'.clusterProperty type d = t.clusterProperty type d
  /-- Where nothing went, the flag is what it was as well. -/
  untouched : (∀ e, ∀ g ∈ t.carried d e, ¬ t.reaches c g = true) →
    ∀ type, t'.clusterProperty type d = t.clusterProperty type d
  carried : ∀ e, t'.carried d e = (t.carried d e).filter (fun g => !t.reaches c g)
  /-- An edge on which anything is left keeps its handle, its ends, its properties,
      and the objects of what is left. -/
  stays : ∀ e r, t.edgeRecord d e = .ok r → (r.without (t.reaches c)).carried ≠ [] →
    t'.endpoints? d e = t.endpoints? d e ∧ t'.edgeRecord d e = .ok (r.without (t.reaches c))
  goes : ∀ e r, t.edgeRecord d e = .ok r → (r.without (t.reaches c)).carried = [] →
    e ∉ t'.edges d
  edges : ∀ e ∈ t'.edges d, e ∈ t.edges d
  /-- A cluster that loses edges lies around. -/
  around : ∀ e, ∀ g ∈ t.carried d e, t.reaches c g = true → t.isAncestor d c = true
  changed : t'.isChanged d = true ↔ t.isChanged d = true
    ∨ t.isCopyMode d = false ∧ ∃ e, ∃ g ∈ t.carried d e, t.reaches c g = true

theorem carried_of_find? (hb : t.find? d = some b) (e : LocalEdge) :
    t.carried d e = b.cluster.storage.carried e := by
  rw [carried, storage?, hb]
  rfl

theorem Sound.mem_edges_of_find? (hs : t.Sound) (hb : t.find? d = some b) {e : LocalEdge} :
    e ∈ t.edges d ↔ ∃ l, b.cluster.storage.link? e = some l := by
  obtain rfl := id_of_find? hb
  exact hs.distinct.mem_edges (node_mem_of_find? hb)

theorem exists_link_of_edgeRecord (hb : t.find? d = some b) {e : LocalEdge} {r : EdgeRecord}
    (hr : t.edgeRecord d e = .ok r) :
    ∃ l, b.cluster.storage.link? e = some l ∧ l.record = r := by
  obtain ⟨own, hown, hr⟩ := of_edgeRecord hr
  obtain rfl := Option.some.inj (hown.symm.trans hb)
  exact Option.map_eq_some_iff.mp hr

theorem Sound.carries_iff_of_find? (hs : t.Sound) (hb : t.find? d = some b) (g : GlobalEdge) :
    (∃ z, (z, g) ∈ b.node.storage.carries) ↔ ∃ e, g ∈ t.carried d e := by
  obtain rfl := id_of_find? hb
  exact hs.distinct.carries_iff (node_mem_of_find? hb)

section Relieving

variable (hs : t.Sound) (hb : t.find? d = some b) (hb' : t'.find? d = some b')
  (h : b.node.Relieved t.config (t.reaches c) b'.node)
include hs hb hb' h

/-- An edge on which anything is left stays where it is. -/
theorem Sound.edge_stays_relieved {e : LocalEdge} {r : EdgeRecord} (hr : t.edgeRecord d e = .ok r)
    (hleft : (r.without (t.reaches c)).carried ≠ []) :
    t'.endpoints? d e = t.endpoints? d e ∧ t'.edgeRecord d e = .ok (r.without (t.reaches c)) := by
  obtain ⟨l, hl, rfl⟩ := exists_link_of_edgeRecord hb hr
  have hl' := h.link?_of_some (hs.nodes _ (node_mem_of_find? hb)).storage hl
  rw [if_neg (fun hempty => hleft (List.isEmpty_iff.mp hempty))] at hl'
  refine ⟨?_, edgeRecord_of_find? hb' hl'⟩
  rw [endpoints?_of_find? hb' hl', endpoints?_of_find? hb hl]

/-- An edge on which nothing is left goes. -/
theorem Sound.edge_goes_relieved (hs' : t'.Sound) {e : LocalEdge} {r : EdgeRecord}
    (hr : t.edgeRecord d e = .ok r) (hnone : (r.without (t.reaches c)).carried = []) :
    e ∉ t'.edges d := by
  intro hmem
  obtain ⟨l, hl, rfl⟩ := exists_link_of_edgeRecord hb hr
  have hl' := h.link?_of_some (hs.nodes _ (node_mem_of_find? hb)).storage hl
  rw [if_pos (List.isEmpty_iff.mpr hnone)] at hl'
  obtain ⟨l', hlive⟩ := (hs'.mem_edges_of_find? hb').mp hmem
  cases hl'.symm.trans hlive

/-- Where nothing reaches into the other cluster, properties are kept, the
    flag among them. -/
theorem Sound.clusterProperty_relieved (hconfig : t'.config = t.config)
    (hnone : ∀ e, ∀ g ∈ t.carried d e, ¬ t.reaches c g = true) (type : AttributeType) :
    t'.clusterProperty type d = t.clusterProperty type d := by
  have hsame : b'.node = b.node := h.same (fun z g hz => by
    obtain ⟨e, he⟩ := (hs.carries_iff_of_find? hb g).mp ⟨z, hz⟩
    exact hnone e g he)
  have hcluster : b'.cluster = b.cluster := congrArg Node.cluster hsame
  rw [clusterProperty_of_find? hb', clusterProperty_of_find? hb, hconfig, hcluster]

/-- What loses edges is flagged, unless it is in copy mode. -/
theorem Sound.isChanged_relieved (hconfig : t'.config = t.config) :
    t'.isChanged d = true ↔ t.isChanged d = true
      ∨ t.isCopyMode d = false ∧ ∃ e, ∃ g ∈ t.carried d e, t.reaches c g = true := by
  have hlost : (∃ z g, (z, g) ∈ b.node.storage.carries ∧ t.reaches c g = true)
      ↔ ∃ e, ∃ g ∈ t.carried d e, t.reaches c g = true := by
    constructor
    · rintro ⟨z, g, hz, hg⟩
      obtain ⟨e, he⟩ := (hs.carries_iff_of_find? hb g).mp ⟨z, hz⟩
      exact ⟨e, g, he, hg⟩
    · rintro ⟨e, g, hmem, hg⟩
      obtain ⟨z, hz⟩ := (hs.carries_iff_of_find? hb g).mpr ⟨e, hmem⟩
      exact ⟨z, g, hz, hg⟩
  have hflag := h.marked.flag
  rw [hlost] at hflag
  rw [isChanged, isChanged, isCopyMode, hb, hb', hconfig]
  exact hflag

/-- A cluster that is relieved of what reaches into another is spared. -/
theorem Sound.spares_of_relieved (hs' : t'.Sound) (hconfig : t'.config = t.config)
    (haround : ∀ e, ∀ g ∈ t.carried d e, t.reaches c g = true → t.isAncestor d c = true)
    (hplace : t'.place? d = t.place? d) : t.Spares t' c d := by
  refine ⟨?live, hplace, ?children, vertex_congr hb hb' h.vertices, ?mode, ?properties,
    hs.clusterProperty_relieved hb hb' h hconfig, ?carried,
    fun _ _ => hs.edge_stays_relieved hb hb' h, fun _ _ => hs.edge_goes_relieved hb hb' h hs',
    ?edges, haround, hs.isChanged_relieved hb hb' h hconfig⟩
  case live =>
    rw [isLive, hb']
    rfl
  case children =>
    rw [children_of_find? hb', children_of_find? hb]
    exact h.entries
  case mode =>
    rw [isCopyMode, isCopyMode, hb, hb']
    exact h.style.mode
  case properties =>
    intro type hne
    rw [clusterProperty_of_find? hb', clusterProperty_of_find? hb, hconfig]
    exact h.style.properties type hne
  case carried =>
    intro e
    rw [carried_of_find? hb', carried_of_find? hb]
    exact h.carried (hs.nodes _ (node_mem_of_find? hb)).storage e
  case edges =>
    intro e he
    obtain ⟨l', hl'⟩ := (hs'.mem_edges_of_find? hb').mp he
    obtain ⟨l, hl, -⟩ := Option.bind_eq_some_iff.mp ((h.link e).symm.trans hl')
    exact (hs.mem_edges_of_find? hb).mpr ⟨l, hl⟩

end Relieving

/-! ## The tree around -/

/-- All that a replacement of the content of a cluster does to a tree. -/
structure Replaces (t t' : Tree) (c : ClusterId) : Prop where
  config : t'.config = t.config
  outside : ∀ d, t.isLive d = true → t.isAncestor c d = false → t.Spares t' c d
  inside : ∀ d, t.isAncestor c d = true → d ≠ c → t'.isLive d = false
  /-- The cluster itself stays where it is. -/
  live : t'.isLive c = true
  place : t'.place? c = t.place? c
  mode : t'.isCopyMode c = t.isCopyMode c
  /-- What is new is inside it. -/
  fresh : ∀ d, t.isLive d = false → t'.isLive d = true → t'.isAncestor c d = true
  /-- No handle that resolved in the cluster does now, -/
  vertices : ∀ v ∈ t.vertices c, v ∉ t'.vertices c
  edges : ∀ e ∈ t.edges c, e ∉ t'.edges c
  /-- nor later on, until 2 ^ 32 entities went from its slot, the first of them
      with the content. -/
  lasting : ∀ s, t'.storage? c = some s → ∀ cs,
    (∀ v ∈ t.vertices c, Storage.departures Storage.vertices v.index s cs + 1 < 2 ^ 32 →
      (s.changes cs).hasVertex v = false)
    ∧ ∀ e ∈ t.edges c, Storage.departures Storage.edges e.index s cs + 1 < 2 ^ 32 →
      (s.changes cs).hasEdge e = false

section Around

variable {next : Nat} (h : t.Orderly count) (hplace : t.find? place.cluster.id = some place)
  (hid : copy.cluster.id = place.cluster.id) (hs' : (t.replaced place copy next).Sound)
  (hnew : ∀ d ∈ copy.inside.ids, t.nextClusterId ≤ d.id)
include h hplace hid hs'

theorem Orderly.exists_relieved (hd : t.isLive d = true)
    (hout : t.isAncestor place.cluster.id d = false) :
    ∃ b b', t.find? d = some b ∧ (t.replaced place copy next).find? d = some b'
      ∧ b.node.Relieved t.config (t.reaches place.cluster.id) b'.node := by
  obtain ⟨n, hn, rfl⟩ := Multiset.mem_map.mp (isLive_iff.mp hd)
  have hfar := (h.sound.notMem_nodes_iff hplace hn).mpr hout
  have hrelieved := h.relieved_withdrawSteps hplace hn hfar
  have hn' := (h.mem_nodes_replaced_iff hplace copy hid next).mpr (Or.inr ⟨n, hn, hfar, rfl⟩)
  obtain ⟨b, hb, rfl⟩ := h.sound.distinct.find?_of_mem hn
  obtain ⟨b', hb', hnode⟩ := hs'.distinct.find?_of_mem hn'
  rw [hrelieved.id] at hb'
  exact ⟨b, b', hb, hb', hnode ▸ hrelieved⟩

omit hs' in
include hnew in
/-- Of the clusters that were there, just the one that is emptied has a place in
    the copy. -/
theorem Orderly.of_mem_replaced (hd : d ∈ (t.replaced place copy next).ids) (hlive : d ∈ t.ids) :
    d = place.cluster.id ∨ t.isAncestor place.cluster.id d = false := by
  obtain ⟨n', hn', rfl⟩ := Multiset.mem_map.mp hd
  rcases (h.mem_nodes_replaced_iff hplace copy hid next).mp hn' with hn' | ⟨n, hn, hout, rfl⟩
  · have hmem : n'.id ∈ copy.ids := Multiset.mem_map_of_mem Node.id hn'
    rw [Branch.ids_eq, Multiset.mem_cons, hid] at hmem
    -- What is inside the copy has ids that were not given out before.
    refine hmem.imp_right (fun hin => ?_)
    exact absurd (h.sound.bound _ hlive) (Nat.not_lt.mpr (hnew _ hin))
  · rw [(h.relieved_withdrawSteps hplace hn hout).id]
    exact Or.inr ((h.sound.notMem_nodes_iff hplace hn).mp hout)

theorem Orderly.children_replaced (hd : t.isLive d = true)
    (hout : t.isAncestor place.cluster.id d = false) :
    (t.replaced place copy next).children d = t.children d := by
  obtain ⟨b, b', hb, hb', hrelieved⟩ := h.exists_relieved hplace hid hs' hd hout
  rw [children_of_find? hb', children_of_find? hb]
  exact hrelieved.entries

include hnew in
/-- A cluster that is not inside keeps its place. -/
theorem Orderly.place?_replaced (hlive : t.isLive d = true)
    (hd : d = place.cluster.id ∨ t.isAncestor place.cluster.id d = false) :
    (t.replaced place copy next).place? d = t.place? d := by
  have hdistinct := h.sound.distinct
  have hmem : ∀ p v, (v, d) ∈ (t.replaced place copy next).children p ↔ (v, d) ∈ t.children p := by
    intro p v
    constructor
    · intro hv
      obtain ⟨n', hn', rfl, he⟩ := exists_node_of_children hv
      rcases (h.mem_nodes_replaced_iff hplace copy hid next).mp hn' with hin | ⟨n, hn, hout, rfl⟩
      · -- The children of the copy are new.
        have hchild : d ∈ copy.nodes.bind Node.childIds :=
          Multiset.mem_bind.mpr ⟨n', hin, Multiset.mem_coe.mpr (List.mem_map_of_mem he)⟩
        have hids := copy.ids_eq_children.symm.trans copy.ids_eq
        rw [Multiset.cons_inj_right] at hids
        have hlater := hnew d (hids ▸ hchild)
        exact absurd (h.sound.bound _ (isLive_iff.mp hlive)) (Nat.not_lt.mpr hlater)
      · have hrelieved := h.relieved_withdrawSteps hplace hn hout
        rw [hrelieved.id, hdistinct.children_of_mem hn]
        exact hrelieved.entries ▸ he
    · intro hv
      obtain ⟨n, hn, rfl, he⟩ := exists_node_of_children hv
      have hout : t.isAncestor place.cluster.id n.id = false := by
        rcases hd with rfl | hd
        · exact hdistinct.not_isAncestor_of_child hv
        · refine Bool.eq_false_iff.mpr (fun hin => Bool.false_ne_true (hd.symm.trans ?_))
          rw [isAncestor, hdistinct.path_child hn he]
          exact decide_eq_true (List.mem_cons_of_mem _ (of_decide_eq_true hin))
      rw [h.children_replaced hplace hid hs' (isLive_iff.mpr (Multiset.mem_map_of_mem _ hn)) hout]
      exact hv
  refine Option.ext (fun step => ?_)
  obtain ⟨p, v⟩ := step
  rw [hs'.distinct.place?_eq_some_iff, hdistinct.place?_eq_some_iff]
  exact hmem p v

include hnew in
/-- Whatever is put into the cluster, all outside is spared. -/
theorem Orderly.replaces (hmode : copy.cluster.copyMode = place.cluster.copyMode)
    (hages : place.cluster.storage.Ages copy.cluster.storage) :
    t.Replaces (t.replaced place copy next) place.cluster.id := by
  have hd := h.sound.distinct
  have hself : (t.replaced place copy next).find? place.cluster.id = some copy :=
    hid ▸ hd.find?_replaced hplace hid next
  have hconfig : (t.replaced place copy next).config = t.config := config_withdrawAbove ..
  have hlive : t.isLive place.cluster.id = true := by
    rw [isLive, hplace]
    rfl
  have hvertices : ∀ v ∈ t.vertices place.cluster.id, place.cluster.storage.hasVertex v = true :=
    fun v hv => (hd.mem_vertices (node_mem_of_find? hplace)).mp hv
  have hedges : ∀ e ∈ t.edges place.cluster.id, place.cluster.storage.hasEdge e = true :=
    fun e he => SlotStore.contains_iff.mpr ((h.sound.mem_edges_of_find? hplace).mp he)
  refine ⟨hconfig, ?outside, ?inside, ?live, ?place, ?mode, ?fresh, ?vertices, ?edges, ?lasting⟩
  case outside =>
    intro d hlive hout
    obtain ⟨b, b', hb, hb', hrelieved⟩ := h.exists_relieved hplace hid hs' hlive hout
    refine h.sound.spares_of_relieved hb hb' hrelieved hs' hconfig (fun e g hg hreach => ?_)
      (h.place?_replaced hplace hid hs' hnew hlive (Or.inr hout))
    obtain ⟨n, hn, rfl, z, hz⟩ := exists_node_carrying hg
    obtain ⟨a, -, hstep⟩ := h.exists_step hplace hn ((h.sound.notMem_nodes_iff hplace hn).mpr hout)
      hz hreach
    exact decide_eq_true (List.mem_cons_of_mem _ (List.mem_map_of_mem hstep))
  case inside =>
    intro d hin hne
    refine Bool.eq_false_iff.mpr (fun halive => ?_)
    have hold : d ∈ t.ids := by
      obtain ⟨n, hn, rfl⟩ := Multiset.mem_map.mp ((h.sound.isAncestor_iff_mem_ids hplace).mp hin)
      exact Multiset.mem_map_of_mem Node.id (Multiset.mem_of_le (nodes_le_of_find? hplace) hn)
    rcases h.of_mem_replaced hplace hid hnew (isLive_iff.mp halive) hold with heq | hout
    · exact hne heq
    · exact Bool.false_ne_true (hout.symm.trans hin)
  case live =>
    rw [isLive, hself]
    rfl
  case place => exact h.place?_replaced hplace hid hs' hnew hlive (Or.inl rfl)
  case mode =>
    rw [isCopyMode, isCopyMode, hself, hplace]
    exact hmode
  case fresh =>
    intro d hdead hnewborn
    obtain ⟨n', hn', rfl⟩ := Multiset.mem_map.mp (isLive_iff.mp hnewborn)
    rcases (h.mem_nodes_replaced_iff hplace copy hid next).mp hn' with hin | ⟨n, hn, hout, rfl⟩
    · exact isAncestor_of_mem_nodes hs'.distinct hself hin
    · rw [(h.relieved_withdrawSteps hplace hn hout).id] at hdead
      have hold := isLive_iff.mpr (Multiset.mem_map_of_mem Node.id hn)
      exact absurd (hdead.symm.trans hold) Bool.false_ne_true
  case vertices =>
    intro v hv hmem
    have hlive' : copy.cluster.storage.hasVertex v = true := by
      rw [vertices_of_find? hself] at hmem
      exact SlotStore.contains_iff.mpr (SlotStore.mem_handles.mp hmem)
    have hdead := (hages.not_contains []).1 v (hvertices v hv) (by simp [Storage.departures])
    exact Bool.false_ne_true (hdead.symm.trans hlive')
  case edges =>
    intro e he hmem
    have hlive' : copy.cluster.storage.hasEdge e = true :=
      SlotStore.contains_iff.mpr ((hs'.mem_edges_of_find? hself).mp hmem)
    have hdead := (hages.not_contains []).2 e (hedges e he) (by simp [Storage.departures])
    exact Bool.false_ne_true (hdead.symm.trans hlive')
  case lasting =>
    intro s hs cs
    rw [storage?, hself] at hs
    obtain rfl := Option.some.inj hs
    exact ⟨fun v hv => (hages.not_contains cs).1 v (hvertices v hv),
      fun e he => (hages.not_contains cs).2 e (hedges e he)⟩

end Around

end Tree

/-- A copy replaces the content of the cluster that it goes to. -/
theorem Graph.replaces_copyInto {σ : Type} {source g g' : Graph} {c into : ClusterId}
    {cloner : Cloner σ} {state state' : σ} (hs : source.tree.Sound)
    (ho : g.tree.Orderly g.ids.count)
    (h : source.copyInto c g into cloner state = (.ok g', state')) :
    g.tree.Replaces g'.tree into := by
  obtain ⟨branch, place, hcopyable, hreplace, -⟩ := of_copyInto h
  obtain ⟨names, hgrows⟩ := hs.grows cloner hcopyable state
  obtain ⟨-, -, hplace, -⟩ := Tree.of_copyable hcopyable
  obtain rfl := Tree.id_of_find? hplace
  have hcleared : place.cluster.cleared.id = place.cluster.id := rfl
  have hsound := (ho.sound.becomes_replaced hcleared hplace hgrows).sound
  have hfind := ho.sound.distinct.find?_replaced hplace (hgrows.id.trans hcleared)
    (branch.clone cloner g.tree.nextClusterId place.cluster.cleared state).1.2
  have hstorage := (hsound.nodes _ (Tree.node_mem_of_find? hfind)).storage
  rw [Tree.replaceContent_eq] at hreplace
  rw [← (Prod.mk.inj hreplace).1]
  refine ho.replaces hplace (hgrows.id.trans hcleared) hsound (fun d hd => (hgrows.bound d hd).1) rfl ?_
  exact Storage.ages_cloneStorage cloner branch.cluster.storage place.cluster.storage state hstorage

/-! ## Runs -/

namespace Workspace

/-- **UNDISTURBED**: after a well-behaved run, a copy that succeeds replaces the
    content of one cluster of one tree, and moves the source of ids of that tree
    up to the larger of the two counts.  No other cluster of the tree changes but
    for the edges that reached into the one that is replaced, and nothing else
    in the workspace does.  The count is that of a copy whose cloner draws no
    ids. -/
theorem replaces_run {operations : List Operation} (h : empty.WellBehaved operations)
    {number target : Nat} {m k : Member} (hm : (empty.run operations).members[number]? = some m)
    (hk : (empty.run operations).members[target]? = some k) {ids ids' : IdSource}
    (hids : (empty.run operations).sources[m.source]? = some ids)
    (hids' : (empty.run operations).sources[k.source]? = some ids') {c into : ClusterId}
    {cloner : Cloner Nat} {w' : Workspace} {reply : Reply}
    (hstep : (empty.run operations).step (.copyInto number c target into cloner)
      = (w', .ok reply)) :
    ∃ t' ids'', w' = { empty.run operations with
        members := (empty.run operations).members.set target ⟨t', k.source⟩
        sources := (empty.run operations).sources.set k.source ids''
        serial := w'.serial }
      ∧ ids''.count.toNat = max ids'.count.toNat ids.count.toNat
      ∧ k.tree.Replaces t' into := by
  have hordered := ordered_empty.run h
  have hw := hordered.sound
  have hs : (empty.run operations).graph? number = some ⟨m.tree, ids⟩ :=
    graph?_eq_some.mpr ⟨m, ids, hm, hids, rfl⟩
  have hg : (empty.run operations).graph? target = some ⟨k.tree, ids'⟩ :=
    graph?_eq_some.mpr ⟨k, ids', hk, hids', rfl⟩
  obtain ⟨g', serial, hcopy, rfl⟩ := exists_copyInto hw hs hg hstep
  have hreplaces := Graph.replaces_copyInto (hw.tree hs) (hordered.tree hg) hcopy
  obtain ⟨-, -, -, -, hraise⟩ := Graph.of_copyInto hcopy
  refine ⟨g'.tree, g'.ids, ?_, ?_, hreplaces⟩
  · rw [put_of_member hk]
  · rw [hraise]
    exact IdSource.toNat_count_raise ids' ids.count

/-- A cluster with another one inside it is replaced.  The edge from the root
    into it is lost, and the root is marked for that. -/
theorem replaces_reached :
    let operations := [Operation.newGraph (.declared []) .fresh, .change 0 (.addVertex Tree.rootId),
      .newGraph (.sharedWith 0) (.startingAt 100), .change 1 (.addCluster Tree.rootId),
      .change 1 (.addCluster ⟨1⟩), .change 1 (.addVertex Tree.rootId), .change 1 (.addVertex ⟨1⟩),
      .change 1 (.connect Tree.rootId ⟨103⟩ ⟨104⟩),
      .change 1 (.setClusterProperty changedFlag Tree.rootId (.flag false))]
    let w := empty.run operations
    empty.WellBehaved operations
      ∧ ∃ k w' t', w.members[1]? = some k
        ∧ w.step (.copyInto 0 Tree.rootId 1 ⟨1⟩ pure) = (w', .ok .done)
        ∧ w'.members[1]? = some ⟨t', k.source⟩ ∧ k.tree.Replaces t' ⟨1⟩
        ∧ k.tree.isLive ⟨2⟩ = true ∧ t'.isLive ⟨2⟩ = false
        ∧ k.tree.isChanged Tree.rootId = false ∧ t'.isChanged Tree.rootId = true := by
  intro operations w
  have hwell : empty.WellBehaved operations := by decide +kernel
  have hm : ∃ m ∈ w.members[0]?, ∃ k ∈ w.members[1]?, ∃ ids ∈ w.sources[m.source]?,
      ∃ ids' ∈ w.sources[k.source]?, k.tree.isLive ⟨2⟩ = true
        ∧ k.tree.isAncestor ⟨1⟩ ⟨2⟩ = true ∧ k.tree.isLive Tree.rootId = true
        ∧ k.tree.isAncestor ⟨1⟩ Tree.rootId = false ∧ k.tree.isChanged Tree.rootId = false
        ∧ k.tree.isCopyMode Tree.rootId = false
        ∧ ∃ g ∈ k.tree.carried Tree.rootId ⟨0, 0⟩, k.tree.reaches ⟨1⟩ g = true := by decide +kernel
  obtain ⟨m, hm, k, hk, ids, hids, ids', hids', hinner, hin, hroot, hout, hflag, hmode, hlost⟩ := hm
  have hreply : (w.step (.copyInto 0 Tree.rootId 1 ⟨1⟩ pure)).2 = .ok .done := by decide +kernel
  obtain ⟨t', ids'', hw', -, hreplaces⟩ :=
    replaces_run hwell hm hk hids hids' (eq_of_answer hreply)
  have hmarked := (hreplaces.outside Tree.rootId hroot hout).changed
  refine ⟨hwell, k, _, t', hk, eq_of_answer hreply, ?_, hreplaces, hinner,
    hreplaces.inside ⟨2⟩ hin (by decide), hflag, hmarked.mpr (Or.inr ⟨hmode, ⟨0, 0⟩, hlost⟩)⟩
  rw [hw']
  exact List.getElem?_set_self (List.getElem?_eq_some_iff.mp hk).1

end Workspace

end NestedGraph
