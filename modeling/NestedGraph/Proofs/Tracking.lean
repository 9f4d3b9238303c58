import NestedGraph.Proofs.Contents
import NestedGraph.Proofs.Whereabouts

/-! # Tracking — which clusters a change marks

    A change MARKS a cluster when it sets the change flag there, unless
    the cluster is in copy mode, and touches neither flag nor mode
    otherwise.  It TRACKS a cluster when it marks it exactly if the
    structure of the cluster is another one afterwards.  Every structural
    command tracks every cluster that stays, apart from those that it
    passes on a way up, which it marks in any case.

    What comes or goes in one cluster shows in the number of its vertices
    and global edges, so several removals in a row cannot undo each
    other. -/

namespace NestedGraph

/-! ## The flag of one cluster -/

/-- What was written is read back. -/
theorem Layout.read_of_write {l : Layout} {type : AttributeType} {value : Value}
    {slots slots' : List Value} (h : l.write type value slots = .ok slots')
    (hk : value.kind = type.initial.kind) : l.read type slots' = .ok value := by
  obtain ⟨i, hi, h⟩ := of_bind_eq_ok h
  split at h
  · rename_i v hv
    split at h
    · obtain rfl := Except.ok.inj h
      rw [read, hi, ok_bind, List.getElem?_set_self (List.getElem?_eq_some_iff.mp hv).1]
      exact if_pos hk
    · cases h
  · cases h

/-- The change flag is set. -/
def Cluster.changed (config : Config) (k : Cluster) : Bool :=
  match config.cluster.read changedFlag k.properties with
  | .ok value => decide (value = .flag true)
  | .error _ => false

/-- Marking sets the flag, unless in copy mode. -/
theorem Cluster.changed_mark {config : Config} (hc : config.Complete) {k : Cluster}
    (hk : config.cluster.Fits k.properties) :
    (k.mark config).changed config = (k.changed config || !k.copyMode) := by
  unfold mark
  split
  · rename_i hmode
    simp [hmode]
  · rename_i hmode
    have hwrite : ∃ slots, config.cluster.write changedFlag (.flag true) k.properties = .ok slots :=
      hk.write_eq_ok hc.cluster rfl
    obtain ⟨slots, hw⟩ := hwrite
    have hread := Layout.read_of_write hw rfl
    rw [Bool.not_eq_true] at hmode
    simp [changed, Layout.put_of_write hw, hread, hmode]

/-! ## The size of one cluster -/

namespace Storage

/-- How many vertices and global edges there are. -/
def size (s : Storage) : Nat := s.ids.length

theorem size_eq (s : Storage) : s.size = s.holds.card + s.load.card := by
  rw [size, ← Multiset.coe_card, coe_ids, names, Multiset.card_add, Multiset.card_map,
    Multiset.card_map, carries, Multiset.card_map]

/-- All global edges are those of each edge. -/
theorem allCarried_eq (s : Storage) : s.allCarried = s.edges.handles.flatMap s.carried := by
  rw [allCarried, SlotStore.values, SlotStore.handles, List.flatMap_map, List.flatMap_map]
  refine List.flatMap_congr (fun entry hentry => ?_)
  have hl : s.link? entry.1 = some entry.2 := SlotStore.mem_entries.mp hentry
  rw [carried, edgeRecord?, hl]
  rfl

variable {s s' : Storage} {q : Sym2 LocalVertex × CarriedEdge → Prop} [DecidablePred q]

/-- A storage that keeps its vertices, and loses something that was carried,
    is smaller. -/
theorem size_lt_of_load (hv : s'.vertices = s.vertices) (h : s'.load = s.load.filter q)
    {x : Sym2 LocalVertex × CarriedEdge} (hx : x ∈ s.load) (hq : ¬ q x) : s'.size < s.size := by
  have hlt : (s.load.filter q).card < s.load.card := by
    refine Multiset.card_lt_card (lt_of_le_of_ne (Multiset.filter_le ..) (fun heq => ?_))
    exact hq (Multiset.filter_eq_self.mp heq x hx)
  rw [size_eq, size_eq, holds_of_vertices hv, h]
  omega

theorem size_addVertex (hs : s.vertices.Tidy) (r : VertexRecord) :
    (s.addVertex r).size = s.size + 1 := by
  rw [size_eq, size_eq, holds_addVertex hs, load_addVertex, Multiset.card_cons]
  omega

theorem size_attach (hs : s.Sound) (a b : LocalVertex) (properties : List Value) (x : CarriedEdge) :
    (s.attach a b properties [x]).size = s.size + 1 := by
  rw [size_eq, size_eq, holds_attach, load_attach hs.listed, Multiset.card_add]
  simp [add_assoc]

/-- A storage is smaller by a vertex that goes, if not by more. -/
theorem size_removeVertex_lt (hs : s.Sound) {v : LocalVertex} (hv : s.hasVertex v = true) :
    (s.removeVertex v).size < s.size := by
  obtain ⟨r, hr⟩ := hasVertex_iff.mp hv
  have hle : (s.removeVertex v).load.card ≤ s.load.card := by
    rw [load_removeVertex hs.listed]
    exact Multiset.card_le_card (Multiset.filter_le ..)
  rw [size_eq, size_eq, holds_removeVertex hr, Multiset.card_cons]
  omega

theorem size_removeEdge_lt (hs : s.Sound) {e : LocalEdge} (he : s.hasEdge e = true) :
    (s.removeEdge e).size < s.size := by
  obtain ⟨l, hl⟩ := SlotStore.contains_iff.mp he
  have hpos : 0 < l.load.card := by
    rw [Link.load, Multiset.card_map, Multiset.coe_card]
    exact List.length_pos_iff.mpr (hs.filled e l hl)
  have hload : s.load = l.load + (s.removeEdge e).load := load_removeEdge hl
  rw [size_eq, size_eq, holds_of_vertices (vertices_removeEdge s e), hload, Multiset.card_add]
  omega

/-- A storage is smaller by what is withdrawn, where anything is. -/
theorem size_withdraw_lt (hs : s.Sound) {p : GlobalEdge → Bool} {e : LocalEdge} {g : GlobalEdge}
    (hg : g ∈ s.carried e) (hp : p g = true) : (s.withdraw p e).size < s.size := by
  obtain ⟨l, hl, hmem⟩ := mem_carried.mp hg
  obtain ⟨x, hx, rfl⟩ := List.mem_map.mp hmem
  refine size_lt_of_load (vertices_withdraw ..) (load_withdraw hs p hl)
    (mem_load.mpr ⟨e, l, hl, rfl, hx⟩) (fun hnot => hnot ⟨rfl, hp⟩)

theorem size_withdrawAt_lt (hs : s.Sound) {p : GlobalEdge → Bool} {v : LocalVertex}
    (hne : s.matchingAt p v ≠ []) : (s.withdrawAt p v).size < s.size := by
  obtain ⟨g, hg⟩ := List.exists_mem_of_ne_nil _ hne
  rw [← Multiset.mem_coe, coe_matchingAt hs, Multiset.mem_map] at hg
  obtain ⟨x, hx, -⟩ := hg
  obtain ⟨hx, hmatch⟩ := Multiset.mem_filter.mp hx
  exact size_lt_of_load (vertices_withdrawAt ..) (load_withdrawAt hs p v) hx (not_not.mpr hmatch)

end Storage

/-! ## Clusters before and after -/

namespace Node

variable {config : Config} {on on' : Prop} {n n' n'' : Node}

/-- The structure of a cluster is the same: its vertices, its edges with what
    each of them carries, and its children. -/
structure SameStructure (n n' : Node) : Prop where
  vertices : ∀ v, v ∈ n'.storage.vertices.handles ↔ v ∈ n.storage.vertices.handles
  edges : ∀ e, e ∈ n'.storage.edges.handles ↔ e ∈ n.storage.edges.handles
  carried : ∀ e, n'.storage.carried e = n.storage.carried e
  children : ∀ entry, entry ∈ n'.entries ↔ entry ∈ n.entries

theorem SameStructure.refl (n : Node) : n.SameStructure n :=
  ⟨fun _ => Iff.rfl, fun _ => Iff.rfl, fun _ => rfl, fun _ => Iff.rfl⟩

/-- The same structure has the same size. -/
theorem SameStructure.size_eq (h : n.SameStructure n') : n'.storage.size = n.storage.size := by
  have hvertices : n'.storage.vertices.handles.Perm n.storage.vertices.handles :=
    (List.perm_ext_iff_of_nodup (SlotStore.nodup_handles _) (SlotStore.nodup_handles _)).mpr h.vertices
  have hedges : n'.storage.edges.handles.Perm n.storage.edges.handles :=
    (List.perm_ext_iff_of_nodup (SlotStore.nodup_handles _) (SlotStore.nodup_handles _)).mpr h.edges
  have hglobals : ∀ s : Storage, s.globals.length = s.vertices.handles.length := by
    intro s
    simp [Storage.globals, SlotStore.values, SlotStore.handles]
  have hcarried : n'.storage.allCarried.Perm n.storage.allCarried := by
    rw [Storage.allCarried_eq, Storage.allCarried_eq, funext h.carried]
    exact hedges.flatMap_right _
  simp only [Storage.size, Storage.ids, List.length_append, List.length_map, hglobals,
    hvertices.length_eq, hcarried.length_eq]

/-- Of the flag and the mode of a cluster, only the flag is touched: it is set
    where `on` holds, unless the cluster is in copy mode. -/
structure Marked (config : Config) (on : Prop) (n n' : Node) : Prop where
  id : n'.id = n.id
  mode : n'.cluster.copyMode = n.cluster.copyMode
  flag : n'.cluster.changed config = true
    ↔ n.cluster.changed config = true ∨ n.cluster.copyMode = false ∧ on

theorem Marked.trans (h : n.Marked config on n') (h' : n'.Marked config on' n'') :
    n.Marked config (on ∨ on') n'' := by
  refine ⟨h'.id.trans h.id, h'.mode.trans h.mode, ?_⟩
  rw [h'.flag, h.flag, h.mode]
  tauto

theorem Marked.congr (h : n.Marked config on n') (heq : on ↔ on') : n.Marked config on' n' :=
  ⟨h.id, h.mode, by rw [h.flag, heq]⟩

/-- What happens to storage and children does not touch the flag. -/
theorem marked_of_cluster {k : Cluster} {entries : List (LocalVertex × ClusterId)}
    (hid : k.id = n.id) (hmode : k.copyMode = n.cluster.copyMode)
    (hprops : k.properties = n.cluster.properties) : n.Marked config False ⟨k, entries⟩ := by
  refine ⟨hid, hmode, ?_⟩
  show k.changed config = true ↔ _
  rw [Cluster.changed, hprops, and_false, or_false]
  rfl

theorem Marked.refl (n : Node) : n.Marked config False n := marked_of_cluster rfl rfl rfl

theorem marked_mark (hc : config.Complete) (hn : config.cluster.Fits n.cluster.properties) :
    n.Marked config True (n.mark config) := by
  refine ⟨id_mark .., Cluster.copyMode_mark .., ?_⟩
  show (n.cluster.mark config).changed config = true ↔ _
  rw [Cluster.changed_mark hc hn]
  simp

/-- A cluster is marked exactly if its structure changed, or if `on`
    holds. -/
def Tracked (config : Config) (on : Prop) (n n' : Node) : Prop :=
  n.Marked config (¬ n.SameStructure n' ∨ on) n'

theorem Tracked.refl (n : Node) : n.Tracked config False n := by
  refine (Marked.refl n).congr ?_
  simp [SameStructure.refl]

theorem Marked.tracked (h : n.Marked config True n') (hne : ¬ n.SameStructure n') :
    n.Tracked config False n' := h.congr (by simp [hne])

/-! ### Clusters that things are taken from -/

/-- Nothing was taken from a cluster, or something was and the cluster is
    marked. -/
def Pruned (config : Config) (n n' : Node) : Prop :=
  n' = n ∨ n.Marked config True n' ∧ (∀ entry ∈ n'.entries, entry ∈ n.entries)
    ∧ n'.storage.size < n.storage.size

namespace Pruned

theorem id (h : n.Pruned config n') : n'.id = n.id := by
  rcases h with rfl | ⟨hmark, -⟩
  · rfl
  · exact hmark.id

theorem entries (h : n.Pruned config n') : ∀ entry ∈ n'.entries, entry ∈ n.entries := by
  rcases h with rfl | ⟨-, hentries, -⟩
  · exact fun _ he => he
  · exact hentries

theorem size_le (h : n.Pruned config n') : n'.storage.size ≤ n.storage.size := by
  rcases h with rfl | ⟨-, -, hsize⟩
  · exact le_refl _
  · exact hsize.le

theorem marked (h : n.Pruned config n') : ∃ on, n.Marked config on n' := by
  rcases h with rfl | ⟨hmark, -⟩
  · exact ⟨_, .refl n'⟩
  · exact ⟨_, hmark⟩

theorem trans (h : n.Pruned config n') (h' : n'.Pruned config n'') : n.Pruned config n'' := by
  rcases h with rfl | ⟨hmark, hentries, hsize⟩
  · exact h'
  · obtain ⟨on, hmark'⟩ := h'.marked
    refine Or.inr ⟨(hmark.trans hmark').congr (by simp), fun entry he => ?_, ?_⟩
    · exact hentries entry (h'.entries entry he)
    · exact Nat.lt_of_le_of_lt h'.size_le hsize

/-- What went shows in the size. -/
theorem tracked (h : n.Pruned config n') : n.Tracked config False n' := by
  rcases h with rfl | ⟨hmark, -, hsize⟩
  · exact .refl n'
  · exact hmark.tracked (fun hsame => absurd hsame.size_eq hsize.ne)

end Pruned

/-- A withdrawal prunes each cluster on the way up. -/
theorem Sound.pruned_withdrawSteps (hc : config.Complete) (hn : n.Sound config)
    (p : GlobalEdge → Bool) (steps : List (ClusterId × LocalVertex)) :
    n.Pruned config (n.withdrawSteps config p steps) := by
  induction steps generalizing n with
  | nil => exact Or.inl rfl
  | cons step rest ih =>
      show n.Pruned config
        ((n.changeAt step.1 (Cluster.withdrawAt config p step.2)).withdrawSteps config p rest)
      by_cases hid : n.id = step.1
      · rw [changeAt, if_pos hid]
        refine Pruned.trans ?_ (ih (hn.withdrawAt p step.2))
        by_cases hnone : n.cluster.storage.matchingAt p step.2 = []
        · refine Or.inl ?_
          rw [Cluster.withdrawAt, if_pos (List.isEmpty_iff.mpr hnone)]
        · have hcluster : n.cluster.withdrawAt config p step.2
              = (n.mapStorage (fun s => s.withdrawAt p step.2)).cluster.mark config :=
            if_neg (fun hempty => hnone (List.isEmpty_iff.mp hempty))
          rw [hcluster]
          refine Or.inr ⟨?_, fun _ he => he, ?_⟩
          · have hstored : n.Marked config False (n.mapStorage (fun s => s.withdrawAt p step.2)) :=
              marked_of_cluster rfl rfl rfl
            exact (hstored.trans (marked_mark hc hn.properties)).congr (by simp)
          · show (Cluster.mark config _).storage.size < _
            rw [Cluster.storage_mark]
            exact Storage.size_withdrawAt_lt hn.storage hnone
      · rw [changeAt_of_ne _ hid]
        exact ih hn

end Node

/-! ## Trees before and after -/

namespace Tree

variable {t t' t'' : Tree} {n n' : Node} {c d : ClusterId} {v : LocalVertex} {b : Branch}

/-- Every cluster that stays is marked exactly if its structure changed, or if
    it is one of those picked out. -/
def Tracked (t t' : Tree) (on : ClusterId → Prop) : Prop :=
  ∀ n' ∈ t'.nodes, n'.id ∈ t.ids → ∃ n ∈ t.nodes, n.Tracked t.config (on n.id) n'

/-- No cluster came, and clusters from which something was taken are
    marked. -/
def Pruned (t t' : Tree) : Prop := ∀ n' ∈ t'.nodes, ∃ n ∈ t.nodes, n.Pruned t.config n'

theorem Pruned.tracked (h : t.Pruned t') : t.Tracked t' (fun _ => False) := by
  intro n' hn' _
  obtain ⟨n, hn, hprune⟩ := h n' hn'
  exact ⟨n, hn, hprune.tracked⟩

theorem Pruned.trans (hconfig : t'.config = t.config) (h : t.Pruned t') (h' : t'.Pruned t'') :
    t.Pruned t'' := by
  intro n'' hn''
  obtain ⟨n', hn', hprune'⟩ := h' n'' hn''
  obtain ⟨n, hn, hprune⟩ := h n' hn'
  exact ⟨n, hn, hprune.trans (hconfig ▸ hprune')⟩

/-- Where clusters are only pruned, those that stay keep their way up. -/
theorem Pruned.path (h : t.Pruned t') (hd : t.Distinct) (hd' : t'.Distinct)
    (hroot : t'.root = t.root) (hlive : d ∈ t'.ids) : t'.path d = t.path d := by
  refine hd.path_of_entries hd' hroot (fun n' hn' => ?_) hlive
  obtain ⟨n, hn, hprune⟩ := h n' hn'
  exact ⟨n, hn, hprune.id.symm, hprune.entries⟩

theorem Lighter.path (h : t.Lighter t') (hd : t.Distinct) (hd' : t'.Distinct)
    (hroot : t'.root = t.root) (hlive : d ∈ t'.ids) : t'.path d = t.path d := by
  obtain ⟨f, hf, hlight⟩ := h
  refine hd.path_of_entries hd' hroot (fun n' hn' => ?_) hlive
  rw [hf] at hn'
  obtain ⟨n, hn, rfl⟩ := Multiset.mem_map.mp hn'
  exact ⟨n, hn, (hlight n hn).id.symm, fun entry he => (hlight n hn).entries ▸ he⟩

/-! ### Marks along a way up -/

/-- Marking clusters marks those and no others. -/
theorem Sound.of_mem_foldl_mark (hs : t.Sound) {cs : List ClusterId}
    (hn' : n' ∈ (cs.foldl Tree.mark t).nodes) :
    ∃ n ∈ t.nodes, n.Marked t.config (n.id ∈ cs) n' ∧ n'.storage = n.storage
      ∧ n'.entries = n.entries := by
  induction cs generalizing t with
  | nil => exact ⟨n', hn', (Node.Marked.refl n').congr (by simp), rfl, rfl⟩
  | cons c rest ih =>
      obtain ⟨m, hm, hmark, hstorage, hentries⟩ := ih (hs.mark c) hn'
      rw [Tree.mark, hs.distinct.nodes_mapCluster c (Cluster.id_mark t.config)] at hm
      obtain ⟨n, hn, rfl⟩ := Multiset.mem_map.mp hm
      by_cases hc : n.id = c
      · rw [Node.changeAt, if_pos hc] at hmark hstorage hentries
        have hfirst := Node.marked_mark hs.complete (hs.nodes n hn).properties
        refine ⟨n, hn, (hfirst.trans hmark).congr (by simp [hc]), ?_, hentries⟩
        exact hstorage.trans (Cluster.storage_mark ..)
      · rw [Node.changeAt_of_ne _ hc] at hmark hstorage hentries
        exact ⟨n, hn, hmark.congr (by simp [hc]), hstorage, hentries⟩

/-- Marks that follow a pruning. -/
theorem Pruned.foldl_mark (h : t.Pruned t') (hs : t'.Sound) (hconfig : t'.config = t.config)
    (cs : List ClusterId) : t.Tracked (cs.foldl Tree.mark t') (fun d => d ∈ cs) := by
  intro n' hn' _
  obtain ⟨m, hm, hmark, hstorage, hentries⟩ := hs.of_mem_foldl_mark hn'
  obtain ⟨n, hn, hprune⟩ := h m hm
  have hsame : n.SameStructure n' ↔ n.SameStructure m := by
    constructor
    · rintro ⟨h1, h2, h3, h4⟩
      rw [hstorage] at h1 h2 h3
      rw [hentries] at h4
      exact ⟨h1, h2, h3, h4⟩
    · rintro ⟨h1, h2, h3, h4⟩
      rw [← hstorage] at h1 h2 h3
      rw [← hentries] at h4
      exact ⟨h1, h2, h3, h4⟩
  rw [hconfig] at hmark
  refine ⟨n, hn, (hprune.tracked.trans hmark).congr ?_⟩
  rw [hsame, hprune.id, or_false]

theorem Distinct.isAncestor_antisymm (hd : t.Distinct) (h : t.isAncestor c d = true)
    (h' : t.isAncestor d c = true) : c = d := by
  rcases List.mem_cons.mp (of_decide_eq_true h) with rfl | hmem
  · rfl
  rcases List.mem_cons.mp (of_decide_eq_true h') with rfl | hmem'
  · rfl
  obtain ⟨⟨_, v⟩, hv, rfl⟩ := List.mem_map.mp hmem
  obtain ⟨⟨_, w⟩, hw, rfl⟩ := List.mem_map.mp hmem'
  exact absurd (hd.length_path_lt hw) (Nat.lt_asymm (hd.length_path_lt hv))

theorem wayUp_self (t : Tree) (c : ClusterId) : t.wayUp c c = [c] := by
  rw [wayUp, wayUp.upTo, if_pos rfl]

theorem self_mem_wayUp (t : Tree) (c last : ClusterId) : c ∈ t.wayUp c last := by
  rw [wayUp, wayUp.upTo]
  split
  · exact List.mem_cons_self ..
  · exact List.mem_cons_self ..

/-- The clusters up to one on the way up are those in between. -/
theorem Distinct.mem_wayUp (hd : t.Distinct) {last : ClusterId} (h : t.isAncestor last c = true) :
    d ∈ t.wayUp c last ↔ t.isAncestor last d = true ∧ t.isAncestor d c = true := by
  have hself : ∀ a, t.isAncestor a a = true := t.isAncestor_self
  generalize hp : t.path c = p
  induction p generalizing c with
  | nil =>
      have hc : ∀ a, t.isAncestor a c = true ↔ a = c := by
        intro a
        simp [isAncestor, hp]
      obtain rfl := (hc last).mp h
      rw [wayUp_self, List.mem_singleton, hc]
      refine ⟨?_, fun h => h.2⟩
      rintro rfl
      exact ⟨hself d, rfl⟩
  | cons step p ih =>
      obtain ⟨a, v⟩ := step
      obtain ⟨rfl, n, hn, rfl, he⟩ := hd.path_eq_cons hp
      have hup : ∀ x, t.isAncestor x c = true ↔ x = c ∨ t.isAncestor x n.id = true := by
        intro x
        simp [isAncestor, hp]
      by_cases hc : c = last
      · -- The way ends where it starts.
        subst hc
        rw [wayUp_self, List.mem_singleton]
        refine ⟨?_, fun h => hd.isAncestor_antisymm h.2 h.1⟩
        rintro rfl
        exact ⟨hself d, hself d⟩
      · -- It goes on from the parent, and there the induction takes over.
        have hway : t.wayUp c last = c :: t.wayUp n.id last := by
          rw [wayUp, hp, wayUp.upTo, if_neg hc]
          rfl
        have hlast := ((hup last).mp h).resolve_left (Ne.symm hc)
        rw [hway, List.mem_cons, hup]
        refine (or_congr_right (ih hlast rfl)).trans ?_
        constructor
        · rintro (rfl | ⟨hin, hout⟩)
          · exact ⟨h, Or.inl rfl⟩
          · exact ⟨hin, Or.inr hout⟩
        · rintro ⟨hin, rfl | hout⟩
          · exact Or.inl rfl
          · exact Or.inr ⟨hin, hout⟩

/-! ### Vertices that go -/

/-- A vertex that goes is missed in its cluster, and wherever edges of it are
    stored. -/
theorem Sound.pruned_discard (hs : t.Sound) (hv : v ∈ t.vertices c) :
    t.Pruned (t.discard c v).1 := by
  obtain ⟨n, hn, rfl⟩ := exists_node_of_vertices hv
  rw [hs.distinct.mem_vertices hn] at hv
  obtain ⟨b, hb, rfl⟩ := hs.distinct.find?_of_mem hn
  obtain ⟨rest, hnodes, hcutNodes⟩ := hs.nodes_cutAt hb v
  have hcut := hs.cutAt b.cluster.id v
  let p := GlobalEdge.touches (b.travelling v)
  let steps := (t.cutAt b.cluster.id v).path b.cluster.id
  have hout : (t.discard b.node.id v).1
      = ((t.cutAt b.cluster.id v).withdrawAbove p b.cluster.id).mark b.cluster.id := by
    rw [discard, hb]
    rfl
  have hnodes' : (t.discard b.node.id v).1.nodes = (b.node.cut v ::ₘ rest).map (fun n =>
      (n.withdrawSteps t.config p steps).changeAt b.cluster.id (Cluster.mark t.config)) := by
    have habove := (hcut.withdrawAbove p b.cluster.id).distinct
    rw [hout, Tree.mark, habove.nodes_mapCluster _ (Cluster.id_mark _), config_withdrawAbove,
      nodes_withdrawAbove hcut.distinct, Multiset.map_map, hcutNodes]
    rfl
  intro n' hn'
  rw [hnodes', Multiset.map_cons, Multiset.mem_cons, Multiset.mem_map] at hn'
  rcases hn' with rfl | ⟨m, hm, rfl⟩
  · -- The cluster itself loses the vertex.
    have hsound := (hs.nodes _ hn).cut v
    have hprune := Node.Sound.pruned_withdrawSteps hs.complete hsound p steps
    have hfits := (hsound.withdrawSteps p steps).sound.properties
    have hid : ((b.node.cut v).withdrawSteps t.config p steps).id = b.cluster.id := hprune.id
    obtain ⟨on, hmark⟩ := hprune.marked
    have hcutMark : b.node.Marked t.config False (b.node.cut v) :=
      Node.marked_of_cluster rfl rfl rfl
    rw [Node.changeAt, if_pos hid]
    refine ⟨b.node, hn, Or.inr ⟨?_, fun entry he => ?_, ?_⟩⟩
    · exact ((hcutMark.trans hmark).trans (Node.marked_mark hs.complete hfits)).congr (by simp)
    · exact (Node.mem_entries_cut.mp (hprune.entries entry he)).1
    · have hlt : (b.node.cut v).storage.size < b.node.storage.size :=
        Storage.size_removeVertex_lt (hs.nodes _ hn).storage hv
      show (Cluster.mark t.config _).storage.size < _
      rw [Cluster.storage_mark]
      exact Nat.lt_of_le_of_lt hprune.size_le hlt
  · -- Any other one may lose edges.
    have hmem : m ∈ t.nodes := by
      rw [hnodes]
      exact Multiset.mem_cons_of_mem (Multiset.mem_add.mpr (Or.inr hm))
    have hne : m.id ≠ b.cluster.id := hcut.distinct.id_ne_of_cons hcutNodes hm
    have hprune := Node.Sound.pruned_withdrawSteps hs.complete (hs.nodes m hmem) p steps
    rw [Node.changeAt_of_ne _ (ne_of_eq_of_ne hprune.id hne)]
    exact ⟨m, hmem, hprune⟩

theorem Sound.mem_vertices_of_isClusterVertex (hs : t.Sound) (hv : t.isClusterVertex c v = true) :
    v ∈ t.vertices c := by
  cases hb : t.find? c with
  | none =>
      rw [isClusterVertex, childAt?, hb] at hv
      cases hv
  | some b =>
      obtain rfl := id_of_find? hb
      have hn := node_mem_of_find? hb
      obtain ⟨entry, he, rfl⟩ := List.mem_map.mp ((hs.distinct.isClusterVertex_iff hn v).mp hv)
      exact (hs.distinct.mem_vertices hn).mpr ((hs.nodes _ hn).held entry he)

/-- Vertices with clusters on them go one after the other. -/
theorem Sound.pruned_discardAll (hs : t.Sound) {vs : List LocalVertex} (hvs : vs.Nodup)
    (hcluster : ∀ v ∈ vs, t.isClusterVertex c v = true) : t.Pruned (t.discardAll c vs).1 := by
  induction vs generalizing t with
  | nil => exact fun n hn => ⟨n, hn, Or.inl rfl⟩
  | cons v rest ih =>
      rw [List.nodup_cons] at hvs
      have hfirst := hs.pruned_discard (hs.mem_vertices_of_isClusterVertex
        (hcluster v (List.mem_cons_self ..)))
      have hbecomes := hs.becomes_discard c v
      refine hfirst.trans hbecomes.config (ih hbecomes.sound hvs.2 (fun w hw => ?_))
      exact hs.isClusterVertex_discard (fun heq => hvs.1 (heq ▸ hw))
        (hcluster w (List.mem_cons_of_mem _ hw))

section Removals

variable {child : ClusterId} {result : Tree × List Removal}

theorem Sound.pruned_removeCluster (hs : t.Sound) (h : t.removeCluster c child = .ok result) :
    t.Pruned result.1 := by
  obtain ⟨v, hv, h⟩ := of_bind_eq_ok h
  obtain rfl := Except.ok.inj h
  obtain ⟨n, hn, rfl, he⟩ := exists_node_of_children (of_vertexOfChild hs.distinct hv)
  exact hs.pruned_discard ((hs.distinct.mem_vertices hn).mpr ((hs.nodes n hn).held _ he))

theorem Sound.pruned_removeClusterOn (hs : t.Sound) (h : t.removeClusterOn c v = .ok result) :
    t.Pruned result.1 := by
  obtain ⟨child, -, h⟩ := of_bind_eq_ok h
  exact hs.pruned_removeCluster h

theorem Sound.pruned_removeClusters (hs : t.Sound) (h : t.removeClusters c = .ok result) :
    t.Pruned result.1 := by
  obtain ⟨b, hb, h⟩ := of_bind_eq_ok h
  obtain rfl := Except.ok.inj h
  obtain rfl := id_of_find? (of_require hb)
  have hn := node_mem_of_find? (of_require hb)
  exact hs.pruned_discardAll (hs.nodes _ hn).keys
    (fun v hv => (hs.distinct.isClusterVertex_iff hn v).mpr hv)

theorem Sound.pruned_removeVertex (hs : t.Sound) (h : t.removeVertex c v = .ok result) :
    t.Pruned result.1 := by
  obtain ⟨b, hb, h⟩ := of_bind_eq_ok h
  obtain rfl := Except.ok.inj h
  obtain ⟨hfind, hlive⟩ := of_requireVertex hb
  obtain rfl := id_of_find? hfind
  exact hs.pruned_discard ((hs.distinct.mem_vertices (node_mem_of_find? hfind)).mpr hlive)

end Removals

/-! ### One cluster that changes -/

/-- One cluster changed in size, and other clusters came. -/
structure Altered (t t' : Tree) (n m : Node) : Prop where
  sound : t'.Sound
  config : t'.config = t.config
  marked : n.Marked t.config False m
  size : m.storage.size ≠ n.storage.size
  others : ∃ fresh rest, t.nodes = n ::ₘ rest ∧ t'.nodes = m ::ₘ (fresh + rest)
    ∧ ∀ k ∈ fresh, k.id ∉ t.ids

/-- Marks that follow the change of one cluster. -/
theorem Altered.of_mem_foldl_mark {m : Node} (h : t.Altered t' n m) (hd : t.Distinct)
    {cs : List ClusterId} (hn' : n' ∈ (cs.foldl Tree.mark t').nodes) (hlive : n'.id ∈ t.ids) :
    ∃ k ∈ t.nodes, k.Marked t.config (k.id ∈ cs) n' ∧ (k.SameStructure n' ↔ k.id ≠ n.id) := by
  obtain ⟨fresh, rest, hnodes, hnodes', hfresh⟩ := h.others
  obtain ⟨k', hk', hmark, hstorage, hentries⟩ := h.sound.of_mem_foldl_mark hn'
  rw [h.config] at hmark
  rw [hnodes', Multiset.mem_cons, Multiset.mem_add] at hk'
  rcases hk' with rfl | hk' | hk'
  · refine ⟨n, hnodes ▸ Multiset.mem_cons_self .., ?_, fun hsame => ?_, fun hne => absurd rfl hne⟩
    · exact (h.marked.trans hmark).congr (by rw [h.marked.id, false_or])
    · exact absurd (hstorage ▸ hsame.size_eq) h.size
  · rw [hmark.id] at hlive
    exact absurd hlive (hfresh k' hk')
  · have hmem : k' ∈ t.nodes := hnodes ▸ Multiset.mem_cons_of_mem hk'
    refine ⟨k', hmem, hmark, fun _ => hd.id_ne_of_cons hnodes hk', fun _ => ?_⟩
    constructor
    · exact fun _ => by rw [hstorage]
    · exact fun _ => by rw [hstorage]
    · exact fun _ => by rw [hstorage]
    · exact fun _ => by rw [hentries]

theorem Altered.tracked_mark {m : Node} (h : t.Altered t' n m) (hd : t.Distinct) :
    t.Tracked (t'.mark n.id) (fun _ => False) := by
  intro n' hn' hlive
  have hfold : t'.mark n.id = [n.id].foldl Tree.mark t' := rfl
  rw [hfold] at hn'
  obtain ⟨k, hk, hmark, hsame⟩ := h.of_mem_foldl_mark hd hn' hlive
  exact ⟨k, hk, hmark.congr (by rw [hsame, List.mem_singleton, or_false, not_not])⟩

theorem Altered.tracked_foldl_mark {m : Node} (h : t.Altered t' n m) (hd : t.Distinct)
    {cs : List ClusterId} (hcs : n.id ∈ cs) : t.Tracked (cs.foldl Tree.mark t') (fun d => d ∈ cs) := by
  intro n' hn' hlive
  obtain ⟨k, hk, hmark, hsame⟩ := h.of_mem_foldl_mark hd hn' hlive
  refine ⟨k, hk, hmark.congr ?_⟩
  rw [hsame, not_not]
  refine ⟨Or.inr, fun hor => ?_⟩
  rcases hor with hid | hin
  · rw [hid]
    exact hcs
  · exact hin

/-- The storage of one cluster changes. -/
theorem Distinct.altered_mapStorage (hd : t.Distinct) (hn : n ∈ t.nodes) {f : Storage → Storage}
    (hs : (t.mapStorage n.id f).Sound) (hsize : (f n.storage).size ≠ n.storage.size) :
    t.Altered (t.mapStorage n.id f) n (n.mapStorage f) := by
  obtain ⟨rest, hrest⟩ := nodes_cons_of_mem hn
  refine ⟨hs, rfl, Node.marked_of_cluster rfl rfl rfl, hsize, 0, rest, hrest, ?_,
    fun k hk => absurd hk (Multiset.notMem_zero k)⟩
  rw [zero_add]
  exact hd.nodes_mapStorage hrest f

/-- A vertex comes, and what hangs on it was not alive. -/
theorem Sound.altered_receive (hs : t.Sound) (hn : n ∈ t.nodes) {r : VertexRecord}
    {nested : Option Branch} (hs' : (t.receive n.id r nested).Sound)
    (hnested : ∀ k ∈ nestedNodes nested, k.id ∉ t.ids) :
    t.Altered (t.receive n.id r nested) n (n.receive r nested) := by
  obtain ⟨rest, hrest⟩ := nodes_cons_of_mem hn
  have hsize : (n.receive r nested).storage.size = n.storage.size + 1 :=
    Storage.size_addVertex (hs.nodes n hn).storage.vertices r
  exact ⟨hs', rfl, Node.marked_of_cluster rfl rfl rfl, by omega, nestedNodes nested, rest, hrest,
    hs.distinct.nodes_receive hrest r nested, hnested⟩

/-! ### Edges that go -/

theorem Sound.tracked_removeEdge (hs : t.Sound) {e : LocalEdge} {result : Tree × List Removal}
    (h : t.removeEdge c e = .ok result) : t.Tracked result.1 (fun _ => False) := by
  obtain ⟨b, hb, h⟩ := of_bind_eq_ok h
  obtain rfl := Except.ok.inj h
  obtain ⟨hfind, l, hl⟩ := of_requireEdge hb
  obtain rfl := id_of_find? hfind
  have hn := node_mem_of_find? hfind
  have hsound : (t.mapStorage b.node.id (fun s => s.removeEdge e)).Sound :=
    hs.mapStorage b.node.id (fun n hn _ => ⟨(hs.nodes n hn).storage.removeEdge e,
      (hs.nodes n hn).fits.removeEdge e, fun v hv => hv⟩)
  have hlt : (b.node.storage.removeEdge e).size < b.node.storage.size :=
    Storage.size_removeEdge_lt (hs.nodes _ hn).storage (SlotStore.contains_iff.mpr ⟨l, hl⟩)
  exact (hs.distinct.altered_mapStorage hn hsound hlt.ne).tracked_mark hs.distinct

/-! ### Vertices that move -/

/-- The giver of a vertex misses it, and the taker has one more. -/
theorem Handover.tracked {giver taker giver' taker' : Node} {w nw : LocalVertex}
    (h : t.Handover t' giver taker giver' taker' w nw) (hgiver : giver.Marked t.config True giver')
    (htaker : taker.Marked t.config True taker') : t.Tracked t' (fun _ => False) := by
  intro n' hn' _
  obtain ⟨rest, hnodes, hnodes'⟩ := h.others
  rw [hnodes', Multiset.mem_cons, Multiset.mem_cons] at hn'
  rcases hn' with rfl | rfl | hn'
  · refine ⟨giver, h.giver_mem.1, hgiver.tracked (fun hsame => ?_)⟩
    obtain ⟨r, hr⟩ := SlotStore.mem_handles.mp
      ((hsame.vertices w).mpr (SlotStore.mem_handles.mpr h.live))
    have hgone := h.giverVertex w
    rw [if_pos rfl] at hgone
    exact nomatch hgone.symm.trans hr
  · refine ⟨taker, h.taker_mem.1, htaker.tracked (fun hsame => ?_)⟩
    obtain ⟨r, hr⟩ := h.live
    have hcame := h.takerVertex nw
    rw [if_pos rfl] at hcame
    obtain ⟨r', hr'⟩ := SlotStore.mem_handles.mp
      ((hsame.vertices nw).mp (SlotStore.mem_handles.mpr ⟨r, hcame.trans hr⟩))
    exact nomatch h.fresh.symm.trans hr'
  · refine ⟨n', ?_, .refl n'⟩
    rw [hnodes]
    exact Multiset.mem_cons_of_mem (Multiset.mem_cons_of_mem hn')

section Moves

variable {child : ClusterId} {result : Tree × LocalVertex}

/-- A cluster whose storage and children changed, and that is marked then. -/
theorem Sound.marked_of_mem (hs : t.Sound) (hn : n ∈ t.nodes) {m : Node}
    (hid : m.id = n.id) (hmode : m.cluster.copyMode = n.cluster.copyMode)
    (hprops : m.cluster.properties = n.cluster.properties) :
    n.Marked t.config True (m.mark t.config) := by
  have hm : n.Marked t.config False m := Node.marked_of_cluster hid hmode hprops
  have hfits : t.config.cluster.Fits m.cluster.properties := hprops ▸ (hs.nodes n hn).properties
  exact (hm.trans (Node.marked_mark hs.complete hfits)).congr (by simp)

theorem Sound.tracked_moveIn (hs : t.Sound) (h : t.moveIn c v child = .ok result) :
    t.Tracked result.1 (fun _ => False) := by
  obtain ⟨b, inner, cv, record, routes, hin, -, -, -, heq, -⟩ := of_moveIn hs h
  rw [heq]
  exact (hin.handover hs routes).tracked (hs.marked_of_mem (node_mem_of_find? hin.around) rfl rfl rfl)
    (hs.marked_of_mem (node_mem_of_find? hin.within) rfl rfl rfl)

theorem Sound.tracked_moveInOn (hs : t.Sound) {place : LocalVertex}
    (h : t.moveInOn c v place = .ok result) : t.Tracked result.1 (fun _ => False) := by
  obtain ⟨child, -, h⟩ := of_bind_eq_ok h
  exact hs.tracked_moveIn h

theorem Sound.tracked_moveOut (hs : t.Sound) (h : t.moveOut c v = .ok result) :
    t.Tracked result.1 (fun _ => False) := by
  obtain ⟨b, inner, cv, record, hout, -, heq, -⟩ := of_moveOut hs h
  rw [heq]
  exact (hout.handover hs).tracked (hs.marked_of_mem (node_mem_of_find? hout.within) rfl rfl rfl)
    (hs.marked_of_mem (node_mem_of_find? hout.around) rfl rfl rfl)

end Moves

/-! ### What lies on the way -/

/-- The clusters that a command passes on its way up from the cluster where
    it found what it removes, both ends included. -/
def Passes (t : Tree) : Command → ClusterId → Prop
  | .removeGlobalVertex c global, d =>
      ∃ owner v, t.vertexOwner? c global = some (owner, v)
        ∧ t.isAncestor c d = true ∧ t.isAncestor d owner = true
  | .removeGlobalEdge c global, d =>
      ∃ owner e, t.edgeOwner? c global = some (owner, e)
        ∧ t.isAncestor c d = true ∧ t.isAncestor d owner = true
  | _, _ => False

theorem Tracked.congr {on on' : ClusterId → Prop} (h : t.Tracked t' on)
    (heq : ∀ d ∈ t'.ids, on d ↔ on' d) : t.Tracked t' on' := by
  intro n' hn' hlive
  obtain ⟨n, hn, htrack⟩ := h n' hn' hlive
  have hid : n.id ∈ t'.ids := htrack.id ▸ Multiset.mem_map_of_mem Node.id hn'
  exact ⟨n, hn, htrack.congr (or_congr_right (heq _ hid))⟩

/-- Where the clusters that stay keep their way up, those marked on the way
    are those that lay on it before. -/
theorem Sound.mem_wayUp_of_path (hs' : t'.Sound)
    (hpath : ∀ x ∈ t'.ids, t'.path x = t.path x) {owner : ClusterId} (howner : owner ∈ t'.ids)
    (hc : t.isAncestor c owner = true) (hlive : d ∈ ((t'.wayUp owner c).foldl Tree.mark t').ids) :
    d ∈ t'.wayUp owner c ↔ t.isAncestor c d = true ∧ t.isAncestor d owner = true := by
  obtain ⟨n', hn', rfl⟩ := Multiset.mem_map.mp hlive
  obtain ⟨n, hn, hmark, -⟩ := hs'.of_mem_foldl_mark hn'
  have hsame : ∀ {x y : ClusterId}, y ∈ t'.ids → t'.isAncestor x y = t.isAncestor x y := by
    intro x y hy
    rw [isAncestor, isAncestor, hpath y hy]
  have hd : n'.id ∈ t'.ids := hmark.id ▸ Multiset.mem_map_of_mem Node.id hn
  rw [hs'.distinct.mem_wayUp ((hsame howner).trans hc), hsame hd, hsame howner]

theorem Sound.mem_ids_discard (hs : t.Sound) (hc : c ∈ t.ids) (v : LocalVertex) :
    c ∈ (t.discard c v).1.ids := by
  obtain ⟨b, hb⟩ := mem_ids_iff.mp hc
  obtain rfl := id_of_find? hb
  obtain ⟨n, hn, hid, -⟩ := hs.exists_node_discard hb v
  exact Multiset.mem_map.mpr ⟨n, hn, hid⟩

theorem Sound.tracked_removeGlobalVertex (hs : t.Sound) {global : GlobalVertex}
    {result : Tree × List Removal} (h : t.removeGlobalVertex c global = .ok result) :
    t.Tracked result.1 (t.Passes (.removeGlobalVertex c global)) := by
  rw [removeGlobalVertex] at h
  split at h
  · cases h
  rename_i owner v howner
  obtain rfl := Except.ok.inj h
  obtain ⟨b, hb, hfound⟩ := Option.bind_eq_some_iff.mp howner
  obtain ⟨n, hn, rfl, hglobal⟩ := Branch.of_vertexOwner? hfound
  have hmem := Multiset.mem_of_le (nodes_le_of_find? hb) hn
  have hv : v ∈ t.vertices n.id :=
    (hs.distinct.mem_vertices hmem).mpr (Storage.hasVertex_of_global? hglobal)
  have hprune := hs.pruned_discard hv
  have hbecomes := hs.becomes_discard n.id v
  have hroot := hbecomes.sound.root.trans hs.root.symm
  show t.Tracked ((t.discard n.id v).1.markUpTo n.id c) _
  refine (hprune.foldl_mark hbecomes.sound hbecomes.config _).congr (fun d hd => ?_)
  rw [hbecomes.sound.mem_wayUp_of_path
    (fun x hx => hprune.path hs.distinct hbecomes.sound.distinct hroot hx)
    (hs.mem_ids_discard (Multiset.mem_map_of_mem Node.id hmem) v)
    (isAncestor_of_mem_nodes hs.distinct hb hn) hd]
  constructor
  · exact fun hbetween => ⟨n.id, v, howner, hbetween⟩
  · rintro ⟨owner, w, howner', hbetween⟩
    obtain ⟨rfl, -⟩ := Prod.mk.inj (Option.some.inj (howner'.symm.trans howner))
    exact hbetween

theorem Sound.tracked_removeGlobalEdge (hs : t.Sound) {global : GlobalEdge}
    (h : t.removeGlobalEdge c global = .ok t') :
    t.Tracked t' (t.Passes (.removeGlobalEdge c global)) := by
  rw [removeGlobalEdge] at h
  split at h
  · cases h
  rename_i owner e howner
  obtain rfl := Except.ok.inj h
  obtain ⟨b, hb, hfound⟩ := Option.bind_eq_some_iff.mp howner
  obtain ⟨n, hn, rfl, g, hg, hid⟩ := Branch.of_edgeOwner? hfound
  have hmem := Multiset.mem_of_le (nodes_le_of_find? hb) hn
  let p : GlobalEdge → Bool := fun other => other.same global
  have hbecomes : t.Becomes (t.mapStorage n.id (fun s => s.withdraw p e)) := by
    refine hs.becomes_mapStorage n.id (fun m hm _ => ?_)
    refine ⟨(hs.nodes m hm).storage.withdraw p e, (hs.nodes m hm).fits.withdraw p e, fun v hv => ?_⟩
    rwa [Storage.hasVertex, Storage.vertices_withdraw]
  -- A storage that is smaller is another one, so the cluster is altered.
  have hlt : (n.storage.withdraw p e).size < n.storage.size :=
    Storage.size_withdraw_lt (hs.nodes n hmem).storage hg (beq_iff_eq.mpr hid)
  have hids : (t.mapStorage n.id (fun s => s.withdraw p e)).ids = t.ids :=
    hs.distinct.ids_mapCluster n.id (f := fun k => { k with storage := k.storage.withdraw p e })
      (fun _ => rfl)
  have howns : n.id ∈ (t.mapStorage n.id (fun s => s.withdraw p e)).ids :=
    hids ▸ Multiset.mem_map_of_mem Node.id hmem
  have hroot := hbecomes.sound.root.trans hs.root.symm
  refine ((hs.distinct.altered_mapStorage hmem hbecomes.sound hlt.ne).tracked_foldl_mark hs.distinct
    (self_mem_wayUp _ n.id c)).congr (fun d hd => ?_)
  rw [hbecomes.sound.mem_wayUp_of_path
    (fun x hx => (hs.lighter_withdraw p n.id e).path hs.distinct hbecomes.sound.distinct hroot hx)
    howns (isAncestor_of_mem_nodes hs.distinct hb hn) hd]
  constructor
  · exact fun hbetween => ⟨n.id, e, howner, hbetween⟩
  · rintro ⟨owner, e', howner', hbetween⟩
    obtain ⟨rfl, -⟩ := Prod.mk.inj (Option.some.inj (howner'.symm.trans howner))
    exact hbetween

end Tree

/-! ## Commands -/

/-- The command changes the structure of a tree: something comes, goes or
    moves. -/
def Command.isStructural : Command → Bool
  | .addCluster _ => true
  | .removeCluster .. => true
  | .removeClusterOn .. => true
  | .removeClusters _ => true
  | .addVertex _ => true
  | .addVertexNamed .. => true
  | .addEdge .. => true
  | .connect .. => true
  | .removeVertex .. => true
  | .removeGlobalVertex .. => true
  | .removeEdge .. => true
  | .removeGlobalEdge .. => true
  | .moveIn .. => true
  | .moveInOn .. => true
  | .moveOut .. => true
  | _ => false

namespace Graph

variable {g h : Graph} {c : ClusterId} {a b v : LocalVertex}

theorem tracked_putVertex (hs : g.tree.Sound) {branch : Branch} (hb : g.tree.find? c = some branch)
    (global : GlobalVertex) : g.tree.Tracked (g.putVertex c global) (fun _ => False) := by
  obtain rfl := Tree.id_of_find? hb
  have hsound := (hs.becomes_receive branch.cluster.id (g.tree.config.fits_newVertex global)).sound
  exact (hs.altered_receive (Tree.node_mem_of_find? hb) hsound
    (fun k hk => absurd hk (Multiset.notMem_zero k))).tracked_mark hs.distinct

theorem tracked_addVertex (hs : g.tree.Sound) {global : GlobalVertex}
    (hadd : g.addVertex c = .ok (h, v, global)) : g.tree.Tracked h.tree (fun _ => False) := by
  obtain ⟨branch, hb, -, -, rfl⟩ := of_addVertex hadd
  exact tracked_putVertex hs hb global

theorem tracked_addVertexNamed (hs : g.tree.Sound) {global name : GlobalVertex}
    (hadd : g.addVertexNamed c name = .ok (h, v, global)) :
    g.tree.Tracked h.tree (fun _ => False) := by
  obtain ⟨-, -, branch, hb, ⟨-, rfl⟩ | ⟨-, -, rfl⟩⟩ := of_addVertexNamed hadd
  · exact fun n hn _ => ⟨n, hn, .refl n⟩
  · exact tracked_putVertex hs hb name

/-- The cluster that comes has an id that was not given out yet. -/
theorem tracked_addCluster (hs : g.tree.Sound) {child : ClusterId}
    (hadd : g.addCluster c = .ok (h, child, v)) : g.tree.Tracked h.tree (fun _ => False) := by
  obtain ⟨branch, hb, rfl, -, rfl⟩ := of_addCluster hadd
  obtain rfl := Tree.id_of_find? hb
  have hn : branch.node ∈ g.tree.withNext.nodes := Tree.node_mem_of_find? hb
  have halter := hs.withNext.altered_receive hn
    (hs.receive_cluster branch.cluster.id ⟨g.ids.next⟩) (fun k hk hlive => ?_)
  · exact halter.tracked_mark hs.distinct
  · rw [Tree.nestedNodes_newCluster, Multiset.mem_singleton] at hk
    rw [hk] at hlive
    exact Nat.lt_irrefl _ (hs.bound _ hlive)

theorem tracked_putEdge (hs : g.tree.Sound) (hab : g.Between c a b) (hc : c ∈ g.tree.ids)
    (global : GlobalEdge) : g.tree.Tracked (g.putEdge c a b global).tree (fun _ => False) := by
  obtain ⟨n, hn, rfl⟩ := Multiset.mem_map.mp hc
  have hsize := Storage.size_attach (hs.nodes n hn).storage a b g.tree.config.edge.initialValues
    (g.tree.config.newCarried global)
  exact (hs.distinct.altered_mapStorage hn (becomes_attach hs hab global).sound
    (by omega)).tracked_mark hs.distinct

theorem tracked_addEdge (hs : g.tree.Sound) {e : LocalEdge} {global : GlobalEdge}
    (hadd : g.addEdge c a b = .ok (h, e, global)) : g.tree.Tracked h.tree (fun _ => False) := by
  obtain ⟨branch, source, target, -, hfind, hab, -, -, rfl⟩ := of_addEdge hs hadd
  exact tracked_putEdge hs hab (Tree.mem_ids_iff.mpr ⟨branch, hfind⟩) global

theorem tracked_connect (hs : g.tree.Sound) {source target : GlobalVertex} {e : LocalEdge}
    {global : GlobalEdge} {own : Bool} (hadd : g.connect c source target = .ok (h, e, global, own)) :
    g.tree.Tracked h.tree (fun _ => False) := by
  obtain ⟨holder, a, b, -, hfind, hab, -, -, -, rfl⟩ := of_connect hs hadd
  exact tracked_putEdge hs hab (Tree.mem_ids_iff.mpr ⟨holder, hfind⟩) global

/-- A structural command tracks every cluster that stays. -/
theorem tracked_perform (hs : g.tree.Sound) {command : Command} {reply : Reply}
    (hc : command.isStructural = true) (hp : g.perform command = .ok (h, reply)) :
    g.tree.Tracked h.tree (g.tree.Passes command) := by
  cases command with
  | addCluster c =>
      obtain ⟨⟨g', child, v⟩, hadd, heq⟩ := of_map_eq_ok hp
      obtain ⟨rfl, -⟩ := Prod.mk.inj heq
      exact tracked_addCluster hs hadd
  | addVertex c =>
      obtain ⟨⟨g', v, global⟩, hadd, heq⟩ := of_map_eq_ok hp
      obtain ⟨rfl, -⟩ := Prod.mk.inj heq
      exact tracked_addVertex hs hadd
  | addVertexNamed c name =>
      obtain ⟨⟨g', v, global⟩, hadd, heq⟩ := of_map_eq_ok hp
      obtain ⟨rfl, -⟩ := Prod.mk.inj heq
      exact tracked_addVertexNamed hs hadd
  | addEdge c a b =>
      obtain ⟨⟨g', e, global⟩, hadd, heq⟩ := of_map_eq_ok hp
      obtain ⟨rfl, -⟩ := Prod.mk.inj heq
      exact tracked_addEdge hs hadd
  | connect c source target =>
      obtain ⟨⟨g', e, global, own⟩, hadd, heq⟩ := of_map_eq_ok hp
      obtain ⟨rfl, -⟩ := Prod.mk.inj heq
      exact tracked_connect hs hadd
  | removeCluster c child =>
      obtain ⟨r, hr, rfl, -⟩ := of_reporting hp
      exact (hs.pruned_removeCluster hr).tracked
  | removeClusterOn c v =>
      obtain ⟨r, hr, rfl, -⟩ := of_reporting hp
      exact (hs.pruned_removeClusterOn hr).tracked
  | removeClusters c =>
      obtain ⟨r, hr, rfl, -⟩ := of_reporting hp
      exact (hs.pruned_removeClusters hr).tracked
  | removeVertex c v =>
      obtain ⟨r, hr, rfl, -⟩ := of_reporting hp
      exact (hs.pruned_removeVertex hr).tracked
  | removeGlobalVertex c global =>
      obtain ⟨r, hr, rfl, -⟩ := of_reporting hp
      exact hs.tracked_removeGlobalVertex hr
  | removeEdge c e =>
      obtain ⟨r, hr, rfl, -⟩ := of_reporting hp
      exact hs.tracked_removeEdge hr
  | removeGlobalEdge c global =>
      obtain ⟨t, ht, rfl, -⟩ := of_quietly hp
      exact hs.tracked_removeGlobalEdge ht
  | moveIn c v child =>
      obtain ⟨r, hr, rfl, -⟩ := of_moving hp
      exact hs.tracked_moveIn hr
  | moveInOn c v place =>
      obtain ⟨r, hr, rfl, -⟩ := of_moving hp
      exact hs.tracked_moveInOn hr
  | moveOut c v =>
      obtain ⟨r, hr, rfl, -⟩ := of_moving hp
      exact hs.tracked_moveOut hr
  | _ => exact absurd hc Bool.false_ne_true

end Graph

namespace Tree

variable {t t' : Tree} {n n' : Node} {c : ClusterId}

/-! ## What is seen of a cluster -/

/-- A cluster has the same vertices, the same edges with the same global edges
    on each of them, and the same children. -/
structure SameStructure (t t' : Tree) (c : ClusterId) : Prop where
  vertices : ∀ v, v ∈ t'.vertices c ↔ v ∈ t.vertices c
  edges : ∀ e, e ∈ t'.edges c ↔ e ∈ t.edges c
  carried : ∀ e, t'.carried c e = t.carried c e
  children : ∀ entry, entry ∈ t'.children c ↔ entry ∈ t.children c

/-- What a change of the first tree into the second does to the change flag of
    a cluster, given whether the change passed the cluster on a way up. -/
structure Tracks (t t' : Tree) (passed : Prop) (c : ClusterId) : Prop where
  mode : t'.isCopyMode c = t.isCopyMode c
  /-- A change of the structure is not missed. -/
  changed : ¬ t.SameStructure t' c → t.isCopyMode c = false → t'.isChanged c = true
  copying : t.isCopyMode c = true → t'.isChanged c = t.isChanged c
  kept : t.isChanged c = true → t'.isChanged c = true
  /-- Nothing else sets the flag, but for the way up. -/
  steady : t.SameStructure t' c → ¬ (passed ∧ t.isCopyMode c = false) →
    t'.isChanged c = t.isChanged c
  passed : passed → t.isCopyMode c = false → t'.isChanged c = true

theorem Distinct.isChanged_of_mem (hd : t.Distinct) (hn : n ∈ t.nodes) :
    t.isChanged n.id = n.cluster.changed t.config := by
  obtain ⟨b, hb, rfl⟩ := hd.find?_of_mem hn
  rw [isChanged, hb]
  rfl

theorem Distinct.isCopyMode_of_mem (hd : t.Distinct) (hn : n ∈ t.nodes) :
    t.isCopyMode n.id = n.cluster.copyMode := by
  obtain ⟨b, hb, rfl⟩ := hd.find?_of_mem hn
  rw [isCopyMode, hb]
  rfl

theorem Distinct.sameStructure_iff (hd : t.Distinct) (hd' : t'.Distinct) (hn : n ∈ t.nodes)
    (hn' : n' ∈ t'.nodes) (hid : n'.id = n.id) :
    t.SameStructure t' n.id ↔ n.SameStructure n' := by
  have hvertices := hd.vertices_of_mem hn
  have hedges := hd.edges_of_mem hn
  have hcarried := hd.carried_of_mem hn
  have hchildren := hd.children_of_mem hn
  have hvertices' := hd'.vertices_of_mem hn'
  have hedges' := hd'.edges_of_mem hn'
  have hcarried' := hd'.carried_of_mem hn'
  have hchildren' := hd'.children_of_mem hn'
  rw [hid] at hvertices' hedges' hcarried' hchildren'
  constructor
  · rintro ⟨h1, h2, h3, h4⟩
    simp only [hvertices, hvertices'] at h1
    simp only [hedges, hedges'] at h2
    simp only [hcarried, hcarried'] at h3
    simp only [hchildren, hchildren'] at h4
    exact ⟨h1, h2, h3, h4⟩
  · rintro ⟨h1, h2, h3, h4⟩
    simp only [← hvertices, ← hvertices'] at h1
    simp only [← hedges, ← hedges'] at h2
    simp only [← hcarried, ← hcarried'] at h3
    simp only [← hchildren, ← hchildren'] at h4
    exact ⟨h1, h2, h3, h4⟩

/-- A cluster that is tracked has the right flag. -/
theorem Tracked.tracks {on : ClusterId → Prop} (h : t.Tracked t' on) (hd : t.Distinct)
    (hd' : t'.Distinct) (hconfig : t'.config = t.config) (hc : c ∈ t.ids) (hc' : c ∈ t'.ids) :
    t.Tracks t' (on c) c := by
  obtain ⟨n', hn', rfl⟩ := Multiset.mem_map.mp hc'
  obtain ⟨n, hn, htrack⟩ := h n' hn' hc
  have hid : n'.id = n.id := htrack.id
  have hsame := hd.sameStructure_iff hd' hn hn' hid
  have hchanged := hd.isChanged_of_mem hn
  have hcopying := hd.isCopyMode_of_mem hn
  have hchanged' := hd'.isChanged_of_mem hn'
  have hcopying' := hd'.isCopyMode_of_mem hn'
  rw [hconfig, hid] at hchanged'
  rw [hid] at hcopying' ⊢
  have hflag : t'.isChanged n.id = true ↔ t.isChanged n.id = true
      ∨ t.isCopyMode n.id = false ∧ (¬ t.SameStructure t' n.id ∨ on n.id) := by
    rw [hchanged', hchanged, hcopying, hsame]
    exact htrack.flag
  refine ⟨?_, fun hne hmode => ?_, fun hmode => ?_, fun hset => ?_, fun heq hnot => ?_,
    fun hon hmode => ?_⟩
  · rw [hcopying', hcopying, htrack.mode]
  · exact hflag.mpr (Or.inr ⟨hmode, Or.inl hne⟩)
  · rw [Bool.eq_iff_iff, hflag, hmode]
    simp
  · exact hflag.mpr (Or.inl hset)
  · rw [Bool.eq_iff_iff, hflag]
    tauto
  · exact hflag.mpr (Or.inr ⟨hmode, Or.inr hon⟩)

end Tree

namespace Workspace

/-! ## Along runs -/

/-- **CHANGE TRACKING**: whatever was done before, a structural command that
    succeeds sets the change flag of every cluster whose structure is another
    one afterwards, and of those that it passes on its way up to the cluster
    it was given, except in copy mode.  All other flags stay. -/
theorem tracks_run (operations : List Operation) (number : Nat) {command : Command} {reply : Reply}
    {w' : Workspace} {m m' : Member} (hc : command.isStructural = true)
    (hstep : (empty.run operations).step (.change number command) = (w', .ok reply))
    (hm : (empty.run operations).members[number]? = some m)
    (hm' : w'.members[number]? = some m') (c : ClusterId) (hlive : m.tree.isLive c = true)
    (hlive' : m'.tree.isLive c = true) :
    m.tree.Tracks m'.tree (m.tree.Passes command c) c := by
  have hw := sound_run operations
  obtain ⟨k, ids, g', hk, -, hp, rfl⟩ := exists_perform hw hstep hm'
  obtain rfl := Option.some.inj (hm.symm.trans hk)
  have hs := hw.trees m (List.mem_of_getElem? hm)
  have hbecomes := Graph.becomes_perform (g := ⟨m.tree, ids⟩) hs hp
  exact (Graph.tracked_perform (g := ⟨m.tree, ids⟩) hs hc hp).tracks hs.distinct
    hbecomes.sound.distinct hbecomes.config (Tree.isLive_iff.mp hlive) (Tree.isLive_iff.mp hlive')

/-- A vertex that is removed three clusters further in: its own cluster is
    marked, the one in copy mode around it is not, and the one that was
    addressed is, though it is as it was. -/
theorem tracks_removeGlobalVertex :
    let operations := [Operation.newGraph (.declared []) (.startingAt 100),
      .change 0 (.addCluster Tree.rootId), .change 0 (.addCluster ⟨1⟩), .change 0 (.addCluster ⟨2⟩),
      .change 0 (.addVertex ⟨3⟩), .change 0 (.clearChanged Tree.rootId),
      .change 0 (.clearChanged ⟨1⟩), .change 0 (.clearChanged ⟨2⟩), .change 0 (.clearChanged ⟨3⟩),
      .change 0 (.setCopyMode ⟨2⟩ true)]
    let w := empty.run operations
    let command := Command.removeGlobalVertex ⟨1⟩ ⟨104⟩
    ∃ m m', w.members[0]? = some m ∧ (w.step (.change 0 command)).1.members[0]? = some m'
      ∧ (∀ c ∈ [Tree.rootId, ⟨1⟩, ⟨2⟩, ⟨3⟩], m.tree.Tracks m'.tree (m.tree.Passes command c) c)
      ∧ [Tree.rootId, ⟨1⟩, ⟨2⟩, ⟨3⟩].map m'.tree.isChanged = [false, true, false, true] := by
  intro operations w command
  have hreply : (w.step (.change 0 command)).2 = .ok (.removed []) := by decide +kernel
  have hstep : w.step (.change 0 command) = ((w.step (.change 0 command)).1, .ok (.removed [])) := by
    rw [← hreply]
  have hlive : ∃ m ∈ w.members[0]?, ∀ c ∈ [Tree.rootId, ⟨1⟩, ⟨2⟩, ⟨3⟩], m.tree.isLive c = true := by
    decide +kernel
  have hlive' : ∃ m' ∈ (w.step (.change 0 command)).1.members[0]?,
      (∀ c ∈ [Tree.rootId, ⟨1⟩, ⟨2⟩, ⟨3⟩], m'.tree.isLive c = true)
        ∧ [Tree.rootId, ⟨1⟩, ⟨2⟩, ⟨3⟩].map m'.tree.isChanged = [false, true, false, true] := by
    decide +kernel
  obtain ⟨m, hm, hlive⟩ := hlive
  obtain ⟨m', hm', hlive', hflags⟩ := hlive'
  exact ⟨m, m', hm, hm', fun c hc =>
    tracks_run operations 0 rfl hstep hm hm' c (hlive c hc) (hlive' c hc), hflags⟩

end Workspace

end NestedGraph
