import NestedGraph.Proofs.Change
import NestedGraph.Proofs.Layout

/-! # Soundness — trees that agree with themselves

    A cluster is SOUND when its storage is, its slots fit, and what hangs
    in it hangs on different live vertices.  A tree is sound when its
    clusters are, and their ids are distinct and already given out.  The
    primitive changes keep trees sound; a change that moves nodes about
    keeps soundness when it makes no id twice. -/

namespace NestedGraph

/-- A cluster whose storage and children map agree. -/
structure Node.Sound (config : Config) (n : Node) : Prop where
  storage : n.storage.Sound
  fits : n.storage.Fits config
  properties : config.cluster.Fits n.cluster.properties
  keys : (n.entries.map Prod.fst).Nodup
  held : ∀ e ∈ n.entries, n.storage.hasVertex e.1 = true

namespace Node.Sound

variable {config : Config} {n : Node}

/-- A cluster whose storage changes stays sound when the vertices stay. -/
theorem mapStorage (hn : n.Sound config) {f : Storage → Storage} (hs : (f n.storage).Sound)
    (hf : (f n.storage).Fits config)
    (hkeep : ∀ v, n.storage.hasVertex v = true → (f n.storage).hasVertex v = true) :
    (n.mapStorage f).Sound config :=
  ⟨hs, hf, hn.properties, hn.keys, fun e he => hkeep e.1 (hn.held e he)⟩

/-- The next handle is no key yet. -/
theorem nextHandle_notMem (hn : n.Sound config) :
    n.storage.vertices.nextHandle ∉ n.entries.map Prod.fst := by
  intro hmem
  obtain ⟨e, he, heq⟩ := List.mem_map.mp hmem
  obtain ⟨r, hr⟩ := Storage.hasVertex_iff.mp (hn.held e he)
  rw [heq, show n.storage.vertex? _ = none from SlotStore.get?_nextHandle hn.storage.vertices] at hr
  exact nomatch hr

theorem receive (hn : n.Sound config) {record : VertexRecord} (hr : record.Fits config)
    (nested : Option Branch) : (n.receive record nested).Sound config := by
  have hhas := fun v => Storage.hasVertex_addVertex hn.storage.vertices record v
  refine ⟨hn.storage.addVertex record, hn.fits.addVertex hn.storage.vertices hr, hn.properties,
    ?_, ?_⟩
  · cases nested with
    | none => simpa [Node.receive] using hn.keys
    | some b =>
        have hnot := hn.nextHandle_notMem
        simp only [Node.receive, Option.map_some, Option.toList_some, List.map_append,
          List.map_cons, List.map_nil]
        refine List.nodup_append.mpr ⟨hn.keys, List.nodup_singleton _, fun v hv w hw => ?_⟩
        rw [List.mem_singleton.mp hw]
        rintro rfl
        exact hnot hv
  · rintro ⟨w, d⟩ he
    rcases Node.mem_entries_receive.mp he with he | ⟨b, -, rfl, -⟩
    · exact (hhas w).mpr (Or.inr (hn.held _ he))
    · exact (hhas _).mpr (Or.inl rfl)

theorem cut (hn : n.Sound config) (v : LocalVertex) : (n.cut v).Sound config := by
  refine ⟨hn.storage.removeVertex v, hn.fits.removeVertex v, hn.properties,
    hn.keys.sublist (List.filter_sublist.map _), ?_⟩
  rintro ⟨w, d⟩ he
  obtain ⟨he, hw⟩ := Node.mem_entries_cut.mp he
  obtain ⟨r, hr⟩ := Storage.hasVertex_iff.mp (hn.held _ he)
  refine Storage.hasVertex_iff.mpr ⟨r, ?_⟩
  show (n.storage.removeVertex v).vertex? w = some r
  rw [Storage.vertex?_removeVertex, if_neg hw]
  exact hr

/-- A cluster that changes apart from storage and slots stays sound. -/
theorem of_cluster (hn : n.Sound config) {k : Cluster} (hs : k.storage = n.storage)
    (hp : config.cluster.Fits k.properties) : Node.Sound config ⟨k, n.entries⟩ := by
  have heq : (⟨k, n.entries⟩ : Node).storage = n.storage := hs
  exact ⟨heq ▸ hn.storage, heq ▸ hn.fits, hp, hn.keys, fun e he => heq ▸ hn.held e he⟩

end Node.Sound

/-- A cluster fresh from the configuration is sound. -/
theorem Config.sound_newCluster (config : Config) (id : ClusterId) :
    (Branch.node ⟨config.newCluster id, .nil⟩).Sound config :=
  ⟨Storage.sound_empty, Storage.fits_empty, config.cluster.fits_initialValues, List.nodup_nil,
    fun _ he => nomatch he⟩

/-- The node with its cluster marked. -/
def Node.mark (config : Config) (n : Node) : Node := ⟨n.cluster.mark config, n.entries⟩

@[simp] theorem Node.id_mark (config : Config) (n : Node) : (n.mark config).id = n.id :=
  Cluster.id_mark config n.cluster

@[simp] theorem Node.storage_mark (config : Config) (n : Node) :
    (n.mark config).storage = n.storage := Cluster.storage_mark config n.cluster

@[simp] theorem Node.entries_mark (config : Config) (n : Node) :
    (n.mark config).entries = n.entries := rfl

theorem Cluster.fits_mark {config : Config} {k : Cluster} (h : config.cluster.Fits k.properties) :
    config.cluster.Fits (k.mark config).properties := by
  unfold Cluster.mark
  split
  · exact h
  · exact h.put ..

theorem Node.Sound.mark {config : Config} {n : Node} (hn : n.Sound config) :
    (n.mark config).Sound config :=
  hn.of_cluster (Cluster.storage_mark ..) (Cluster.fits_mark hn.properties)

namespace Tree

/-- A tree whose clusters are sound, under distinct ids that are given
    out. -/
structure Sound (t : Tree) : Prop where
  root : t.root = rootId
  distinct : t.Distinct
  bound : ∀ c ∈ t.ids, c.id < t.nextClusterId
  complete : t.config.Complete
  nodes : ∀ n ∈ t.nodes, n.Sound t.config

/-- A new tree is sound. -/
theorem sound_new {config : Config} (hc : config.Complete) : (Tree.new config).Sound := by
  have hnodes : (Tree.new config).nodes = {Branch.node ⟨config.newCluster rootId, .nil⟩} := rfl
  have hids : (Tree.new config).ids = {rootId} := rfl
  refine ⟨rfl, ?_, ?_, hc, ?_⟩
  · rw [Distinct, hids]
    exact Multiset.nodup_singleton _
  · intro c hmem
    rw [hids, Multiset.mem_singleton] at hmem
    rw [hmem]
    exact Nat.zero_lt_one
  · intro n hn
    rw [hnodes, Multiset.mem_singleton] at hn
    rw [hn]
    exact config.sound_newCluster rootId

/-- Nodes may be replaced by sound ones whose ids were among the replaced,
    or are new. -/
theorem Sound.replace {t t' : Tree} (hs : t.Sound) (old new : Multiset Node)
    (fresh : Multiset ClusterId) {rest : Multiset Node} (ht : t.nodes = old + rest)
    (ht' : t'.nodes = new + rest)
    (hroot : t'.root = t.root) (hconfig : t'.config = t.config)
    (hnext : t.nextClusterId ≤ t'.nextClusterId)
    (hids : new.map Node.id ≤ old.map Node.id + fresh) (hfresh : fresh.Nodup)
    (hbound : ∀ c ∈ fresh, t.nextClusterId ≤ c.id ∧ c.id < t'.nextClusterId)
    (hnew : ∀ n ∈ new, n.Sound t.config) : t'.Sound := by
  have hle : t'.ids ≤ t.ids + fresh := by
    rw [ids, ids, ht, ht', Multiset.map_add, Multiset.map_add, add_right_comm]
    exact add_le_add hids (le_refl _)
  have hall : (t.ids + fresh).Nodup := by
    refine Multiset.nodup_add.mpr ⟨hs.distinct, hfresh, Multiset.disjoint_left.mpr ?_⟩
    intro c hc hf
    exact absurd (hs.bound c hc) (Nat.not_lt.mpr (hbound c hf).1)
  refine ⟨hroot.trans hs.root, Multiset.nodup_of_le hle hall, ?_, hconfig ▸ hs.complete, ?_⟩
  · intro c hc
    rcases Multiset.mem_add.mp (Multiset.mem_of_le hle hc) with hc | hc
    · exact Nat.lt_of_lt_of_le (hs.bound c hc) hnext
    · exact (hbound c hc).2
  · intro n hn
    rw [hconfig]
    rw [ht', Multiset.mem_add] at hn
    rcases hn with hn | hn
    · exact hnew n hn
    · exact hs.nodes n (ht ▸ Multiset.mem_add.mpr (Or.inr hn))

/-! ## Changes in place -/

/-- The nodes after a cluster was marked. -/
theorem Distinct.nodes_mark {t : Tree} (hd : t.Distinct) {n : Node} {rest : Multiset Node}
    (hn : t.nodes = n ::ₘ rest) : (t.mark n.id).nodes = n.mark t.config ::ₘ rest :=
  hd.nodes_mapCluster_cons hn (Cluster.id_mark t.config n.cluster)

theorem Distinct.ids_mapCluster {t : Tree} (hd : t.Distinct) (c : ClusterId)
    {f : Cluster → Cluster} (hf : ∀ k : Cluster, (f k).id = k.id) : (t.mapCluster c f).ids = t.ids := by
  rw [ids, hd.nodes_mapCluster c hf, Multiset.map_map]
  exact Multiset.map_congr rfl (fun n _ => Node.id_changeAt c hf n)

theorem Distinct.mapCluster {t : Tree} (hd : t.Distinct) (c : ClusterId) {f : Cluster → Cluster}
    (hf : ∀ k : Cluster, (f k).id = k.id) : (t.mapCluster c f).Distinct := by
  rw [Distinct, hd.ids_mapCluster c hf]
  exact hd

/-- A change of one cluster does not change the storage of another. -/
theorem Distinct.storage?_mapCluster {t : Tree} (hd : t.Distinct) {c d : ClusterId}
    {f : Cluster → Cluster} (hf : ∀ k : Cluster, (f k).id = k.id) (hne : d ≠ c) :
    (t.mapCluster c f).storage? d = t.storage? d := by
  by_cases hlive : d ∈ t.ids
  · obtain ⟨n, hn, rfl⟩ := Multiset.mem_map.mp hlive
    have hn' : n ∈ (t.mapCluster c f).nodes := by
      rw [hd.nodes_mapCluster c hf, ← Node.changeAt_of_ne f hne]
      exact Multiset.mem_map_of_mem _ hn
    rw [hd.storage?_of_mem hn, (hd.mapCluster c hf).storage?_of_mem hn']
  · rw [storage?_of_dead hlive, storage?_of_dead]
    rwa [hd.ids_mapCluster c hf]

theorem Distinct.mapStorage {t : Tree} (hd : t.Distinct) (c : ClusterId) (f : Storage → Storage) :
    (t.mapStorage c f).Distinct :=
  hd.mapCluster c (f := fun k => { k with storage := f k.storage }) (fun _ => rfl)

theorem Distinct.mark {t : Tree} (hd : t.Distinct) (c : ClusterId) : (t.mark c).Distinct :=
  hd.mapCluster c (Cluster.id_mark t.config)

theorem root_mapCluster (t : Tree) (c : ClusterId) {f : Cluster → Cluster}
    (hf : ∀ k : Cluster, (f k).id = k.id) : (t.mapCluster c f).root = t.root :=
  root_update (fun b hb => (hf b.cluster).trans hb)

/-- A change of one cluster keeps the tree sound if it keeps the cluster
    sound. -/
theorem Sound.mapCluster {t : Tree} (hs : t.Sound) (c : ClusterId) {f : Cluster → Cluster}
    (hf : ∀ k : Cluster, (f k).id = k.id)
    (h : ∀ n ∈ t.nodes, n.id = c → Node.Sound t.config ⟨f n.cluster, n.entries⟩) :
    (t.mapCluster c f).Sound := by
  have hids := hs.distinct.ids_mapCluster c hf
  refine ⟨(root_mapCluster t c hf).trans hs.root, ?_, ?_, hs.complete, ?_⟩
  · rw [Distinct, hids]
    exact hs.distinct
  · rw [hids]
    exact hs.bound
  · intro m hm
    rw [hs.distinct.nodes_mapCluster c hf] at hm
    obtain ⟨n, hn, rfl⟩ := Multiset.mem_map.mp hm
    show (n.changeAt c f).Sound t.config
    unfold Node.changeAt
    split
    · rename_i hc
      exact h n hn hc
    · exact hs.nodes n hn

/-- A change of one storage keeps the tree sound if it keeps the storage
    sound and its vertices alive. -/
theorem Sound.mapStorage {t : Tree} (hs : t.Sound) (c : ClusterId) {f : Storage → Storage}
    (h : ∀ n ∈ t.nodes, n.id = c → (f n.storage).Sound ∧ (f n.storage).Fits t.config
      ∧ ∀ v, n.storage.hasVertex v = true → (f n.storage).hasVertex v = true) :
    (t.mapStorage c f).Sound := by
  refine hs.mapCluster c (f := fun k => { k with storage := f k.storage }) (fun _ => rfl) ?_
  intro n hn hc
  obtain ⟨h1, h2, h3⟩ := h n hn hc
  exact (hs.nodes n hn).mapStorage h1 h2 h3

theorem Sound.mark {t : Tree} (hs : t.Sound) (c : ClusterId) : (t.mark c).Sound := by
  exact hs.mapCluster c (Cluster.id_mark t.config) (fun n hn _ => (hs.nodes n hn).mark)

theorem Sound.foldl_mark {t : Tree} (hs : t.Sound) (cs : List ClusterId) :
    (cs.foldl Tree.mark t).Sound := by
  induction cs generalizing t with
  | nil => exact hs
  | cons c rest ih => exact ih (hs.mark c)

theorem Sound.markUpTo {t : Tree} (hs : t.Sound) (c last : ClusterId) : (t.markUpTo c last).Sound :=
  hs.foldl_mark _

/-! ## Vertices that come and go -/

theorem root_receive (t : Tree) (c : ClusterId) (r : VertexRecord) (nested : Option Branch) :
    (t.receive c r nested).root = t.root := root_update (fun _ hb => hb)

theorem root_cutAt (t : Tree) (c : ClusterId) (v : LocalVertex) : (t.cutAt c v).root = t.root :=
  root_update (fun _ hb => hb)

/-- A vertex may arrive with a branch whose clusters are sound and not in
    the tree. -/
theorem Sound.receive {t : Tree} (hs : t.Sound) (c : ClusterId) {r : VertexRecord}
    (hr : r.Fits t.config) {nested : Option Branch}
    (hnested : ∀ m ∈ nestedNodes nested, m.Sound t.config)
    (hids : ((nestedNodes nested).map Node.id + t.ids).Nodup)
    (hbound : ∀ d ∈ (nestedNodes nested).map Node.id, d.id < t.nextClusterId) :
    (t.receive c r nested).Sound := by
  by_cases hc : c ∈ t.ids
  · obtain ⟨n, hn, rfl⟩ := Multiset.mem_map.mp hc
    obtain ⟨rest, hrest⟩ := nodes_cons_of_mem hn
    have hnodes := hs.distinct.nodes_receive hrest r nested
    have hids' : (t.receive n.id r nested).ids = (nestedNodes nested).map Node.id + t.ids := by
      rw [ids, ids, hnodes, hrest]
      simp [Multiset.map_add]
    refine ⟨(root_receive ..).trans hs.root, ?_, ?_, hs.complete, ?_⟩
    · rw [Distinct, hids']
      exact hids
    · intro d hd
      rw [hids'] at hd
      rcases Multiset.mem_add.mp hd with hd | hd
      · exact hbound d hd
      · exact hs.bound d hd
    · intro m hm
      rw [hnodes, Multiset.mem_cons, Multiset.mem_add] at hm
      rcases hm with rfl | hm | hm
      · exact (hs.nodes n hn).receive hr nested
      · exact hnested m hm
      · exact hs.nodes m (hrest ▸ Multiset.mem_cons_of_mem hm)
  · rw [Tree.receive, update_of_dead _ hc]
    exact hs

theorem Sound.receive_ordinary {t : Tree} (hs : t.Sound) (c : ClusterId) {r : VertexRecord}
    (hr : r.Fits t.config) : (t.receive c r none).Sound := by
  refine hs.receive c hr (fun m hm => absurd hm (Multiset.notMem_zero m)) ?_
    (fun d hd => absurd hd (Multiset.notMem_zero d))
  rw [nestedNodes, Multiset.map_zero, zero_add]
  exact hs.distinct

theorem Sound.cutAt {t : Tree} (hs : t.Sound) (c : ClusterId) (v : LocalVertex) :
    (t.cutAt c v).Sound := by
  by_cases hc : c ∈ t.ids
  · obtain ⟨b, hb⟩ := mem_ids_iff.mp hc
    have hn := node_mem_of_find? hb
    obtain rfl := id_of_find? hb
    obtain ⟨rest, hrest⟩ := nodes_cons_of_mem hn
    obtain ⟨rest', rfl, hnodes⟩ := hs.distinct.nodes_cutAt hrest (hs.nodes _ hn).keys v hb
    refine hs.replace (b.node ::ₘ nestedNodes (b.inside.branchAt? v)) {b.node.cut v} 0
      (hrest.trans (Multiset.cons_add ..).symm) (hnodes.trans (Multiset.singleton_add ..).symm)
      (root_cutAt ..) rfl (le_refl _) ?_ Multiset.nodup_zero
      (fun c hc => absurd hc (Multiset.notMem_zero c)) ?_
    · rw [Multiset.map_singleton, Multiset.map_cons, Node.id_cut, add_zero]
      exact Multiset.singleton_le.mpr (Multiset.mem_cons_self ..)
    · intro m hm
      rw [Multiset.mem_singleton.mp hm]
      exact (hs.nodes _ hn).cut v
  · rw [Tree.cutAt, update_of_dead _ hc]
    exact hs

/-- What hangs in a sound tree is sound, and its ids are distinct. -/
theorem Sound.of_find? {t : Tree} (hs : t.Sound) {c : ClusterId} {b : Branch}
    (hb : t.find? c = some b) : ∀ m ∈ b.nodes, m.Sound t.config :=
  fun m hm => hs.nodes m (Multiset.mem_of_le (nodes_le_of_find? hb) hm)

end Tree

/-! ## Withdrawals further up -/

namespace Storage

/-- Where nothing matches nothing is withdrawn. -/
theorem withdrawAt_of_matchingAt_eq_nil {p : GlobalEdge → Bool} {s : Storage} {v : LocalVertex}
    (h : s.matchingAt p v = []) : s.withdrawAt p v = s := by
  unfold withdrawAt
  unfold matchingAt at h
  generalize s.incident v = es at h
  induction es with
  | nil => rfl
  | cons e rest ih =>
      rw [List.flatMap_cons, List.append_eq_nil_iff, List.map_eq_nil_iff] at h
      rw [List.foldl_cons, withdraw, if_pos (List.isEmpty_iff.mpr h.1)]
      exact ih h.2

end Storage

namespace Cluster

theorem id_withdrawAt (config : Config) (p : GlobalEdge → Bool) (v : LocalVertex) (k : Cluster) :
    (k.withdrawAt config p v).id = k.id := by
  unfold withdrawAt
  split
  · rfl
  · exact id_mark ..

theorem storage_withdrawAt (config : Config) (p : GlobalEdge → Bool) (v : LocalVertex)
    (k : Cluster) : (k.withdrawAt config p v).storage = k.storage.withdrawAt p v := by
  unfold withdrawAt
  split
  · rename_i h
    exact (Storage.withdrawAt_of_matchingAt_eq_nil (List.isEmpty_iff.mp h)).symm
  · exact storage_mark ..

theorem fits_withdrawAt {config : Config} (p : GlobalEdge → Bool) (v : LocalVertex) {k : Cluster}
    (h : config.cluster.Fits k.properties) :
    config.cluster.Fits (k.withdrawAt config p v).properties := by
  unfold withdrawAt
  split
  · exact h
  · exact fits_mark h

end Cluster

namespace Node

/-- The node with matching edges taken off the vertices that some steps of a
    way up name in it. -/
def withdrawSteps (config : Config) (p : GlobalEdge → Bool)
    (steps : List (ClusterId × LocalVertex)) (n : Node) : Node :=
  steps.foldl (fun n step => n.changeAt step.1 (Cluster.withdrawAt config p step.2)) n

variable {config : Config} {p : GlobalEdge → Bool}

/-- A withdrawal takes edges and no vertices. -/
theorem Sound.withdrawAt {n : Node} (hn : n.Sound config) (p : GlobalEdge → Bool) (v : LocalVertex) :
    Node.Sound config ⟨n.cluster.withdrawAt config p v, n.entries⟩ := by
  have hst : (n.cluster.withdrawAt config p v).storage = n.storage.withdrawAt p v :=
    Cluster.storage_withdrawAt ..
  refine ⟨?_, ?_, Cluster.fits_withdrawAt p v hn.properties, hn.keys, fun e he => ?_⟩
  · show Storage.Sound (n.cluster.withdrawAt config p v).storage
    rw [hst]
    exact hn.storage.withdrawAt p v
  · show Storage.Fits config (n.cluster.withdrawAt config p v).storage
    rw [hst]
    exact hn.fits.withdrawAt p v
  · show (n.cluster.withdrawAt config p v).storage.hasVertex e.1 = true
    rw [hst, Storage.hasVertex, Storage.vertices_withdrawAt]
    exact hn.held e he

/-- What steps of withdrawal leave of a node: all of its vertices, and the
    edges that match at none of those which the steps name. -/
structure Withdrawn (config : Config) (p : GlobalEdge → Bool)
    (steps : List (ClusterId × LocalVertex)) (n n' : Node) : Prop where
  id : n'.id = n.id
  entries : n'.entries = n.entries
  vertices : n'.storage.vertices = n.storage.vertices
  sound : n'.Sound config
  load : n'.storage.load = n.storage.load.filter (fun entry =>
    ∀ step ∈ steps, step.1 = n.id → ¬ (step.2 ∈ entry.1 ∧ p entry.2.global = true))

theorem Sound.withdrawSteps {n : Node} (hn : n.Sound config) (p : GlobalEdge → Bool)
    (steps : List (ClusterId × LocalVertex)) :
    n.Withdrawn config p steps (n.withdrawSteps config p steps) := by
  induction steps generalizing n with
  | nil => exact ⟨rfl, rfl, rfl, hn, by simp [Node.withdrawSteps]⟩
  | cons step rest ih =>
      rw [Node.withdrawSteps, List.foldl_cons]
      by_cases hc : n.id = step.1
      · have hfirst : n.changeAt step.1 (Cluster.withdrawAt config p step.2)
            = ⟨n.cluster.withdrawAt config p step.2, n.entries⟩ := if_pos hc
        have hid : (n.cluster.withdrawAt config p step.2).id = n.id := Cluster.id_withdrawAt ..
        have hst : (n.cluster.withdrawAt config p step.2).storage = n.storage.withdrawAt p step.2 :=
          Cluster.storage_withdrawAt ..
        rw [hfirst]
        have hrest := ih (hn.withdrawAt p step.2)
        refine ⟨hrest.id.trans hid, hrest.entries, hrest.vertices.trans ?_, hrest.sound,
          hrest.load.trans ?_⟩
        · show (n.cluster.withdrawAt config p step.2).storage.vertices = _
          rw [hst, Storage.vertices_withdrawAt]
        · show Multiset.filter _ (n.cluster.withdrawAt config p step.2).storage.load = _
          rw [hst, Storage.load_withdrawAt hn.storage, Multiset.filter_filter]
          refine Multiset.filter_congr (fun entry _ => ?_)
          rw [List.forall_mem_cons, show Node.id ⟨n.cluster.withdrawAt config p step.2, n.entries⟩
            = n.id from hid]
          exact ⟨fun h => ⟨fun _ => h.2, h.1⟩, fun h => ⟨h.2, h.1 hc.symm⟩⟩
      · rw [show n.changeAt step.1 (Cluster.withdrawAt config p step.2) = n from if_neg hc]
        have hrest := ih hn
        refine ⟨hrest.id, hrest.entries, hrest.vertices, hrest.sound, hrest.load.trans ?_⟩
        refine Multiset.filter_congr (fun entry _ => ?_)
        rw [List.forall_mem_cons]
        exact ⟨fun h => ⟨fun he => absurd he.symm hc, h⟩, fun h => h.2⟩

end Node

namespace Tree

/-- Withdrawing along a way up changes each cluster for itself. -/
theorem nodes_foldl_withdrawAt {t : Tree} (hd : t.Distinct) (p : GlobalEdge → Bool)
    (steps : List (ClusterId × LocalVertex)) :
    (steps.foldl (fun t step => t.mapCluster step.1 (Cluster.withdrawAt t.config p step.2)) t).nodes
      = t.nodes.map (Node.withdrawSteps t.config p steps) := by
  induction steps generalizing t with
  | nil => exact (Multiset.map_id t.nodes).symm
  | cons step rest ih =>
      have hf := Cluster.id_withdrawAt t.config p step.2
      have hd' : (t.mapCluster step.1 (Cluster.withdrawAt t.config p step.2)).Distinct := by
        rw [Distinct, hd.ids_mapCluster step.1 hf]
        exact hd
      rw [List.foldl_cons, ih hd', hd.nodes_mapCluster step.1 hf, Multiset.map_map]
      rfl

theorem nodes_withdrawAbove {t : Tree} (hd : t.Distinct) (p : GlobalEdge → Bool) (c : ClusterId) :
    (t.withdrawAbove p c).nodes = t.nodes.map (Node.withdrawSteps t.config p (t.path c)) :=
  nodes_foldl_withdrawAt hd p (t.path c)

theorem Sound.withdrawStep {t : Tree} (hs : t.Sound) (p : GlobalEdge → Bool)
    (step : ClusterId × LocalVertex) :
    (t.mapCluster step.1 (Cluster.withdrawAt t.config p step.2)).Sound := by
  refine hs.mapCluster step.1 (Cluster.id_withdrawAt t.config p step.2) (fun n hn _ => ?_)
  exact (hs.nodes n hn).withdrawAt p step.2

theorem Sound.withdrawAbove {t : Tree} (hs : t.Sound) (p : GlobalEdge → Bool) (c : ClusterId) :
    (t.withdrawAbove p c).Sound := by
  unfold Tree.withdrawAbove
  generalize t.path c = steps
  induction steps generalizing t with
  | nil => exact hs
  | cons step rest ih => exact ih (hs.withdrawStep p step)

@[simp] theorem config_withdrawAbove (t : Tree) (p : GlobalEdge → Bool) (c : ClusterId) :
    (t.withdrawAbove p c).config = t.config := by
  unfold withdrawAbove
  generalize t.path c = steps
  induction steps generalizing t with
  | nil => rfl
  | cons step rest ih => exact ih _

@[simp] theorem nextClusterId_withdrawAbove (t : Tree) (p : GlobalEdge → Bool) (c : ClusterId) :
    (t.withdrawAbove p c).nextClusterId = t.nextClusterId := by
  unfold withdrawAbove
  generalize t.path c = steps
  induction steps generalizing t with
  | nil => rfl
  | cons step rest ih => exact ih _

theorem ids_withdrawAbove {t : Tree} (hs : t.Sound) (p : GlobalEdge → Bool) (c : ClusterId) :
    (t.withdrawAbove p c).ids = t.ids := by
  rw [ids, nodes_withdrawAbove hs.distinct, Multiset.map_map]
  exact Multiset.map_congr rfl (fun n hn => ((hs.nodes n hn).withdrawSteps p (t.path c)).id)

end Tree

end NestedGraph
