import NestedGraph.Proofs.Paths
import NestedGraph.Proofs.Storage
import NestedGraph.Tree.Removal

/-! # Change — what each primitive change does to the nodes

    Trees change in four ways: a cluster is changed in place, a vertex
    arrives, a vertex is cut off, and a branch is hung on a vertex.  Each
    replaces the node of one cluster, and adds or takes away the nodes of
    whole branches. -/

namespace NestedGraph

namespace Node

/-- The node with its cluster changed, if it is the one meant. -/
def changeAt (c : ClusterId) (f : Cluster → Cluster) (n : Node) : Node :=
  if n.id = c then ⟨f n.cluster, n.entries⟩ else n

/-- The node with a changed storage. -/
def mapStorage (f : Storage → Storage) (n : Node) : Node :=
  ⟨{ n.cluster with storage := f n.storage }, n.entries⟩

/-- The node with one more vertex, and with what hangs on it. -/
def receive (record : VertexRecord) (nested : Option Branch) (n : Node) : Node :=
  ⟨{ n.cluster with storage := n.storage.addVertex record },
    n.entries ++ (nested.map (fun b => (n.storage.vertices.nextHandle, b.cluster.id))).toList⟩

/-- The node without a vertex, and without what hangs on it. -/
def cut (v : LocalVertex) (n : Node) : Node :=
  ⟨{ n.cluster with storage := n.storage.removeVertex v },
    n.entries.filter (fun entry => decide (entry.1 ≠ v))⟩

/-- The node with a cluster hung on a vertex. -/
def graft (v : LocalVertex) (d : ClusterId) (n : Node) : Node :=
  ⟨n.cluster, n.entries ++ [(v, d)]⟩

@[simp] theorem id_mapStorage (f : Storage → Storage) (n : Node) : (n.mapStorage f).id = n.id := rfl

@[simp] theorem storage_mapStorage (f : Storage → Storage) (n : Node) :
    (n.mapStorage f).storage = f n.storage := rfl

@[simp] theorem entries_mapStorage (f : Storage → Storage) (n : Node) :
    (n.mapStorage f).entries = n.entries := rfl

@[simp] theorem id_receive (r : VertexRecord) (b : Option Branch) (n : Node) :
    (n.receive r b).id = n.id := rfl

@[simp] theorem storage_receive (r : VertexRecord) (b : Option Branch) (n : Node) :
    (n.receive r b).storage = n.storage.addVertex r := rfl

@[simp] theorem id_cut (v : LocalVertex) (n : Node) : (n.cut v).id = n.id := rfl

@[simp] theorem storage_cut (v : LocalVertex) (n : Node) :
    (n.cut v).storage = n.storage.removeVertex v := rfl

@[simp] theorem id_graft (v : LocalVertex) (d : ClusterId) (n : Node) : (n.graft v d).id = n.id := rfl

@[simp] theorem storage_graft (v : LocalVertex) (d : ClusterId) (n : Node) :
    (n.graft v d).storage = n.storage := rfl

theorem mem_entries_receive {r : VertexRecord} {nested : Option Branch} {n : Node}
    {w : LocalVertex} {d : ClusterId} :
    (w, d) ∈ (n.receive r nested).entries ↔ (w, d) ∈ n.entries
      ∨ ∃ b, nested = some b ∧ w = n.storage.vertices.nextHandle ∧ d = b.cluster.id := by
  cases nested with
  | none => simp [receive]
  | some b => simp [receive]

theorem mem_entries_cut {v : LocalVertex} {n : Node} {w : LocalVertex} {d : ClusterId} :
    (w, d) ∈ (n.cut v).entries ↔ (w, d) ∈ n.entries ∧ w ≠ v := by
  simp [cut]

theorem id_changeAt (c : ClusterId) {f : Cluster → Cluster} (hf : ∀ k : Cluster, (f k).id = k.id)
    (n : Node) : (n.changeAt c f).id = n.id := by
  unfold changeAt
  split
  · exact hf n.cluster
  · rfl

@[simp] theorem entries_changeAt (c : ClusterId) (f : Cluster → Cluster) (n : Node) :
    (n.changeAt c f).entries = n.entries := by
  unfold changeAt
  split <;> rfl

theorem changeAt_self (f : Cluster → Cluster) (n : Node) :
    n.changeAt n.id f = ⟨f n.cluster, n.entries⟩ := if_pos rfl

theorem changeAt_of_ne {c : ClusterId} {n : Node} (f : Cluster → Cluster) (h : n.id ≠ c) :
    n.changeAt c f = n := if_neg h

end Node

namespace Forest

/-! ## Changes in place -/

/-- A change of a cluster in place keeps the ids. -/
theorem ids_mapCluster {g : Forest} (hg : g.ids.Nodup) {p : ClusterId} {f : Cluster → Cluster}
    (hf : ∀ k : Cluster, (f k).id = k.id) :
    (g.update p (fun b => { b with cluster := f b.cluster })).ids = g.ids := by
  by_cases hp : p ∈ g.ids
  · obtain ⟨d, hd⟩ := Option.isSome_iff_exists.mp (mem_ids_iff.mp hp)
    obtain ⟨around, heq, hupd⟩ := nodes_update hg hd
    have hid : (f d.cluster).id = p := (hf _).trans (id_of_find? hd)
    have hsame : Node.id ⟨f d.cluster, d.inside.entries⟩ = d.node.id := hf d.cluster
    rw [ids, ids, (hupd (fun b => { b with cluster := f b.cluster }) hid).1, heq,
      Multiset.map_add, Multiset.map_add, Branch.nodes, Branch.nodes, Multiset.map_cons,
      Multiset.map_cons]
    exact congrArg (fun id => id ::ₘ d.inside.nodes.map Node.id + around.map Node.id) hsame
  · rw [update_of_notMem _ hp]

/-- Changes of different clusters can change places. -/
theorem mapCluster_comm (g : Forest) {c d : ClusterId} (hne : c ≠ d) {f h : Cluster → Cluster}
    (hf : ∀ k : Cluster, (f k).id = k.id) (hh : ∀ k : Cluster, (h k).id = k.id) :
    (g.update c (fun b => { b with cluster := f b.cluster })).update d
        (fun b => { b with cluster := h b.cluster })
      = (g.update d (fun b => { b with cluster := h b.cluster })).update c
        (fun b => { b with cluster := f b.cluster }) := by
  induction g with
  | nil => rfl
  | cons v k inside rest ihInside ihRest =>
      by_cases hc : k.id = c
      · have hd : k.id ≠ d := fun hd => hne (hc.symm.trans hd)
        simp only [update, if_pos hc, hf, if_neg hd, ihRest]
      · by_cases hd : k.id = d
        · simp only [update, if_neg hc, if_pos hd, hh, ihRest]
        · simp only [update, if_neg hc, if_neg hd, ihInside, ihRest]

/-- The branches that the cluster is not in are left alone. -/
theorem find?_mapCluster {g : Forest} (hg : g.ids.Nodup) {c p : ClusterId} {b : Branch}
    {f : Cluster → Cluster} (hf : ∀ k : Cluster, (f k).id = k.id) (hb : g.find? c = some b)
    (hp : p ∉ b.ids) : (g.update p (fun b => { b with cluster := f b.cluster })).find? c = some b := by
  rw [Branch.ids_eq, Multiset.mem_cons, not_or] at hp
  induction g with
  | nil => exact nomatch hb
  | cons v k inside rest ihInside ihRest =>
      rw [ids_cons, Multiset.nodup_cons, Multiset.nodup_add] at hg
      obtain ⟨hk, hin, hr, -⟩ := hg
      unfold find? at hb
      by_cases hc : k.id = c
      · rw [if_pos hc] at hb
        obtain rfl := Option.some.inj hb
        have hkp : ¬ k.id = p := fun he => hp.1 he.symm
        rw [update, if_neg hkp, update_of_notMem _ hp.2]
        exact if_pos hc
      · rw [if_neg hc] at hb
        by_cases hkp : k.id = p
        · have hrest : p ∉ rest.ids := fun hm => hk (hkp ▸ Multiset.mem_add.mpr (Or.inr hm))
          rw [update, if_pos hkp, update_of_notMem _ hrest]
          show (if (f k).id = c then _ else _) = _
          rw [if_neg (by rw [hf]; exact hc)]
          exact hb
        · rw [update, if_neg hkp, find?, if_neg hc]
          rcases Option.or_eq_some_iff.mp hb with hb | ⟨hnone, hb⟩
          · rw [ihInside hin hb]
            rfl
          · have hinside : (inside.update p (fun b => { b with cluster := f b.cluster })).find? c
                = none := by
              refine find?_eq_none (fun hmem => ?_)
              rw [ids_mapCluster hin hf, mem_ids_iff, hnone] at hmem
              exact Bool.false_ne_true hmem
            rw [hinside, ihRest hr hb]
            rfl

end Forest

namespace Tree

/-! ## One branch -/

theorem Distinct.exists_around {t : Tree} (hd : t.Distinct) {c : ClusterId} {b : Branch}
    (h : t.find? c = some b) :
    ∃ around, t.nodes = b.nodes + around ∧ ∀ g : Branch → Branch, (g b).cluster.id = c →
      (t.update c g).nodes = (g b).nodes + around := by
  rw [find?, Branch.find?] at h
  by_cases hc : t.top.cluster.id = c
  · rw [if_pos hc] at h
    obtain rfl := Option.some.inj h
    refine ⟨0, (add_zero _).symm, fun g _ => ?_⟩
    show (t.top.update c g).nodes = _
    rw [Branch.update, if_pos hc, add_zero]
  · rw [if_neg hc] at h
    obtain ⟨around, heq, hupd⟩ := Forest.nodes_update hd.inside h
    refine ⟨t.top.node ::ₘ around, ?_, fun g hg => ?_⟩
    · rw [nodes_eq, heq, Multiset.add_cons]
    · obtain ⟨hn, he⟩ := hupd g hg
      show (t.top.update c g).nodes = _
      rw [Branch.update, if_neg hc, Branch.nodes, Branch.node, he, hn, Multiset.add_cons]
      rfl

theorem find?_update_self {t : Tree} {c : ClusterId} {b : Branch} {g : Branch → Branch}
    (h : t.find? c = some b) (hg : (g b).cluster.id = c) : (t.update c g).find? c = some (g b) := by
  rw [find?, Branch.find?] at h
  show (t.top.update c g).find? c = _
  by_cases hc : t.top.cluster.id = c
  · rw [if_pos hc] at h
    obtain rfl := Option.some.inj h
    rw [Branch.update, if_pos hc, Branch.find?, if_pos hg]
  · rw [if_neg hc] at h
    rw [Branch.update, if_neg hc, Branch.find?, if_neg hc]
    exact Forest.find?_update_self h hg

theorem find?_mapStorage_self {t : Tree} {c : ClusterId} {b : Branch} (h : t.find? c = some b)
    (f : Storage → Storage) : (t.mapStorage c f).find? c = some (b.mapStorage f) := by
  have hid : (b.mapStorage f).cluster.id = c := id_of_find? (b := b) h
  exact find?_update_self (g := fun b => b.mapStorage f) h hid

theorem update_update {c : ClusterId} {f g : Branch → Branch}
    (hf : ∀ b : Branch, b.cluster.id = c → (f b).cluster.id = c) (t : Tree) :
    (t.update c f).update c g = t.update c (fun b => g (f b)) := by
  have htop : (t.top.update c f).update c g = t.top.update c (fun b => g (f b)) := by
    by_cases hc : t.top.cluster.id = c
    · have h1 : t.top.update c f = f t.top := if_pos hc
      have h2 : t.top.update c (fun b => g (f b)) = g (f t.top) := if_pos hc
      rw [h1, h2]
      exact if_pos (hf _ hc)
    · have h1 : t.top.update c f = { t.top with inside := t.top.inside.update c f } := if_neg hc
      rw [h1]
      refine (if_neg hc).trans (Eq.trans ?_ (if_neg hc).symm)
      exact congrArg (Branch.mk t.top.cluster) (Forest.update_update hf _)
  exact congrArg (fun top => ({ t with top := top } : Tree)) htop

theorem mapStorage_mapStorage (t : Tree) (c : ClusterId) (f g : Storage → Storage) :
    (t.mapStorage c f).mapStorage c g = t.mapStorage c (fun s => g (f s)) :=
  update_update (f := fun b => b.mapStorage f) (g := fun b => b.mapStorage g) (fun _ hb => hb) t

theorem mapCluster_mapCluster {f h : Cluster → Cluster} (hf : ∀ k : Cluster, (f k).id = k.id)
    (t : Tree) (c : ClusterId) :
    (t.mapCluster c f).mapCluster c h = t.mapCluster c (fun k => h (f k)) :=
  update_update (f := fun b => { b with cluster := f b.cluster })
    (g := fun b => { b with cluster := h b.cluster }) (fun b hb => (hf b.cluster).trans hb) t

theorem mapCluster_comm (t : Tree) {c d : ClusterId} (hne : c ≠ d) {f h : Cluster → Cluster}
    (hf : ∀ k : Cluster, (f k).id = k.id) (hh : ∀ k : Cluster, (h k).id = k.id) :
    (t.mapCluster c f).mapCluster d h = (t.mapCluster d h).mapCluster c f := by
  refine congrArg (fun top => ({ t with top := top } : Tree)) ?_
  obtain ⟨config, next, ⟨k, inside⟩⟩ := t
  by_cases hc : k.id = c
  · have hd : k.id ≠ d := fun hd => hne (hc.symm.trans hd)
    simp only [mapCluster, Tree.update, Branch.update, if_pos hc, hf, if_neg hd]
  · by_cases hd : k.id = d
    · simp only [mapCluster, Tree.update, Branch.update, if_neg hc, if_pos hd, hh]
    · simp only [mapCluster, Tree.update, Branch.update, if_neg hc, if_neg hd,
        Forest.mapCluster_comm inside hne hf hh]

/-- A change that changes no branch changes nothing. -/
theorem update_self {c : ClusterId} {f : Branch → Branch} (hf : ∀ b, f b = b) (t : Tree) :
    t.update c f = t := by
  have hforest : ∀ g : Forest, g.update c f = g := by
    intro g
    induction g with
    | nil => rfl
    | cons v k inside rest ihInside ihRest =>
        rw [Forest.update, hf, ihInside, ihRest]
        exact ite_self _
  have htop : t.top.update c f = t.top := by
    rw [Branch.update, hf, hforest]
    exact ite_self _
  exact congrArg (fun top => ({ t with top := top } : Tree)) htop

theorem Distinct.update_congr {t : Tree} (hd : t.Distinct) {c : ClusterId} {b : Branch}
    {g h : Branch → Branch} (hb : t.find? c = some b) (hgh : g b = h b) :
    t.update c g = t.update c h := by
  have htop : t.top.update c g = t.top.update c h := by
    rw [find?, Branch.find?] at hb
    by_cases hc : t.top.cluster.id = c
    · rw [if_pos hc] at hb
      obtain rfl := Option.some.inj hb
      rw [Branch.update, if_pos hc, Branch.update, if_pos hc, hgh]
    · rw [if_neg hc] at hb
      rw [Branch.update, if_neg hc, Branch.update, if_neg hc,
        Forest.update_congr hd.inside hb hgh]
  exact congrArg (fun top => ({ t with top := top } : Tree)) htop

theorem update_of_dead {t : Tree} {c : ClusterId} (g : Branch → Branch) (h : c ∉ t.ids) :
    t.update c g = t := by
  rw [ids_eq, Multiset.mem_cons, not_or] at h
  have hroot : ¬ t.top.cluster.id = c := fun he => h.1 he.symm
  show ({ t with top := t.top.update c g } : Tree) = t
  rw [Branch.update, if_neg hroot, Forest.update_of_notMem g h.2]

theorem root_update {t : Tree} {c : ClusterId} {g : Branch → Branch}
    (hg : ∀ b : Branch, b.cluster.id = c → (g b).cluster.id = c) : (t.update c g).root = t.root := by
  show (t.top.update c g).cluster.id = t.top.cluster.id
  rw [Branch.update]
  split
  · rename_i hc
    rw [hg _ hc, hc]
  · rfl

@[simp] theorem config_mapStorage (t : Tree) (c : ClusterId) (f : Storage → Storage) :
    (t.mapStorage c f).config = t.config := rfl

@[simp] theorem nextClusterId_mapStorage (t : Tree) (c : ClusterId) (f : Storage → Storage) :
    (t.mapStorage c f).nextClusterId = t.nextClusterId := rfl

@[simp] theorem config_receive (t : Tree) (c : ClusterId) (r : VertexRecord)
    (nested : Option Branch) : (t.receive c r nested).config = t.config := rfl

@[simp] theorem nextClusterId_receive (t : Tree) (c : ClusterId) (r : VertexRecord)
    (nested : Option Branch) : (t.receive c r nested).nextClusterId = t.nextClusterId := rfl

@[simp] theorem config_cutAt (t : Tree) (c : ClusterId) (v : LocalVertex) :
    (t.cutAt c v).config = t.config := rfl

@[simp] theorem nextClusterId_cutAt (t : Tree) (c : ClusterId) (v : LocalVertex) :
    (t.cutAt c v).nextClusterId = t.nextClusterId := rfl

@[simp] theorem config_mark (t : Tree) (c : ClusterId) : (t.mark c).config = t.config := rfl

@[simp] theorem nextClusterId_mark (t : Tree) (c : ClusterId) :
    (t.mark c).nextClusterId = t.nextClusterId := rfl

/-! ## Primitive changes -/

variable {t : Tree} {n : Node} {rest : Multiset Node}

theorem nodes_cons_of_mem (h : n ∈ t.nodes) : ∃ rest, t.nodes = n ::ₘ rest :=
  Multiset.exists_cons_of_mem h

theorem Distinct.id_ne_of_cons (hd : t.Distinct) (hn : t.nodes = n ::ₘ rest) {m : Node}
    (hm : m ∈ rest) : m.id ≠ n.id := by
  intro he
  rw [Distinct, ids, hn, Multiset.map_cons, Multiset.nodup_cons] at hd
  exact hd.1 (he ▸ Multiset.mem_map_of_mem Node.id hm)

/-- The nodes after a change of one branch, given the node of its cluster. -/
theorem Distinct.nodes_update (hd : t.Distinct) (hn : t.nodes = n ::ₘ rest) {b : Branch}
    (hb : t.find? n.id = some b) (g : Branch → Branch) (hg : (g b).cluster.id = n.id) :
    ∃ around, rest = b.inside.nodes + around ∧ b.node = n
      ∧ (t.update n.id g).nodes = (g b).nodes + around := by
  have hnode : b.node = n := hd.node_of_find? (hn ▸ Multiset.mem_cons_self ..) hb
  obtain ⟨around, heq, hupd⟩ := hd.exists_around hb
  refine ⟨around, ?_, hnode, hupd g hg⟩
  have hcons : n ::ₘ rest = n ::ₘ (b.inside.nodes + around) := by
    rw [← hn, heq, Branch.nodes, hnode, Multiset.cons_add]
  exact (Multiset.cons_inj_right n).mp hcons

theorem Distinct.nodes_mapCluster_cons (hd : t.Distinct) (hn : t.nodes = n ::ₘ rest)
    {f : Cluster → Cluster} (hf : (f n.cluster).id = n.id) :
    (t.mapCluster n.id f).nodes = ⟨f n.cluster, n.entries⟩ ::ₘ rest := by
  obtain ⟨b, hb, hnode⟩ := hd.find?_of_mem (hn ▸ Multiset.mem_cons_self n rest)
  have hk : b.cluster = n.cluster := congrArg Node.cluster hnode
  have he : b.inside.entries = n.entries := congrArg Node.entries hnode
  obtain ⟨around, rfl, -, hupd⟩ := hd.nodes_update hn hb
    (fun b => { b with cluster := f b.cluster }) (by rw [hk]; exact hf)
  rw [mapCluster, hupd, Branch.nodes, Branch.node]
  dsimp only
  rw [hk, he, Multiset.cons_add]

/-- A change of one cluster in place changes its node, and no other. -/
theorem Distinct.nodes_mapCluster (hd : t.Distinct) (c : ClusterId) {f : Cluster → Cluster}
    (hf : ∀ k : Cluster, (f k).id = k.id) :
    (t.mapCluster c f).nodes = t.nodes.map (Node.changeAt c f) := by
  by_cases hc : c ∈ t.ids
  · obtain ⟨n, hn, rfl⟩ := Multiset.mem_map.mp hc
    obtain ⟨rest, hrest⟩ := nodes_cons_of_mem hn
    have hsame : rest.map (Node.changeAt n.id f) = rest := by
      refine (Multiset.map_congr rfl (fun m hm => ?_)).trans (Multiset.map_id rest)
      exact Node.changeAt_of_ne f (hd.id_ne_of_cons hrest hm)
    rw [hd.nodes_mapCluster_cons hrest (hf n.cluster), hrest, Multiset.map_cons, hsame,
      Node.changeAt_self]
  · have hsame : t.nodes.map (Node.changeAt c f) = t.nodes := by
      refine (Multiset.map_congr rfl (fun m hm => ?_)).trans (Multiset.map_id t.nodes)
      exact Node.changeAt_of_ne f (fun he => hc (he ▸ Multiset.mem_map_of_mem Node.id hm))
    rw [hsame, mapCluster, update_of_dead _ hc]

theorem Distinct.nodes_mapStorage (hd : t.Distinct) (hn : t.nodes = n ::ₘ rest)
    (f : Storage → Storage) : (t.mapStorage n.id f).nodes = n.mapStorage f ::ₘ rest :=
  hd.nodes_mapCluster_cons hn (f := fun k => { k with storage := f k.storage }) rfl

/-- A vertex that arrives brings the nodes of the branch hung on it. -/
theorem Distinct.nodes_receive (hd : t.Distinct) (hn : t.nodes = n ::ₘ rest)
    (record : VertexRecord) (nested : Option Branch) :
    (t.receive n.id record nested).nodes
      = n.receive record nested ::ₘ (nestedNodes nested + rest) := by
  obtain ⟨b, hb, hnode⟩ := hd.find?_of_mem (hn ▸ Multiset.mem_cons_self n rest)
  have hk : b.cluster = n.cluster := congrArg Node.cluster hnode
  have he : b.inside.entries = n.entries := congrArg Node.entries hnode
  obtain ⟨around, rfl, -, hupd⟩ := hd.nodes_update hn hb
    (fun b => b.receive record nested) (by show b.cluster.id = _; rw [hk]; rfl)
  rw [receive, hupd, Branch.nodes]
  cases nested with
  | none =>
      have hnode' : (b.receive record none).node = n.receive record none := by
        show Node.mk _ _ = Node.mk _ _
        simp [Branch.receive, Node.storage, hk, he]
      rw [hnode', Multiset.cons_add]
      simp [Branch.receive, nestedNodes]
  | some d =>
      have hnode' : (b.receive record (some d)).node = n.receive record (some d) := by
        show Node.mk _ _ = Node.mk _ _
        simp [Branch.receive, Node.storage, hk, he, Branch.nextVertex]
      have hinside : (b.receive record (some d)).inside.nodes = b.inside.nodes + d.nodes := by
        simp [Branch.receive]
      rw [hnode', hinside, Multiset.cons_add, nestedNodes, add_assoc, add_left_comm]

/-- A vertex that is cut off takes the nodes of the branch hung on it. -/
theorem Distinct.nodes_cutAt (hd : t.Distinct) (hn : t.nodes = n ::ₘ rest)
    (hkeys : (n.entries.map Prod.fst).Nodup) (v : LocalVertex) {b : Branch}
    (hb : t.find? n.id = some b) :
    ∃ rest', rest = nestedNodes (b.inside.branchAt? v) + rest'
      ∧ (t.cutAt n.id v).nodes = n.cut v ::ₘ rest' := by
  have hnode : b.node = n := hd.node_of_find? (hn ▸ Multiset.mem_cons_self ..) hb
  have hk : b.cluster = n.cluster := congrArg Node.cluster hnode
  have he : b.inside.entries = n.entries := congrArg Node.entries hnode
  obtain ⟨around, rfl, -, hupd⟩ := hd.nodes_update hn hb
    (fun b => { b.mapStorage (fun s => s.removeVertex v) with inside := b.inside.eraseAt v })
    (by show b.cluster.id = _; rw [hk]; rfl)
  refine ⟨(b.inside.eraseAt v).nodes + around, ?_, ?_⟩
  · rw [← add_assoc, ← Forest.nodes_eraseAt]
  · rw [cutAt, hupd, Branch.nodes, Multiset.cons_add]
    congr 1
    show Node.mk _ (b.inside.eraseAt v).entries = Node.mk _ _
    rw [Forest.entries_eraseAt v (he ▸ hkeys), he]
    simp [Branch.mapStorage, Node.storage, hk]

/-- A branch that is hung on a vertex brings its nodes. -/
theorem Distinct.nodes_graft (hd : t.Distinct) (hn : t.nodes = n ::ₘ rest) (v : LocalVertex)
    (child : Branch) :
    (t.graft n.id v child).nodes = n.graft v child.cluster.id ::ₘ (child.nodes + rest) := by
  obtain ⟨b, hb, hnode⟩ := hd.find?_of_mem (hn ▸ Multiset.mem_cons_self n rest)
  have hk : b.cluster = n.cluster := congrArg Node.cluster hnode
  have he : b.inside.entries = n.entries := congrArg Node.entries hnode
  obtain ⟨around, rfl, -, hupd⟩ := hd.nodes_update hn hb
    (fun b => { b with inside := b.inside.append (.single v child) })
    (by show b.cluster.id = _; rw [hk]; rfl)
  have hnodes : (b.inside.append (.single v child)).nodes = b.inside.nodes + child.nodes := by
    simp
  rw [graft, hupd, Branch.nodes, Multiset.cons_add]
  dsimp only
  rw [hnodes, add_assoc, add_left_comm]
  congr 1
  show Node.mk _ _ = Node.mk _ _
  simp [hk, he]

/-! ## Branches elsewhere -/

/-- A change of a cluster in place leaves alone the branches that it is not
    in. -/
theorem Distinct.find?_mapCluster {t : Tree} (hd : t.Distinct) {c p : ClusterId} {b : Branch}
    {f : Cluster → Cluster} (hf : ∀ k : Cluster, (f k).id = k.id) (hb : t.find? c = some b)
    (hp : p ∉ b.ids) : (t.mapCluster p f).find? c = some b := by
  rw [find?, Branch.find?] at hb
  show (t.top.update p _).find? c = _
  by_cases hc : t.top.cluster.id = c
  · rw [if_pos hc] at hb
    obtain rfl := Option.some.inj hb
    rw [Branch.ids_eq, Multiset.mem_cons, not_or] at hp
    have htp : ¬ t.top.cluster.id = p := fun he => hp.1 he.symm
    rw [Branch.update, if_neg htp, Forest.update_of_notMem _ hp.2]
    exact if_pos hc
  · rw [if_neg hc] at hb
    by_cases htp : t.top.cluster.id = p
    · rw [Branch.update, if_pos htp, Branch.find?, if_neg (by rw [hf]; exact hc)]
      exact hb
    · rw [Branch.update, if_neg htp, Branch.find?, if_neg hc]
      exact Forest.find?_mapCluster hd.inside hf hb hp

/-! ## Where only entries go -/

/-- As long as nothing hangs where it did not hang before, every cluster
    that stays keeps its way up. -/
theorem Distinct.path_of_entries {t t' : Tree} (hd : t.Distinct) (hd' : t'.Distinct)
    (hroot : t'.root = t.root)
    (hsub : ∀ n' ∈ t'.nodes, ∃ n ∈ t.nodes, n.id = n'.id ∧ ∀ e ∈ n'.entries, e ∈ n.entries)
    {d : ClusterId} (h : d ∈ t'.ids) : t'.path d = t.path d := by
  generalize hlen : (t'.path d).length = k
  induction k generalizing d with
  | zero =>
      have hnil := List.length_eq_zero_iff.mp hlen
      have hd0 : d = t'.root := by
        by_contra hne
        obtain ⟨n, hn, v, hv⟩ := exists_parent h hne
        rw [hd'.path_child hn hv] at hnil
        exact nomatch hnil
      rw [hnil, hd0, hroot]
      exact Distinct.path_root.symm
  | succ k ih =>
      cases hp : t'.path d with
      | nil => rw [hp] at hlen; exact nomatch hlen
      | cons step p =>
          obtain ⟨c, v⟩ := step
          obtain ⟨rfl, n', hn', rfl, hv⟩ := hd'.path_eq_cons hp
          obtain ⟨n, hn, hid, hsubset⟩ := hsub n' hn'
          rw [hp, List.length_cons] at hlen
          rw [hd.path_child hn (hsubset _ hv), hid,
            ih (Multiset.mem_map_of_mem Node.id hn') (Nat.succ.inj hlen)]

end Tree

end NestedGraph
