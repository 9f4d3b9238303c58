import NestedGraph.Arena
import NestedGraph.Proofs.Climbing

/-! # Laying out — a tree kept cluster by cluster

    An arena LAYS OUT a tree when it keeps the clusters of the tree with
    their children maps, each under its id, and when every cluster that is
    listed somewhere names the cluster and the vertex where it is listed.
    Clusters that nobody lists for the moment are LOOSE: the arena keeps
    them, but they are not in the tree.  Without loose clusters a traversal
    reads the same in both. -/

namespace NestedGraph

/-- What is kept for a cluster, apart from what it says of its own place. -/
def Cell.node (k : Cell) : Node := ⟨k.cluster, k.children⟩

/-- A cluster names the same place, and lists no more children than before. -/
structure Cell.Stays (k k' : Cell) : Prop where
  id : k'.id = k.id
  children : k'.children ⊆ k.children
  parent : k'.parent = k.parent
  vertex : k'.vertex = k.vertex

theorem Cell.stays_mapCluster {f : Cluster → Cluster} (hf : ∀ k : Cluster, (f k).id = k.id)
    (k : Cell) : k.Stays (k.mapCluster f) := ⟨hf k.cluster, List.Subset.refl _, rfl, rfl⟩

theorem Cell.stays_cut (v : LocalVertex) (k : Cell) : k.Stays (k.cut v) :=
  ⟨rfl, fun _ hentry => (List.mem_filter.mp hentry).1, rfl, rfl⟩

/-- The child on a vertex of a forest is the first that is listed on it. -/
theorem Forest.get?_entries (f : Forest) (v : LocalVertex) :
    ChildMap.get? f.entries v = (f.branchAt? v).map (fun b => b.cluster.id) := by
  induction f with
  | nil => rfl
  | cons w k inside rest _ ih =>
      rw [Forest.entries_cons, ChildMap.get?, Forest.branchAt?]
      by_cases hw : w = v
      · simp [hw]
      · rw [if_neg hw, ← ih, ChildMap.get?]
        simp [hw]

theorem ChildMap.mem_insert {m : ChildMap} {v : LocalVertex} {d : ClusterId}
    {entry : LocalVertex × ClusterId} (h : entry ∈ m.insert v d) : entry ∈ m ∨ entry = (v, d) := by
  rw [insert] at h
  split at h
  · obtain ⟨old, hold, rfl⟩ := List.mem_map.mp h
    split
    · exact Or.inr rfl
    · exact Or.inl hold
  · exact (List.mem_append.mp h).imp_right List.mem_singleton.mp

theorem ChildMap.insert_of_notMem {m : ChildMap} {v : LocalVertex} (h : v ∉ m.map Prod.fst)
    (d : ClusterId) : m.insert v d = m ++ [(v, d)] := by
  refine if_neg (fun hsome => h ?_)
  rw [get?, Option.isSome_map, List.find?_isSome] at hsome
  obtain ⟨entry, hentry, hv⟩ := hsome
  exact of_decide_eq_true hv ▸ List.mem_map_of_mem hentry

/-- What an arena keeps for a cluster of a tree. -/
def Tree.cell (t : Tree) (b : Branch) : Cell where
  cluster := b.cluster
  children := b.inside.entries
  parent := t.parent? b.cluster.id
  vertex := t.vertex? b.cluster.id

namespace Arena

/-- The nodes of all clusters that are kept. -/
def nodes (a : Arena) : Multiset Node := (a.cells.map Cell.node : List Node)

/-- What hangs where is written down twice, and the two agree. -/
structure Linked (a : Arena) : Prop where
  child : ∀ k ∈ a.cells, ∀ v d, (v, d) ∈ k.children → ∀ k' ∈ a.cells, k'.id = d →
    k'.parent = some k.id ∧ k'.vertex = some v
  root : ∀ k ∈ a.cells, k.id = a.root → k.parent = none ∧ k.vertex = none

/-- An arena keeps the clusters of a tree, and those that are loose. -/
structure Lays (a : Arena) (t : Tree) (loose : Multiset Node := 0) : Prop where
  config : a.config = t.config
  root : a.root = t.root
  next : a.next.toNat = t.nextClusterId
  nodes : a.nodes = t.nodes + loose
  once : (a.nodes.map Node.id).Nodup
  linked : a.Linked

variable {a : Arena} {t : Tree} {loose : Multiset Node} {c : ClusterId} {k : Cell} {b : Branch}

theorem mem_nodes {n : Node} : n ∈ a.nodes ↔ ∃ k ∈ a.cells, k.node = n := by
  rw [nodes, Multiset.mem_coe, List.mem_map]

theorem ids_nodes (a : Arena) : a.nodes.map Node.id = (a.cells.map Cell.id : List ClusterId) := by
  rw [nodes, Multiset.map_coe, List.map_map]
  rfl

/-! ## What is kept under an id -/

theorem mem_of_get? (h : a.get? c = some k) : k ∈ a.cells ∧ k.id = c :=
  ⟨List.mem_of_find?_eq_some h,
    of_decide_eq_true (List.find?_some (p := fun k : Cell => decide (k.id = c)) h)⟩

theorem get?_of_mem (h : (a.nodes.map Node.id).Nodup) (hk : k ∈ a.cells) : a.get? k.id = some k := by
  rw [ids_nodes, Multiset.coe_nodup] at h
  cases hget : a.get? k.id with
  | none => exact absurd (decide_eq_true rfl) (List.find?_eq_none.mp hget k hk)
  | some k' =>
      obtain ⟨hk', hid⟩ := mem_of_get? hget
      rw [List.inj_on_of_nodup_map h hk' hk hid]

theorem exists_get?_of_mem (hc : c ∈ a.cells.map Cell.id) : ∃ k, a.get? c = some k := by
  obtain ⟨k, hk, hid⟩ := List.mem_map.mp hc
  refine Option.isSome_iff_exists.mp (List.find?_isSome.mpr ⟨k, hk, decide_eq_true hid⟩)

/-- A new arena keeps the root of a new tree. -/
theorem lays_new (config : Config) : (Arena.new config).Lays (Tree.new config) := by
  refine ⟨rfl, rfl, rfl, rfl, Multiset.nodup_singleton _, fun k hk v d hv => ?_, fun k hk _ => ?_⟩
  · rw [List.mem_singleton.mp hk] at hv
    exact absurd hv List.not_mem_nil
  · rw [List.mem_singleton.mp hk]
    exact ⟨rfl, rfl⟩

namespace Lays

variable (hl : a.Lays t loose)
include hl

theorem distinct : t.Distinct := by
  have hnodup := hl.once
  rw [hl.nodes, Multiset.map_add, Multiset.nodup_add] at hnodup
  exact hnodup.1

theorem exists_cell {n : Node} (hn : n ∈ t.nodes) : ∃ k ∈ a.cells, k.node = n :=
  mem_nodes.mp (hl.nodes ▸ Multiset.mem_add.mpr (Or.inl hn))

theorem exists_get? (hb : t.find? c = some b) : ∃ k, a.get? c = some k ∧ k.node = b.node := by
  obtain ⟨k, hk, hnode⟩ := hl.exists_cell (Tree.node_mem_of_find? hb)
  obtain rfl := Tree.id_of_find? hb
  have hid : k.id = b.cluster.id := congrArg Node.id hnode
  exact ⟨k, hid ▸ get?_of_mem hl.once hk, hnode⟩

theorem get?_eq_none (hb : t.find? c = none) (hc : c ∉ loose.map Node.id) : a.get? c = none := by
  refine Option.eq_none_iff_forall_ne_some.mpr (fun k hget => ?_)
  obtain ⟨hk, rfl⟩ := mem_of_get? hget
  have hn : k.node ∈ t.nodes + loose := hl.nodes ▸ mem_nodes.mpr ⟨k, hk, rfl⟩
  rcases Multiset.mem_add.mp hn with hn | hn
  · obtain ⟨b, hb', -⟩ := hl.distinct.find?_of_mem hn
    exact nomatch hb.symm.trans hb'
  · exact hc (Multiset.mem_map_of_mem Node.id hn)

/-- But for what a cluster says of its own place, what is kept for it is read
    off the tree. -/
theorem map_get? (hc : c ∉ loose.map Node.id) :
    (a.get? c).map Cell.node = (t.find? c).map Branch.node := by
  cases hb : t.find? c with
  | none => rw [hl.get?_eq_none hb hc]; rfl
  | some b =>
      obtain ⟨k, hget, hnode⟩ := hl.exists_get? hb
      rw [hget]
      exact congrArg some hnode

theorem storage? (hc : c ∉ loose.map Node.id) : a.storage? c = t.storage? c := by
  have h := congrArg (Option.map Node.storage) (hl.map_get? hc)
  rwa [Option.map_map, Option.map_map] at h

theorem global? (hc : c ∉ loose.map Node.id) (v : LocalVertex) : a.global? c v = t.global? c v := by
  rw [Arena.global?, hl.storage? hc]
  rfl

theorem childIds? (hc : c ∉ loose.map Node.id) : a.childIds? c = t.childIds? c := by
  have h := congrArg (Option.map (fun n : Node => n.entries.map Prod.snd)) (hl.map_get? hc)
  rwa [Option.map_map, Option.map_map] at h

theorem childAt? (hc : c ∉ loose.map Node.id) (v : LocalVertex) :
    a.childAt? c v = t.childAt? c v := by
  have h := congrArg (fun n => n.bind (fun n : Node => ChildMap.get? n.entries v)) (hl.map_get? hc)
  rw [Tree.childAt?, Option.map_bind]
  simp only [Option.bind_map] at h
  exact h.trans (congrArg _ (funext fun b => Forest.get?_entries b.inside v))

end Lays

/-! ## Writing -/

theorem nodes_modify {f : Cell → Cell} {g : Node → Node} (hf : ∀ k, (f k).node = g k.node)
    (a : Arena) (c : ClusterId) :
    (a.modify c f).nodes = a.nodes.map (fun n => if n.id = c then g n else n) := by
  rw [nodes, nodes, modify, Multiset.map_coe, List.map_map, List.map_map]
  refine congrArg _ (List.map_congr_left (fun k _ => ?_))
  show Cell.node (if k.id = c then f k else k) = if k.id = c then g k.node else k.node
  split
  · exact hf k
  · rfl

theorem ids_modify {f : Cell → Cell} (hf : ∀ k, (f k).id = k.id) (a : Arena) (c : ClusterId) :
    (a.modify c f).cells.map Cell.id = a.cells.map Cell.id := by
  rw [modify, List.map_map]
  refine List.map_congr_left (fun k _ => ?_)
  rw [Function.comp_apply]
  split
  · exact hf k
  · rfl

theorem modify_modify {f g : Cell → Cell} (hf : ∀ k, (f k).id = k.id) (a : Arena) (c : ClusterId) :
    (a.modify c f).modify c g = a.modify c (fun k => g (f k)) := by
  simp only [modify, List.map_map, Arena.mk.injEq, true_and, and_true]
  refine List.map_congr_left (fun k _ => ?_)
  by_cases hk : k.id = c
  · simp [hk, hf]
  · simp [hk]

theorem once_modify {f : Cell → Cell} (hf : ∀ k, (f k).id = k.id) (c : ClusterId)
    (h : (a.nodes.map Node.id).Nodup) : ((a.modify c f).nodes.map Node.id).Nodup := by
  rwa [ids_nodes, ids_modify hf, ← ids_nodes]

/-- A change of one cell changes its node, and no other. -/
theorem nodes_modify_cons {f : Cell → Cell} {g : Node → Node} (hf : ∀ k, (f k).node = g k.node)
    (h : (a.nodes.map Node.id).Nodup) {n : Node} {rest : Multiset Node}
    (hn : a.nodes = n ::ₘ rest) : (a.modify n.id f).nodes = g n ::ₘ rest := by
  rw [nodes_modify hf, hn, Multiset.map_cons, if_pos rfl]
  rw [hn, Multiset.map_cons, Multiset.nodup_cons] at h
  refine congrArg _ ((Multiset.map_congr rfl (fun m hm => ?_)).trans (Multiset.map_id rest))
  refine if_neg (fun he => h.1 ?_)
  rw [← he]
  exact Multiset.mem_map_of_mem Node.id hm

theorem mem_modify {f : Cell → Cell} {k' : Cell} :
    k' ∈ (a.modify c f).cells ↔ ∃ k ∈ a.cells, (if k.id = c then f k else k) = k' := by
  rw [modify, List.mem_map]

namespace Linked

variable (h : a.Linked)
include h

/-- A cluster may list less than before. -/
theorem modify {f : Cell → Cell} (hf : ∀ k : Cell, k.Stays (f k)) (c : ClusterId) :
    (a.modify c f).Linked := by
  have hall : ∀ k : Cell, k.Stays (if k.id = c then f k else k) := by
    intro k
    split
    · exact hf k
    · exact ⟨rfl, List.Subset.refl _, rfl, rfl⟩
  refine ⟨fun k hk v d hv k' hk' hid => ?_, fun k hk hid => ?_⟩
  · obtain ⟨m, hm, rfl⟩ := mem_modify.mp hk
    obtain ⟨m', hm', rfl⟩ := mem_modify.mp hk'
    rw [(hall m').parent, (hall m').vertex, (hall m).id]
    exact h.child m hm v d ((hall m).children hv) m' hm' ((hall m').id.symm.trans hid)
  · obtain ⟨m, hm, rfl⟩ := mem_modify.mp hk
    rw [(hall m).parent, (hall m).vertex]
    exact h.root m hm ((hall m).id.symm.trans hid)

variable {d : ClusterId} (hfree : ∀ k ∈ a.cells, ∀ v, (v, d) ∉ k.children)
include hfree

/-- A cluster that nobody lists may be told any place. -/
theorem settle (hroot : d ≠ a.root) (c : ClusterId) (v : LocalVertex) :
    (a.modify d (Cell.settle c v)).Linked := by
  have hall : ∀ k : Cell, (if k.id = d then k.settle c v else k).id = k.id
      ∧ (if k.id = d then k.settle c v else k).children = k.children := by
    intro k
    split <;> exact ⟨rfl, rfl⟩
  refine ⟨fun k hk w e hw k' hk' hid => ?_, fun k hk hid => ?_⟩
  · obtain ⟨m, hm, rfl⟩ := mem_modify.mp hk
    obtain ⟨m', hm', rfl⟩ := mem_modify.mp hk'
    rw [(hall m).2] at hw
    rw [(hall m').1] at hid
    have hne : m'.id ≠ d := fun he => hfree m hm w ((hid.symm.trans he) ▸ hw)
    rw [if_neg hne, (hall m).1]
    exact h.child m hm w e hw m' hm' hid
  · obtain ⟨m, hm, rfl⟩ := mem_modify.mp hk
    rw [(hall m).1] at hid
    have hne : m.id ≠ d := fun he => hroot (he.symm.trans hid)
    rw [if_neg hne]
    exact h.root m hm hid

/-- A cluster that nobody lists, and that lists none, may come in with any place. -/
theorem insert {k : Cell} (hid : k.id = d) (hleaf : k.children = []) (hroot : d ≠ a.root) :
    (a.insert k).Linked := by
  have hcases : ∀ {m}, m ∈ (a.insert k).cells → m = k ∨ m ∈ a.cells := fun hm =>
    (List.mem_cons.mp hm).imp_right (fun hold => (List.mem_filter.mp hold).1)
  refine ⟨fun m hm w e hw m' hm' he => ?_, fun m hm hr => ?_⟩
  · rcases hcases hm with rfl | hold
    · exact absurd (hleaf ▸ hw) List.not_mem_nil
    · rcases hcases hm' with rfl | hold'
      · exact absurd ((he.symm.trans hid) ▸ hw) (hfree m hold w)
      · exact h.child m hold w e hw m' hold' he
  · rcases hcases hm with rfl | hold
    · exact absurd (hid.symm.trans hr) hroot
    · exact h.root m hold hr

/-- A cluster that nobody lists may be listed where it says that it is. -/
theorem hang {v : LocalVertex}
    (hplace : ∀ k ∈ a.cells, k.id = d → k.parent = some c ∧ k.vertex = some v) :
    (a.modify c (Cell.hang v d)).Linked := by
  have hall : ∀ k : Cell, (if k.id = c then k.hang v d else k).id = k.id
      ∧ (if k.id = c then k.hang v d else k).parent = k.parent
      ∧ (if k.id = c then k.hang v d else k).vertex = k.vertex := by
    intro k
    split <;> exact ⟨rfl, rfl, rfl⟩
  refine ⟨fun k hk w e hw k' hk' hid => ?_, fun k hk hid => ?_⟩
  · obtain ⟨m, hm, rfl⟩ := mem_modify.mp hk
    obtain ⟨m', hm', rfl⟩ := mem_modify.mp hk'
    rw [(hall m').1] at hid
    rw [(hall m').2.1, (hall m').2.2, (hall m).1]
    have hold : (w, e) ∈ m.children ∨ (m.id = c ∧ w = v ∧ e = d) := by
      by_cases hm' : m.id = c
      · rw [if_pos hm'] at hw
        refine (ChildMap.mem_insert hw).imp_right (fun heq => ?_)
        exact ⟨hm', (Prod.mk.inj heq).1, (Prod.mk.inj heq).2⟩
      · rw [if_neg hm'] at hw
        exact Or.inl hw
    rcases hold with hw | ⟨rfl, rfl, rfl⟩
    · exact h.child m hm w e hw m' hm' hid
    · exact hplace m' hm' hid
  · obtain ⟨m, hm, rfl⟩ := mem_modify.mp hk
    rw [(hall m).1] at hid
    rw [(hall m).2.1, (hall m).2.2]
    exact h.root m hm hid

end Linked

/-! ## Without loose clusters -/

namespace Lays

variable (hl : a.Lays t)
include hl

theorem cells_eq : a.nodes = t.nodes := hl.nodes.trans (add_zero _)

theorem count : a.count = t.clusterCount := by
  have h := congrArg Multiset.card hl.cells_eq
  rw [Arena.nodes, Multiset.coe_card, List.length_map] at h
  rw [Arena.count, h, Tree.clusterCount, Tree.clusters, ← Multiset.coe_card, Branch.coe_clusters,
    Multiset.card_map]
  rfl

theorem isLive (c : ClusterId) : a.isLive c = t.isLive c := by
  have h := congrArg Option.isSome (hl.map_get? (c := c) (Multiset.notMem_zero c))
  rwa [Option.isSome_map, Option.isSome_map] at h

/-- A cluster says of its place what the tree does. -/
theorem place (c : ClusterId) : a.parent? c = t.parent? c ∧ a.vertex? c = t.vertex? c := by
  have hd := hl.distinct
  rw [Arena.parent?, Arena.vertex?, Tree.parent?, Tree.vertex?]
  cases hb : t.find? c with
  | none =>
      have hdead : c ∉ t.ids := fun hc => by
        obtain ⟨b, hb'⟩ := Tree.mem_ids_iff.mp hc
        cases hb.symm.trans hb'
      rw [hl.get?_eq_none hb (Multiset.notMem_zero c), Tree.place?, Tree.path_of_dead hdead]
      exact ⟨rfl, rfl⟩
  | some b =>
      obtain ⟨k, hget, hnode⟩ := hl.exists_get? hb
      obtain ⟨hk, hid⟩ := mem_of_get? hget
      rw [hget]
      by_cases hroot : c = t.root
      · obtain ⟨hparent, hvertex⟩ := hl.linked.root k hk (hid.trans (hroot.trans hl.root.symm))
        rw [hroot, Tree.place?, Tree.Distinct.path_root]
        exact ⟨hparent, hvertex⟩
      · obtain ⟨n, hn, v, hv⟩ := Tree.exists_parent (Tree.mem_ids_iff.mpr ⟨b, hb⟩) hroot
        obtain ⟨around, haround, rfl⟩ := hl.exists_cell hn
        obtain ⟨hparent, hvertex⟩ := hl.linked.child around haround v c hv k hk hid
        rw [Tree.place?, hd.path_child hn hv]
        exact ⟨hparent, hvertex⟩

/-- What is kept for a cluster is read off the tree. -/
theorem get? (c : ClusterId) : a.get? c = (t.find? c).map t.cell := by
  have hmap := hl.map_get? (c := c) (Multiset.notMem_zero c)
  obtain ⟨hparent, hvertex⟩ := hl.place c
  cases hb : t.find? c with
  | none => exact hl.get?_eq_none hb (Multiset.notMem_zero c)
  | some b =>
      obtain ⟨k, hget, hnode⟩ := hl.exists_get? hb
      rw [Arena.parent?, hget] at hparent
      rw [Arena.vertex?, hget] at hvertex
      obtain rfl := Tree.id_of_find? hb
      have hk : k = ⟨k.cluster, k.children, k.parent, k.vertex⟩ := rfl
      rw [hget, hk, show k.cluster = b.cluster from congrArg Node.cluster hnode,
        show k.children = b.inside.entries from congrArg Node.entries hnode,
        show k.parent = _ from hparent, show k.vertex = _ from hvertex]
      rfl

theorem require (c : ClusterId) : a.require c = t.cell <$> t.require c := by
  rw [Arena.require, Tree.require, hl.get?]
  cases t.find? c <;> rfl

theorem requireVertex (c : ClusterId) (v : LocalVertex) :
    a.requireVertex c v = t.cell <$> t.requireVertex c v := by
  rw [Arena.requireVertex, Tree.requireVertex, hl.require]
  cases hb : t.require c with
  | error e => rfl
  | ok b =>
      show (if b.cluster.storage.hasVertex v = true then _ else _) = _ <$> ite _ _ _
      split <;> rfl

theorem requireEdge (c : ClusterId) (e : LocalEdge) :
    a.requireEdge c e = t.cell <$> t.requireEdge c e := by
  rw [Arena.requireEdge, Tree.requireEdge, hl.require]
  cases hb : t.require c with
  | error e => rfl
  | ok b =>
      show (if b.cluster.storage.hasEdge e = true then _ else _) = _ <$> ite _ _ _
      split <;> rfl

theorem requireChildAt (c : ClusterId) (v : LocalVertex) :
    a.requireChildAt c v = t.requireChildAt c v := by
  rw [Arena.requireChildAt, hl.childAt? (Multiset.notMem_zero c)]
  rfl

omit hl in
/-- A child is listed where it hangs, on a vertex that resolves. -/
theorem listed_of_place (hs : t.Sound) {d : ClusterId} {p : Branch} {v : LocalVertex}
    (hb : t.find? p.cluster.id = some p) (hplace : t.place? d = some (p.cluster.id, v)) :
    ChildMap.get? p.inside.entries v = some d ∧ p.cluster.storage.hasVertex v = true := by
  have hp := hs.nodes _ (Tree.node_mem_of_find? hb)
  have hentry : (v, d) ∈ p.node.entries := by
    rw [← Tree.children_of_find? hb]
    exact hs.distinct.place?_eq_some_iff.mp hplace
  obtain ⟨x, hx, hid⟩ := Forest.branchAt?_of_mem_entries hp.keys hentry
  refine ⟨?_, hp.held _ hentry⟩
  rw [Forest.get?_entries, hx]
  exact congrArg some hid

/-- A child that is where it says is listed there. -/
theorem vertexOfChild (hs : t.Sound) (c child : ClusterId) :
    a.vertexOfChild c child = t.vertexOfChild c child := by
  rw [Arena.vertexOfChild, Tree.vertexOfChild, hl.require, hl.require]
  cases hb : t.find? c with
  | none => rw [Tree.require, hb]; rfl
  | some p =>
      rw [Tree.require_of_find? hb]
      cases hi : t.find? child with
      | none => rw [Tree.require, hi]; rfl
      | some inner =>
          rw [Tree.require_of_find? hi]
          obtain rfl := Tree.id_of_find? hi
          show (if t.parent? inner.cluster.id ≠ some c then _ else _ : Except Error LocalVertex) = _
          cases hplace : t.place? inner.cluster.id with
          | none => rw [Tree.parent?, hplace]; rfl
          | some place =>
              obtain ⟨q, v⟩ := place
              have hparent : t.parent? inner.cluster.id = some q := by
                rw [Tree.parent?, hplace]
                rfl
              have hvertex : t.vertex? inner.cluster.id = some v := by
                rw [Tree.vertex?, hplace]
                rfl
              by_cases hq : q = c
              · subst hq
                obtain rfl := Tree.id_of_find? hb
                obtain ⟨hlisted, hheld⟩ := listed_of_place hs hb hplace
                simp [hparent, Tree.cell, Cell.storage, hvertex, hlisted, hheld, bind, Except.bind]
              · have hne : t.parent? inner.cluster.id ≠ some c := by simpa [hparent] using hq
                rw [if_pos hne]
                exact (if_pos hq).symm

theorem links : a.links = t.links := by
  have hstorage : a.storage? = t.storage? :=
    funext fun c => hl.storage? (Multiset.notMem_zero c)
  have hids : a.childIds? = t.childIds? := funext fun c => hl.childIds? (Multiset.notMem_zero c)
  have hparent : a.parent? = t.parent? := funext fun c => (hl.place c).1
  have hvertex : a.vertex? = t.vertex? := funext fun c => (hl.place c).2
  rw [Arena.links, Tree.links, hstorage, hids, hparent, hvertex]

end Lays

/-! ## Changes of a tree -/

/-- Where the next number is not zero again, it is one more. -/
theorem toNat_succ {n : UInt64} (h : n + 1 ≠ 0) : (n + 1).toNat = n.toNat + 1 := by
  have hlt : n.toNat + 1 < 2 ^ 64 := by
    have hle := n.toNat_lt
    by_contra hge
    exact h (UInt64.toNat_inj.mp (by rw [UInt64.toNat_add]; simp; omega))
  rw [UInt64.toNat_add]
  exact Nat.mod_eq_of_lt hlt

/-- The arena without some clusters. -/
def without (a : Arena) (cs : List ClusterId) : Arena :=
  { a with cells := a.cells.filter (fun k => decide (k.id ∉ cs)) }

theorem mem_without {cs : List ClusterId} : k ∈ (a.without cs).cells ↔ k ∈ a.cells ∧ k.id ∉ cs := by
  rw [without, List.mem_filter, decide_eq_true_iff]

theorem nodes_without (a : Arena) (cs : List ClusterId) :
    (a.without cs).nodes = a.nodes.filter (fun n => n.id ∉ cs) := by
  rw [nodes, nodes, Multiset.filter_coe, without, List.filter_map]
  rfl

namespace Lays

/-- Loose clusters may go. -/
theorem without {loose : Multiset Node} (hl : a.Lays t loose) {cs : List ClusterId}
    (hcs : (cs : Multiset ClusterId) = loose.map Node.id) : (a.without cs).Lays t := by
  have hmem : ∀ n : Node, n.id ∈ cs ↔ n.id ∈ loose.map Node.id := fun n => by
    rw [← hcs, Multiset.mem_coe]
  have honce := hl.once
  rw [hl.nodes, Multiset.map_add, Multiset.nodup_add] at honce
  have hnodes : (a.without cs).nodes = t.nodes := by
    rw [nodes_without, hl.nodes, Multiset.filter_add, Multiset.filter_eq_self.mpr,
      Multiset.filter_eq_nil.mpr]
    · exact add_zero _
    · exact fun n hn hnot => hnot ((hmem n).mpr (Multiset.mem_map_of_mem Node.id hn))
    · exact fun n hn hin => Multiset.disjoint_left.mp honce.2.2
        (Multiset.mem_map_of_mem Node.id hn) ((hmem n).mp hin)
  have hcells : ∀ {k}, k ∈ (a.without cs).cells → k ∈ a.cells := fun hk => (mem_without.mp hk).1
  refine ⟨hl.config, hl.root, hl.next, hnodes.trans (add_zero _).symm, hnodes ▸ honce.1, ?_⟩
  exact ⟨fun k hk v d hv k' hk' => hl.linked.child k (hcells hk) v d hv k' (hcells hk'),
    fun k hk => hl.linked.root k (hcells hk)⟩

/-- A cluster may change in place. -/
theorem mapCluster (hl : a.Lays t loose) (hc : c ∉ loose.map Node.id) {f : Cluster → Cluster}
    (hf : ∀ k : Cluster, (f k).id = k.id) : (a.mapCluster c f).Lays (t.mapCluster c f) loose := by
  have hloose : loose.map (Node.changeAt c f) = loose := by
    refine (Multiset.map_congr rfl (fun n hn => ?_)).trans (Multiset.map_id loose)
    exact Node.changeAt_of_ne f (fun he => hc (he ▸ Multiset.mem_map_of_mem Node.id hn))
  have hnodes : (a.mapCluster c f).nodes = a.nodes.map (Node.changeAt c f) :=
    nodes_modify (g := fun n => ⟨f n.cluster, n.entries⟩) (fun _ => rfl) a c
  refine ⟨hl.config, hl.root.trans (Tree.root_mapCluster t c hf).symm, hl.next, ?_,
    once_modify (fun k => (Cell.stays_mapCluster hf k).id) c hl.once,
    hl.linked.modify (Cell.stays_mapCluster hf) c⟩
  rw [hnodes, hl.nodes, Multiset.map_add, hloose, hl.distinct.nodes_mapCluster c hf]

theorem mapStorage (hl : a.Lays t loose) (hc : c ∉ loose.map Node.id) (f : Storage → Storage) :
    (a.mapStorage c f).Lays (t.mapStorage c f) loose :=
  hl.mapCluster hc (f := fun k => { k with storage := f k.storage }) (fun _ => rfl)

theorem mark (hl : a.Lays t loose) (hc : c ∉ loose.map Node.id) :
    (a.mark c).Lays (t.mark c) loose := by
  rw [Arena.mark, hl.config]
  exact hl.mapCluster hc (Cluster.id_mark t.config)

variable {v : LocalVertex} {x : Branch}

/-- What hangs on a vertex that is cut off becomes loose. -/
theorem cut (hl : a.Lays t) (hb : t.find? c = some b) (hkeys : (b.inside.entries.map Prod.fst).Nodup)
    (v : LocalVertex) :
    (a.modify c (Cell.cut v)).Lays (t.cutAt c v) (nestedNodes (b.inside.branchAt? v)) := by
  obtain rfl := Tree.id_of_find? hb
  obtain ⟨rest, hrest⟩ := Tree.nodes_cons_of_mem (Tree.node_mem_of_find? hb)
  obtain ⟨rest', rfl, hnodes⟩ := hl.distinct.nodes_cutAt hrest hkeys v hb
  refine ⟨hl.config, hl.root.trans (Tree.root_cutAt t _ v).symm, hl.next, ?_,
    once_modify (fun k => (Cell.stays_cut v k).id) _ hl.once, hl.linked.modify (Cell.stays_cut v) _⟩
  refine Eq.trans ?_ (congrArg (· + nestedNodes (b.inside.branchAt? v)) hnodes).symm
  rw [Multiset.cons_add, add_comm rest']
  exact nodes_modify_cons (g := Node.cut v) (fun _ => rfl) hl.once (hl.cells_eq.trans hrest)

section Loose

variable (hl : a.Lays t x.nodes)
include hl

/-- A loose cluster is listed nowhere. -/
theorem free : ∀ k ∈ a.cells, ∀ w, (w, x.cluster.id) ∉ k.children := by
  intro k hk w hw
  have honce := hl.once
  rw [hl.nodes, Multiset.map_add, Multiset.nodup_add] at honce
  have hn : k.node ∈ t.nodes + x.nodes := hl.nodes ▸ mem_nodes.mpr ⟨k, hk, rfl⟩
  -- Listed by a cluster of the tree it would be one of the tree; listed by a loose one it
  -- would be inside itself.
  rcases Multiset.mem_add.mp hn with hn | hn
  · exact Multiset.disjoint_left.mp honce.2.2 (Tree.Distinct.child_live hn hw) x.mem_ids_self
  · have hnodup : x.ids.Nodup := honce.2.1
    rw [Branch.ids_eq, Multiset.nodup_cons] at hnodup
    exact hnodup.1 (Tree.Distinct.child_mem (t := ⟨t.config, 0, x⟩) hn hw)

theorem ne_of_loose (hb : t.find? c = some b) : c ≠ x.cluster.id := by
  rintro rfl
  have honce := hl.once
  rw [hl.nodes, Multiset.map_add, Multiset.nodup_add] at honce
  exact Multiset.disjoint_left.mp honce.2.2 (Tree.mem_ids_iff.mpr ⟨b, hb⟩) x.mem_ids_self

/-- A loose cluster may be told any place. -/
theorem settle (c : ClusterId) (v : LocalVertex) :
    (a.modify x.cluster.id (Cell.settle c v)).Lays t x.nodes := by
  have hroot : x.cluster.id ≠ a.root := by
    have hne := hl.ne_of_loose (show t.find? t.root = some t.top from if_pos rfl)
    exact fun he => hne (hl.root.symm.trans he.symm)
  have hnodes : (a.modify x.cluster.id (Cell.settle c v)).nodes = a.nodes := by
    refine (nodes_modify (f := Cell.settle c v) (g := fun n => n) (fun _ => rfl) a _).trans ?_
    exact (Multiset.map_congr rfl (fun n _ => ite_self n)).trans (Multiset.map_id a.nodes)
  exact ⟨hl.config, hl.root, hl.next, hnodes.trans hl.nodes, hnodes ▸ hl.once,
    hl.linked.settle hl.free hroot c v⟩

/-- A loose branch is listed where its cluster says that it is. -/
theorem hang (hb : t.find? c = some b) (hkeys : v ∉ b.inside.entries.map Prod.fst)
    (hplace : ∀ k ∈ a.cells, k.id = x.cluster.id → k.parent = some c ∧ k.vertex = some v) :
    (a.modify c (Cell.hang v x.cluster.id)).Lays (t.graft c v x) := by
  obtain rfl := Tree.id_of_find? hb
  obtain ⟨rest, hrest⟩ := Tree.nodes_cons_of_mem (Tree.node_mem_of_find? hb)
  have hroot : (t.graft b.cluster.id v x).root = t.root := Tree.root_update (fun _ hb => hb)
  have hcells : a.nodes = b.node ::ₘ (rest + x.nodes) := by
    rw [hl.nodes, hrest, Multiset.cons_add]
  have hgraft : b.node.graft v x.cluster.id
      = ⟨b.cluster, ChildMap.insert b.inside.entries v x.cluster.id⟩ := by
    rw [ChildMap.insert_of_notMem hkeys]
    rfl
  refine ⟨hl.config, hl.root.trans hroot.symm, hl.next, ?_,
    once_modify (f := Cell.hang v x.cluster.id) (fun _ => rfl) _ hl.once,
    hl.linked.hang hl.free hplace⟩
  refine Eq.trans ?_ ((add_zero _).trans (hl.distinct.nodes_graft hrest v x)).symm
  rw [hgraft, add_comm x.nodes]
  exact nodes_modify_cons (g := fun n => ⟨n.cluster, ChildMap.insert n.entries v x.cluster.id⟩)
    (fun _ => rfl) hl.once hcells

/-- A loose branch is listed, and then its cluster is told where. -/
theorem graft (hb : t.find? c = some b) (hkeys : v ∉ b.inside.entries.map Prod.fst) :
    ((a.modify c (Cell.hang v x.cluster.id)).modify x.cluster.id (Cell.settle c v)).Lays
      (t.graft c v x) := by
  have hne := hl.ne_of_loose hb
  -- The parent lists the child before the child is told, and in between the links are
  -- broken.  The two writes touch different clusters, so they may be swapped.
  have hcomm : (a.modify c (Cell.hang v x.cluster.id)).modify x.cluster.id (Cell.settle c v)
      = (a.modify x.cluster.id (Cell.settle c v)).modify c (Cell.hang v x.cluster.id) := by
    simp only [modify, List.map_map, Arena.mk.injEq, true_and, and_true]
    refine List.map_congr_left (fun k _ => ?_)
    by_cases hc : k.id = c <;> by_cases hx : k.id = x.cluster.id
    · exact absurd (hc.symm.trans hx) hne
    · have hid : (k.hang v x.cluster.id).id = k.id := rfl
      simp [hc, hid, hne]
    · have hid : (k.settle c v).id = k.id := rfl
      simp [hx, hid, hne.symm]
    · simp [hc, hx]
  rw [hcomm]
  refine (hl.settle c v).hang hb hkeys (fun k hk hid => ?_)
  obtain ⟨m, -, rfl⟩ := mem_modify.mp hk
  have hm : m.id = x.cluster.id := by
    by_contra hm
    rw [if_neg hm] at hid
    exact hm hid
  rw [if_pos hm]
  exact ⟨rfl, rfl⟩

end Loose

/-- A new cluster is loose until it is listed. -/
theorem alloc (hl : a.Lays t) (hbound : ∀ d ∈ t.ids, d.id < t.nextClusterId)
    (hroom : a.next + 1 ≠ 0) {k : Cell} (hid : k.id = ⟨a.next.toNat⟩) (hleaf : k.children = []) :
    { a.insert k with next := a.next + 1 }.Lays { t with nextClusterId := t.nextClusterId + 1 }
      (Branch.nodes ⟨k.cluster, .nil⟩) := by
  have hnew : k.id ∉ t.ids := fun hmem => by
    have hlt := hbound _ hmem
    rw [hid, hl.next] at hlt
    exact Nat.lt_irrefl _ hlt
  -- The number is above all that are in use, so no cluster is replaced.
  have hothers : a.cells.filter (fun other => decide (other.id ≠ k.id)) = a.cells := by
    refine List.filter_eq_self.mpr (fun other hother => decide_eq_true (fun he => hnew ?_))
    rw [← he, Tree.ids, ← hl.cells_eq]
    exact Multiset.mem_map_of_mem Node.id (mem_nodes.mpr ⟨other, hother, rfl⟩)
  have hnodes : (a.insert k).nodes = k.node ::ₘ a.nodes := by
    rw [Arena.nodes, show (a.insert k).cells = k :: a.cells from congrArg (k :: ·) hothers]
    rfl
  have hnode : Branch.nodes ⟨k.cluster, .nil⟩ = {k.node} := by
    rw [Cell.node, hleaf]
    rfl
  have hfree : ∀ other ∈ a.cells, ∀ w, (w, k.id) ∉ other.children := fun other hother w hw => by
    have hn : other.node ∈ t.nodes := hl.cells_eq ▸ mem_nodes.mpr ⟨other, hother, rfl⟩
    exact hnew (Tree.Distinct.child_live hn hw)
  have hroot : k.id ≠ a.root := fun he => hnew (he ▸ hl.root ▸ t.root_mem_ids)
  have hlinked : (a.insert k).Linked := hl.linked.insert hfree rfl hleaf hroot
  refine ⟨hl.config, hl.root, (toNat_succ hroom).trans (congrArg (· + 1) hl.next), ?_, ?_,
    hlinked.child, hlinked.root⟩
  · exact hnodes.trans (by rw [hl.cells_eq, hnode, ← Multiset.singleton_add, add_comm]; rfl)
  · show ((a.insert k).nodes.map Node.id).Nodup
    rw [hnodes, Multiset.map_cons, Multiset.nodup_cons, hl.cells_eq]
    exact ⟨hnew, hl.distinct⟩

/-- A new cluster says where it is going to hang, and may be listed there. -/
theorem adopt (hl : a.Lays t) (hbound : ∀ d ∈ t.ids, d.id < t.nextClusterId)
    (hroom : a.next + 1 ≠ 0) (hb : t.find? c = some b) (hkeys : v ∉ b.inside.entries.map Prod.fst) :
    let child : ClusterId := ⟨t.nextClusterId⟩
    let grown : Arena :=
      { a.insert ⟨a.config.newCluster child, [], some c, some v⟩ with next := a.next + 1 }
    let started : Tree := { t with nextClusterId := t.nextClusterId + 1 }
    grown.Lays started (Branch.nodes ⟨t.config.newCluster child, .nil⟩)
      ∧ (grown.modify c (Cell.hang v child)).Lays
        (started.graft c v ⟨t.config.newCluster child, .nil⟩) := by
  intro child grown started
  have hid : (⟨a.next.toNat⟩ : ClusterId) = child := congrArg ClusterId.mk hl.next
  have hgrown : grown.Lays started (Branch.nodes ⟨t.config.newCluster child, .nil⟩) := by
    rw [← hl.config]
    exact hl.alloc hbound hroom (k := ⟨a.config.newCluster child, [], some c, some v⟩) hid.symm rfl
  refine ⟨hgrown, hgrown.hang (x := ⟨t.config.newCluster child, .nil⟩) hb hkeys
    (fun k hk hkid => ?_)⟩
  -- No other cluster has the id.
  rcases List.mem_cons.mp hk with rfl | hold
  · exact ⟨rfl, rfl⟩
  · exact absurd hkid (of_decide_eq_true (List.mem_filter.mp hold).2)

/-- All that is inside a cluster that is emptied becomes loose. -/
theorem clear (hl : a.Lays t) (hb : t.find? c = some b) :
    (a.modify c Cell.clear).Lays (t.update c (fun b => ⟨b.cluster.cleared, .nil⟩)) b.inside.nodes := by
  obtain rfl := Tree.id_of_find? hb
  obtain ⟨rest, hrest⟩ := Tree.nodes_cons_of_mem (Tree.node_mem_of_find? hb)
  have hroot : (t.update b.cluster.id (fun b => ⟨b.cluster.cleared, .nil⟩)).root = t.root :=
    Tree.root_update (fun _ hb => hb)
  obtain ⟨around, rfl, -, hnodes⟩ := hl.distinct.nodes_update hrest hb
    (fun b => ⟨b.cluster.cleared, .nil⟩) rfl
  refine ⟨hl.config, hl.root.trans hroot.symm, hl.next, ?_,
    once_modify (f := Cell.clear) (fun _ => rfl) _ hl.once,
    hl.linked.modify (f := Cell.clear) (fun k => ⟨rfl, List.nil_subset _, rfl, rfl⟩) _⟩
  refine Eq.trans ?_ (congrArg (· + b.inside.nodes) hnodes).symm
  refine (nodes_modify_cons (f := Cell.clear) (g := fun n => ⟨n.cluster.cleared, []⟩)
    (fun _ => rfl) hl.once (hl.cells_eq.trans hrest)).trans ?_
  rw [add_comm b.inside.nodes around, ← Multiset.cons_add]
  rfl

end Lays

theorem without_modify {f : Cell → Cell} (hf : ∀ k, (f k).id = k.id) (a : Arena) (c : ClusterId)
    (cs : List ClusterId) : (a.modify c f).without cs = (a.without cs).modify c f := by
  have hid : ∀ k : Cell, (if k.id = c then f k else k).id = k.id := fun k => by
    split
    · exact hf k
    · rfl
  simp only [without, modify, List.filter_map, Function.comp_def, hid]

end Arena

end NestedGraph
