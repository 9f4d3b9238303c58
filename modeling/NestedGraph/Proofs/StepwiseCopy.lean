import NestedGraph.Proofs.Stepwise
import NestedGraph.Proofs.Transplant

/-! # Stepwise copies — a copy that is made piece by piece

    A copy empties its destination and then adds a vertex, an edge or a
    cluster at a time.  Each cluster of it hangs in the tree before
    anything is in it.  On sound trees none of these steps fails, and
    together they come to the content replaced at once. -/

namespace NestedGraph

namespace Session

/-- The session with another tree, and after some objects were made. -/
def reach (s : Session) (t : Tree) (serial : Nat) : Session :=
  { s with graph := ⟨t, s.graph.ids⟩, serial := serial }

@[simp] theorem tree_reach (s : Session) (t : Tree) (serial : Nat) :
    (s.reach t serial).graph.tree = t := rfl

end Session

/-! ## At once -/

namespace Graph

variable {σ : Type} {g target : Graph} {c into : ClusterId}

theorem copyInto_of_error {e : Error} (h : g.tree.copyable c target.tree into = .error e)
    (cloner : Cloner σ) (state : σ) : g.copyInto c target into cloner state = (.error e, state) := by
  rw [copyInto, h]
  rfl

theorem copyInto_of_ok {branch place : Branch}
    (h : g.tree.copyable c target.tree into = .ok (branch, place)) (cloner : Cloner σ) (state : σ) :
    g.copyInto c target into cloner state
      = (.ok ⟨(target.tree.replaceContent cloner place branch state).1,
          target.ids.raise g.ids.count⟩,
        (target.tree.replaceContent cloner place branch state).2) := by
  rw [copyInto, h]
  rfl

end Graph

/-! ## Branches hung in while a tree grows -/

namespace Forest

@[simp] theorem append_nil (f : Forest) : f.append nil = f := by
  induction f with
  | nil => rfl
  | cons v k inside rest _ ih => rw [append, ih]

theorem append_assoc (f g h : Forest) : (f.append g).append h = f.append (g.append h) := by
  induction f with
  | nil => rfl
  | cons v k inside rest _ ih => rw [append, append, append, ih]

theorem update_append (c : ClusterId) (change : Branch → Branch) (f other : Forest) :
    (f.append other).update c change = (f.update c change).append (other.update c change) := by
  induction f with
  | nil => rfl
  | cons v k inside rest _ ih =>
      by_cases hk : k.id = c
      · rw [append, update, update, if_pos hk, if_pos hk, ih]
        rfl
      · rw [append, update, update, if_neg hk, if_neg hk, ih]
        rfl

theorem eq_nil_of_entries {f : Forest} (h : f.entries = []) : f = nil := by
  cases f with
  | nil => rfl
  | cons v k inside rest => exact nomatch h

/-- A branch that was hung in may be changed before. -/
theorem update_graft {f : Forest} {c : ClusterId} {x : Branch} {w : LocalVertex}
    {change : Branch → Branch} (h : x.cluster.id ∉ f.ids) :
    (f.update c (fun b => { b with inside := b.inside.append (single w x) })).update x.cluster.id
        change
      = f.update c (fun b => { b with inside := b.inside.append (single w (change x)) }) := by
  have hsingle : (single w x).update x.cluster.id change = single w (change x) := if_pos rfl
  induction f with
  | nil => rfl
  | cons v k inside rest ihInside ihRest =>
      rw [ids_cons, Multiset.mem_cons, Multiset.mem_add, not_or, not_or] at h
      obtain ⟨hk, hin, hr⟩ := h
      have hk : ¬ k.id = x.cluster.id := fun he => hk he.symm
      by_cases hkc : k.id = c
      · rw [update, if_pos hkc]
        dsimp only
        rw [update, if_neg hk, update_append, update_of_notMem _ hin, hsingle, ihRest hr, update,
          if_pos hkc]
      · rw [update, if_neg hkc, update, if_neg hk, ihInside hin, ihRest hr, update, if_neg hkc]

end Forest

namespace Tree

variable {t : Tree} {c : ClusterId} {b x : Branch} {w : LocalVertex}

/-- A branch that was hung in may be changed before. -/
theorem update_graft (h : x.cluster.id ∉ t.ids) (change : Branch → Branch) :
    (t.graft c w x).update x.cluster.id change = t.graft c w (change x) := by
  rw [ids_eq, Multiset.mem_cons, not_or] at h
  have hroot : ¬ t.top.cluster.id = x.cluster.id := fun he => h.1 he.symm
  have hsingle : (Forest.single w x).update x.cluster.id change = .single w (change x) := if_pos rfl
  have htop : (t.top.update c (fun b =>
        { b with inside := b.inside.append (.single w x) })).update x.cluster.id change
      = t.top.update c (fun b =>
        { b with inside := b.inside.append (.single w (change x)) }) := by
    by_cases hroot' : t.top.cluster.id = c
    · have hat : ∀ f : Branch → Branch, t.top.update c f = f t.top := fun f => if_pos hroot'
      have hin : ∀ inside, Branch.update x.cluster.id change ⟨t.top.cluster, inside⟩
          = ⟨t.top.cluster, inside.update x.cluster.id change⟩ := fun inside => if_neg hroot
      rw [hat, hat, hin, Forest.update_append, Forest.update_of_notMem _ h.2, hsingle]
    · have hat : ∀ f : Branch → Branch, t.top.update c f
          = ⟨t.top.cluster, t.top.inside.update c f⟩ := fun f => if_neg hroot'
      have hin : ∀ inside, Branch.update x.cluster.id change ⟨t.top.cluster, inside⟩
          = ⟨t.top.cluster, inside.update x.cluster.id change⟩ := fun inside => if_neg hroot
      rw [hat, hat, hin, Forest.update_graft h.2]
  exact congrArg (fun top => ({ t with top := top } : Tree)) htop

theorem Distinct.ids_graft (hd : t.Distinct) (hc : c ∈ t.ids) (w : LocalVertex) (x : Branch) :
    (t.graft c w x).ids = x.ids + t.ids := by
  obtain ⟨n, hn, rfl⟩ := Multiset.mem_map.mp hc
  obtain ⟨rest, hrest⟩ := nodes_cons_of_mem hn
  rw [ids, ids, hd.nodes_graft hrest, hrest]
  simp [Multiset.map_add, Branch.ids]

theorem Distinct.graft (hd : t.Distinct) (hc : c ∈ t.ids) (w : LocalVertex)
    (hx : x.ids.Nodup) (hnew : ∀ d ∈ x.ids, d ∉ t.ids) : (t.graft c w x).Distinct := by
  rw [Distinct, hd.ids_graft hc, Multiset.nodup_add]
  exact ⟨hx, hd, Multiset.disjoint_left.mpr (fun {d} hd => hnew d hd)⟩

/-- An empty cluster that was hung in is found. -/
theorem Distinct.find?_graft {k : Cluster} (hd : t.Distinct) (hc : c ∈ t.ids) (w : LocalVertex)
    (h : k.id ∉ t.ids) : (t.graft c w ⟨k, .nil⟩).find? k.id = some ⟨k, .nil⟩ := by
  have hids : Branch.ids ⟨k, .nil⟩ = {k.id} := rfl
  have hd' : (t.graft c w ⟨k, .nil⟩).Distinct := by
    refine hd.graft hc w (hids ▸ Multiset.nodup_singleton _) (fun d hmem => ?_)
    rw [hids, Multiset.mem_singleton] at hmem
    exact hmem ▸ h
  obtain ⟨n, hn, rfl⟩ := Multiset.mem_map.mp hc
  obtain ⟨rest, hrest⟩ := nodes_cons_of_mem hn
  have hmem : Branch.node ⟨k, .nil⟩ ∈ (t.graft n.id w ⟨k, .nil⟩).nodes := by
    rw [hd.nodes_graft hrest]
    exact Multiset.mem_cons_of_mem (Multiset.mem_add.mpr (Or.inl (Branch.node_mem_nodes _)))
  obtain ⟨y, hy, hnode⟩ := hd'.find?_of_mem hmem
  have hcluster : y.cluster = k := congrArg Node.cluster hnode
  have hinside : y.inside = .nil := Forest.eq_nil_of_entries (congrArg Node.entries hnode)
  obtain ⟨k', inside⟩ := y
  obtain rfl : k' = k := hcluster
  obtain rfl : inside = .nil := hinside
  exact hy

end Tree

namespace Act

variable {s : Session} {t : Tree} {c into : ClusterId} {b : Branch}

/-! ## Content of one cluster -/

section Content

variable (cloner : Cloner Nat)

theorem clone_run {α : Type} (x : StateM Nat α) (serial : Nat) :
    clone x (s.reach t serial) = (.ok (x serial).1, s.reach t (x serial).2) := rfl

/-- Vertices copied one by one are copied. -/
theorem copyVertices_run (hb : t.find? into = some b) (st : Storage) (serial : Nat)
    (entries : List (LocalVertex × VertexRecord)) :
    copyVertices cloner into entries (s.reach (t.mapStorage into (fun _ => st)) serial)
      = (.ok (cloneVertices cloner st entries serial).1.2,
        s.reach (t.mapStorage into (fun _ => (cloneVertices cloner st entries serial).1.1))
          (cloneVertices cloner st entries serial).2) := by
  induction entries generalizing st serial with
  | nil => rfl
  | cons entry rest ih =>
      obtain ⟨v, r⟩ := entry
      let copy : VertexRecord := { r with objects := (cloneSlots cloner r.objects serial).1 }
      let serial' := (cloneSlots cloner r.objects serial).2
      have hfind := Tree.find?_mapStorage_self hb (fun _ => st)
      have hbring := bringIn_run (s := s.reach (t.mapStorage into (fun _ => st)) serial') hfind copy
        none
      have htree : (t.mapStorage into (fun _ => st)).receive into copy none
          = t.mapStorage into (fun _ => st.addVertex copy) :=
        Tree.mapStorage_mapStorage t into (fun _ => st) (fun st => st.addVertex copy)
      rw [Session.tree_reach, htree] at hbring
      rw [copyVertices, bind_of_ok (clone_run _ serial), bind_of_ok hbring]
      exact bind_of_ok (ih (st.addVertex copy) serial')

/-- Edges copied one by one are copied. -/
theorem copyEdges_run (hb : t.find? into = some b) {names : Renaming} (st : Storage)
    (serial : Nat) (hnames : ∀ v w, names.handle? v = some w → st.hasVertex w = true)
    (links : List Link) :
    copyEdges cloner into names links (s.reach (t.mapStorage into (fun _ => st)) serial)
      = (.ok (), s.reach (t.mapStorage into (fun _ => (cloneEdges cloner names st links serial).1))
          (cloneEdges cloner names st links serial).2) := by
  induction links generalizing st serial with
  | nil => rfl
  | cons l rest ih =>
      cases hfirst : names.handle? l.first with
      | none =>
          rw [copyEdges, cloneEdges, hfirst]
          exact ih st serial hnames
      | some v =>
          cases hsecond : names.handle? l.second with
          | none =>
              rw [copyEdges, cloneEdges, hfirst, hsecond]
              exact ih st serial hnames
          | some w =>
              let copy : EdgeRecord :=
                { l.record with carried := (cloneCarried cloner l.record.carried serial).1 }
              let serial' := (cloneCarried cloner l.record.carried serial).2
              have hfind := Tree.find?_mapStorage_self hb (fun _ => st)
              have hlive : (st.hasVertex v && st.hasVertex w) = true := by
                rw [hnames _ _ hfirst, hnames _ _ hsecond]
                rfl
              have hedit : (t.mapStorage into (fun _ => st)).mapStorage into (fun st =>
                  st.addEdge v w copy) = t.mapStorage into (fun _ => st.addEdge v w copy) :=
                Tree.mapStorage_mapStorage ..
              have hrest := ih (st.addEdge v w copy) serial' (fun v w h => hnames v w h)
              have hclone : cloneEdges cloner names st (l :: rest) serial
                  = cloneEdges cloner names (st.addEdge v w copy) rest serial' := by
                rw [cloneEdges, hfirst, hsecond]
                rfl
              have hnot : ¬ (!((b.mapStorage fun _ => st).cluster.storage.hasVertex v
                  && (b.mapStorage fun _ => st).cluster.storage.hasVertex w)) = true := by
                show ¬ (!(st.hasVertex v && st.hasVertex w)) = true
                rw [hlive]
                exact Bool.false_ne_true
              rw [copyEdges, hfirst, hsecond]
              dsimp only
              rw [bind_of_ok (clone_run _ serial),
                bind_of_ok (look_of_ok (Tree.require_of_find? hfind)), if_neg hnot, hclone, ← hrest,
                ← hedit]
              exact bind_of_ok (edit_run _)

theorem vertices_cloneEdges {names : Renaming} (st : Storage) (links : List Link) (serial : Nat) :
    (cloneEdges cloner names st links serial).1.vertices = st.vertices := by
  induction links generalizing st serial with
  | nil => rfl
  | cons l rest ih =>
      cases hfirst : names.handle? l.first with
      | none =>
          rw [cloneEdges, hfirst]
          exact ih st serial
      | some v =>
          cases hsecond : names.handle? l.second with
          | none =>
              rw [cloneEdges, hfirst, hsecond]
              exact ih st serial
          | some w =>
              rw [cloneEdges, hfirst, hsecond]
              exact ih (st.addEdge ..) _

/-- A cluster without content gets the content of another. -/
theorem copyContent_run (hd : t.Distinct) (hb : t.find? into = some b)
    (hblank : b.cluster.storage.Blank) {source : Cluster} (hs : source.storage.Sound)
    (serial : Nat) {out : (Storage × Renaming) × Nat}
    (hout : cloneStorage cloner source.storage b.cluster.storage serial = out) :
    copyContent cloner source into (s.reach t serial) = (.ok out.1.2, s.reach
      (t.mapCluster into (fun k =>
        { k with storage := out.1.1, properties := source.properties })) out.2) := by
  obtain ⟨hcopies, -⟩ := cloneStorage_spec cloner hs hblank serial
  let t' := t.mapCluster into (fun k => { k with properties := source.properties })
  have hid : b.cluster.id = into := Tree.id_of_find? hb
  have hb' : t'.find? into
      = some ⟨{ b.cluster with properties := source.properties }, b.inside⟩ :=
    Tree.find?_update_self hb hid
  have hfill : ∀ st, t'.mapStorage into (fun _ => st) = t.mapCluster into (fun k =>
      { k with storage := st, properties := source.properties }) := fun st =>
    Tree.update_update
      (f := fun b => { b with cluster := { b.cluster with properties := source.properties } })
      (g := fun b => b.mapStorage (fun _ => st)) (fun _ hx => hx) t
  -- The runs over vertices and edges are said of a storage that is put in place;
  -- the properties are written first, so the cluster is put in place with them.
  have hsame : t'.mapStorage into (fun _ => b.cluster.storage) = t' :=
    (hfill _).trans (hd.update_congr hb rfl)
  have hvertices := copyVertices_run (s := s) cloner hb' b.cluster.storage serial
    source.storage.vertices.entries
  rw [hsame] at hvertices
  generalize hfilled : cloneVertices cloner b.cluster.storage source.storage.vertices.entries serial
    = filled at hvertices
  obtain ⟨⟨st, names⟩, serial'⟩ := filled
  have hrun : cloneStorage cloner source.storage b.cluster.storage serial
      = (((cloneEdges cloner names st source.storage.edges.values serial').1, names),
        (cloneEdges cloner names st source.storage.edges.values serial').2) := by
    show (match cloneVertices cloner b.cluster.storage source.storage.vertices.entries serial with
      | ((st, names), serial') =>
        (((cloneEdges cloner names st source.storage.edges.values serial').1, names),
          (cloneEdges cloner names st source.storage.edges.values serial').2)) = _
    rw [hfilled]
  rw [hrun] at hcopies
  have hnames : ∀ v w, names.handle? v = some w → st.hasVertex w = true := by
    intro v w hv
    obtain ⟨-, r, -, hr, -⟩ := hcopies.vertex hv
    rw [Storage.vertex?, vertices_cloneEdges] at hr
    exact Storage.hasVertex_iff.mpr ⟨r, hr⟩
  have hedges := copyEdges_run (s := s) cloner hb' st serial' hnames source.storage.edges.values
  rw [hfill, hfill] at hedges
  rw [hfill] at hvertices
  obtain rfl := hrun.symm.trans hout
  rw [copyContent, bind_of_ok (look_of_ok (Tree.require_of_find? hb)), bind_of_ok (edit_run _)]
  refine (bind_of_ok hvertices).trans ?_
  exact bind_of_ok hedges

end Content

/-! ## What is inside a cluster -/

end Act

/-- Clusters have distinct ids, and the ids from the next one on are
    free. -/
structure Tree.Roomy (t : Tree) : Prop where
  distinct : t.Distinct
  bound : ∀ c ∈ t.ids, c.id < t.nextClusterId

theorem Tree.Sound.roomy {t : Tree} (hs : t.Sound) : t.Roomy := ⟨hs.distinct, hs.bound⟩

/-- A branch with new ids leaves the ids after them free. -/
theorem Tree.Roomy.graft {t : Tree} (h : t.Roomy) {c : ClusterId} (hc : c ∈ t.ids)
    (w : LocalVertex) {x : Branch} {next : Nat} (hle : t.nextClusterId ≤ next) (hx : x.ids.Nodup)
    (hnew : ∀ d ∈ x.ids, t.nextClusterId ≤ d.id ∧ d.id < next) :
    Tree.Roomy { t.graft c w x with nextClusterId := next } := by
  have hgraft : (t.graft c w x).Distinct := by
    refine h.distinct.graft hc w hx (fun d hd hold => ?_)
    have h1 := (hnew d hd).1
    have h2 := h.bound d hold
    omega
  refine ⟨hgraft, fun d hd => ?_⟩
  have hd : d ∈ (t.graft c w x).ids := hd
  rw [h.distinct.ids_graft hc, Multiset.mem_add] at hd
  rcases hd with hd | hd
  · exact (hnew d hd).2
  · exact Nat.lt_of_lt_of_le (h.bound d hd) hle

/-- A branch that was hung in may be changed before. -/
theorem Tree.Roomy.update_graft {t : Tree} (h : t.Roomy) {c : ClusterId} {k : Cluster}
    (hk : k.id = ⟨t.nextClusterId⟩) (hc : c ∈ t.ids) (w : LocalVertex) (change : Branch → Branch) :
    (t.graft c w ⟨k, .nil⟩).find? k.id = some ⟨k, .nil⟩
      ∧ (t.graft c w ⟨k, .nil⟩).update k.id change = t.graft c w (change ⟨k, .nil⟩) := by
  have hnew : k.id ∉ t.ids := by
    intro hmem
    have hlt := h.bound _ hmem
    rw [hk] at hlt
    exact Nat.lt_irrefl _ hlt
  exact ⟨h.distinct.find?_graft hc w hnew, Tree.update_graft (x := ⟨k, .nil⟩) hnew change⟩

/-- The tree with a forest added to what is inside a cluster, and with
    another next id. -/
def Tree.hang (t : Tree) (c : ClusterId) (f : Forest) (next : Nat) : Tree where
  config := t.config
  nextClusterId := next
  top := t.top.update c (fun b => { b with inside := b.inside.append f })

theorem Tree.hang_nil (t : Tree) (c : ClusterId) : t.hang c .nil t.nextClusterId = t :=
  update_self (fun b => by rw [Forest.append_nil]) t

theorem Tree.hang_hang (t : Tree) (c : ClusterId) (f f' : Forest) (next next' : Nat) :
    (t.hang c f next).hang c f' next' = t.hang c (f.append f') next' := by
  have htwo := update_update (c := c) (f := fun b => { b with inside := b.inside.append f })
    (g := fun b => { b with inside := b.inside.append f' }) (fun _ hx => hx) t
  have htop := congrArg Tree.top htwo
  refine congrArg (Tree.mk t.config next') (htop.trans ?_)
  refine congrArg (fun change => t.top.update c change) (funext fun b => ?_)
  rw [Forest.append_assoc]

/-- A new cluster with others inside it leaves the ids after them free. -/
theorem Tree.Roomy.hang_single {t : Tree} (h : t.Roomy) {c : ClusterId} (hc : c ∈ t.ids)
    (w : LocalVertex) {k : Cluster} (hk : k.id = ⟨t.nextClusterId⟩) {inside : Forest} {next : Nat}
    (hle : t.nextClusterId + 1 ≤ next) (hinside : inside.ids.Nodup)
    (hnew : ∀ d ∈ inside.ids, t.nextClusterId + 1 ≤ d.id ∧ d.id < next) :
    (t.hang c (.single w ⟨k, inside⟩) next).Roomy := by
  refine h.graft hc w (x := ⟨k, inside⟩) (by omega) ?_ ?_
  · rw [Branch.ids_eq, Multiset.nodup_cons, hk]
    refine ⟨fun hd => ?_, hinside⟩
    have hself : t.nextClusterId + 1 ≤ t.nextClusterId := (hnew _ hd).1
    omega
  · intro d hd
    rw [Branch.ids_eq, Multiset.mem_cons, hk] at hd
    rcases hd with rfl | hd
    · show t.nextClusterId ≤ t.nextClusterId ∧ t.nextClusterId < next
      omega
    · obtain ⟨hfrom, hto⟩ := hnew d hd
      exact ⟨by omega, hto⟩

/-- A new cluster without content leaves the ids after it free. -/
theorem Tree.Roomy.hang_leaf {t : Tree} (h : t.Roomy) {c : ClusterId} (hc : c ∈ t.ids)
    (w : LocalVertex) {k : Cluster} (hk : k.id = ⟨t.nextClusterId⟩) :
    (t.hang c (.single w ⟨k, .nil⟩) (t.nextClusterId + 1)).Roomy :=
  h.hang_single hc w hk (Nat.le_refl _) Multiset.nodup_zero
    (fun d hd => absurd hd (Multiset.notMem_zero d))

/-- What is added inside a new cluster may be there before it is hung in. -/
theorem Tree.Roomy.hang_inside {t : Tree} (h : t.Roomy) {c : ClusterId} (hc : c ∈ t.ids)
    (w : LocalVertex) {k : Cluster} (hk : k.id = ⟨t.nextClusterId⟩) (f : Forest) (next : Nat) :
    (t.hang c (.single w ⟨k, .nil⟩) (t.nextClusterId + 1)).hang k.id f next
      = t.hang c (.single w ⟨k, f⟩) next := by
  have hup := (h.update_graft hk hc w (fun b => { b with inside := b.inside.append f })).2
  exact congrArg (fun t' : Tree => ({ t' with nextClusterId := next } : Tree)) hup

/-- What hanging a new cluster in, and then a forest inside it, comes to. -/
structure Tree.Adopts (t : Tree) (c : ClusterId) (b : Branch) (w : LocalVertex) (k : Cluster)
    (inside : Forest) (next : Nat) : Prop where
  /-- The cluster is there before anything is inside it. -/
  leaf : (t.hang c (.single w ⟨k, .nil⟩) (t.nextClusterId + 1)).find? k.id = some ⟨k, .nil⟩
  leafRoomy : (t.hang c (.single w ⟨k, .nil⟩) (t.nextClusterId + 1)).Roomy
  /-- It does not matter which of the two hangs in the other first. -/
  whole : (t.hang c (.single w ⟨k, .nil⟩) (t.nextClusterId + 1)).hang k.id inside next
    = t.hang c (.single w ⟨k, inside⟩) next
  roomy : (t.hang c (.single w ⟨k, inside⟩) next).Roomy
  around : (t.hang c (.single w ⟨k, inside⟩) next).find? c
    = some { b with inside := b.inside.append (.single w ⟨k, inside⟩) }

theorem Tree.Roomy.adopts {t : Tree} (h : t.Roomy) {c : ClusterId} {b : Branch}
    (hb : t.find? c = some b) (w : LocalVertex) {k : Cluster} (hk : k.id = ⟨t.nextClusterId⟩)
    {inside : Forest} {next : Nat} (hle : t.nextClusterId + 1 ≤ next) (hinside : inside.ids.Nodup)
    (hnew : ∀ d ∈ inside.ids, t.nextClusterId + 1 ≤ d.id ∧ d.id < next) :
    t.Adopts c b w k inside next := by
  have hc : c ∈ t.ids := Tree.mem_ids_iff.mpr ⟨b, hb⟩
  have hid : b.cluster.id = c := Tree.id_of_find? hb
  exact {
    leaf := (h.update_graft hk hc w id).1
    leafRoomy := h.hang_leaf hc w hk
    whole := h.hang_inside hc w hk inside next
    roomy := h.hang_single hc w hk hle hinside hnew
    around := Tree.find?_update_self (g := fun b =>
      { b with inside := b.inside.append (.single w ⟨k, inside⟩) }) hb hid }

/-! ## Another branch in place of one -/

namespace Tree

/-- The tree with another branch in place of that of a cluster. -/
def withBranch (t : Tree) (b : Branch) : Tree := t.update b.cluster.id (fun _ => b)

variable {t : Tree} {b x : Branch}

theorem update_withBranch (t : Tree) (b : Branch) (change : Branch → Branch)
    (h : (change b).cluster.id = b.cluster.id) :
    (t.withBranch b).update b.cluster.id change = t.withBranch (change b) := by
  rw [withBranch, withBranch, h]
  exact update_update (fun _ _ => rfl) t

theorem find?_withBranch (h : t.find? b.cluster.id = some x) :
    (t.withBranch b).find? b.cluster.id = some b := find?_update_self h rfl

theorem Roomy.withBranch (ht : t.Roomy) (h : t.find? b.cluster.id = some x) (hle : b.ids ≤ x.ids) :
    (t.withBranch b).Roomy := by
  obtain ⟨around, hnodes, hnew⟩ := ht.distinct.exists_around h
  have hids : (t.withBranch b).ids ≤ t.ids := by
    rw [ids, ids, hnodes, show (t.withBranch b).nodes = _ from hnew (fun _ => b) rfl,
      Multiset.map_add, Multiset.map_add]
    exact Multiset.add_le_add_right hle
  exact ⟨Multiset.nodup_of_le hids ht.distinct,
    fun c hc => ht.bound c (Multiset.mem_of_le hids hc)⟩

/-- What is hung into a branch that was put in place may be inside it before. -/
theorem hang_withBranch (t : Tree) (b : Branch) (f : Forest) (next : Nat) :
    (t.withBranch b).hang b.cluster.id f next
      = Tree.withBranch { t with nextClusterId := next } { b with inside := b.inside.append f } :=
  congrArg (fun t : Tree => ({ t with nextClusterId := next } : Tree))
    (update_withBranch t b (fun b => { b with inside := b.inside.append f }) rfl)

section Emptied

variable (hs : t.Sound) (hb : t.find? b.cluster.id = some b)
include hs hb

/-- An emptied cluster is put in place once the edges into it are out. -/
theorem Sound.emptied_withBranch : t.emptied b
    = (t.withdrawAbove (GlobalEdge.touches b.globals) b.cluster.id).withBranch
      ⟨b.cluster.cleared, .nil⟩ :=
  (hs.withdrawAbove _ _).distinct.update_congr (hs.distinct.find?_withdrawAbove _ hb) rfl

/-- There is room for what comes into a cluster that lost everything. -/
theorem Sound.roomy_bare (p : GlobalEdge → Bool) {k : Cluster} (hk : k.id = b.cluster.id) :
    ((t.withdrawAbove p b.cluster.id).withBranch ⟨k, .nil⟩).Roomy := by
  have hfind : (t.withdrawAbove p b.cluster.id).find? k.id = some b := by
    rw [hk]
    exact hs.distinct.find?_withdrawAbove p hb
  refine (hs.withdrawAbove p b.cluster.id).roomy.withBranch (b := ⟨k, .nil⟩) hfind ?_
  show (k.id ::ₘ 0 : Multiset ClusterId) ≤ _
  rw [Branch.ids_eq, hk]
  exact Multiset.cons_le_cons _ (Multiset.zero_le _)

end Emptied

end Tree

namespace Act

variable {s : Session} {t : Tree} {into : ClusterId} {b : Branch}

/-- A cluster that was just hung in gets the content of another. -/
theorem copyContent_hang (cloner : Cloner Nat) (ht : t.Roomy) (hmem : into ∈ t.ids)
    (w : LocalVertex) {source : Cluster} (hs : source.storage.Sound) {serial serial' : Nat}
    {storage : Storage} {names : Renaming}
    (hout : cloneStorage cloner source.storage .empty serial = ((storage, names), serial')) :
    copyContent cloner source ⟨t.nextClusterId⟩ (s.reach (t.hang into
        (.single w ⟨t.config.newCluster ⟨t.nextClusterId⟩, .nil⟩) (t.nextClusterId + 1)) serial)
      = (.ok names, s.reach (t.hang into
        (.single w ⟨⟨⟨t.nextClusterId⟩, storage, source.properties, false⟩, .nil⟩)
          (t.nextClusterId + 1)) serial') := by
  let fresh := t.config.newCluster ⟨t.nextClusterId⟩
  let hung := t.hang into (.single w ⟨fresh, .nil⟩) (t.nextClusterId + 1)
  have hfind : hung.find? fresh.id = some ⟨fresh, .nil⟩ :=
    (ht.update_graft (k := fresh) rfl hmem w id).1
  have hcontent := copyContent_run (s := s) cloner (ht.hang_leaf hmem w rfl).distinct hfind
    Storage.blank_empty hs serial hout
  have hup := (ht.update_graft (k := fresh) rfl hmem w (fun b =>
    { b with cluster := { b.cluster with storage := storage, properties := source.properties } })).2
  have hfill := congrArg (fun t' : Tree =>
    ({ t' with nextClusterId := t.nextClusterId + 1 } : Tree)) hup
  exact hcontent.trans (congrArg (fun t' => (Except.ok names, s.reach t' serial')) hfill)

/-- A forest copied cluster by cluster is hung in as a whole. -/
theorem copyInside_run (cloner : Cloner Nat) {config : Config} {f : Forest}
    (hf : ∀ n ∈ f.nodes, n.Sound config) {names : Renaming}
    (hnames : ∀ e ∈ f.entries, ∃ w, names.handle? e.1 = some w) (ht : t.Roomy)
    (hb : t.find? into = some b) (serial : Nat) {out : (Forest × Nat) × Nat}
    (hout : f.clone cloner names t.nextClusterId serial = out) :
    copyInside cloner names into f (s.reach t serial)
      = (.ok (), s.reach (t.hang into out.1.1 out.1.2) out.2) := by
  induction f generalizing names t into b serial out with
  | nil =>
      obtain rfl := hout
      show _ = (Except.ok (), s.reach (t.hang into .nil t.nextClusterId) serial)
      rw [Tree.hang_nil]
      rfl
  | cons v k inside rest ihInside ihRest =>
      obtain ⟨hk, hin, hin'⟩ := Forest.forall_nodes_cons.mp hf
      have hstored : k.storage.Sound := hk.storage
      have hmem : into ∈ t.ids := Tree.mem_ids_iff.mpr ⟨b, hb⟩
      obtain ⟨w, storage, inner, serial1, inside', next', serial2, rest', next'', serial3, hw,
        hstorage, hcopies, hinside, hgrows, hrest, -, hclone⟩ :=
        Forest.exists_clone_cons cloner hk hin hin' hnames t.nextClusterId serial
      obtain rfl := hclone.symm.trans hout
      have hinner : ∀ e ∈ inside.entries, ∃ w, inner.handle? e.1 = some w :=
        fun e he => hcopies.exists_handle? (hk.held e he)
      -- The new cluster hangs in the tree before it has content.
      let child : ClusterId := ⟨t.nextClusterId⟩
      let copy : Cluster := ⟨child, storage, k.properties, false⟩
      let started : Tree := { t with nextClusterId := t.nextClusterId + 1 }
      let hung : Tree := t.hang into (.single w ⟨t.config.newCluster child, .nil⟩)
        (t.nextClusterId + 1)
      have hadopts : t.Adopts into b w copy inside' next' :=
        ht.adopts hb w rfl hgrows.later hgrows.distinct hgrows.bound
      have hallocate : allocate (s.reach t serial) = (.ok child, s.reach started serial) := rfl
      have hfind : (s.reach started serial).graph.tree.find? into = some b := hb
      have hgraft : edit (fun t => t.graft into w ⟨t.config.newCluster child, .nil⟩)
          (s.reach started serial) = (.ok (), s.reach hung serial) := rfl
      have hcontent := copyContent_hang (s := s) cloner ht hmem w hstored hstorage
      have hinto := ihInside hin hinner hadopts.leafRoomy hadopts.leaf serial1 hinside
      rw [hadopts.whole] at hinto
      -- The rest of the forest hangs beside it.
      have hlast := ihRest hin' (fun e he => hnames e (List.mem_cons_of_mem _ he)) hadopts.roomy
        hadopts.around serial2 hrest
      rw [Tree.hang_hang] at hlast
      rw [copyInside, hw]
      refine (bind_of_ok hallocate).trans ?_
      refine (bind_of_ok (look_of_ok (Tree.require_of_find? hfind))).trans ?_
      refine (bind_of_ok hgraft).trans ?_
      refine (bind_of_ok hcontent).trans ?_
      refine (bind_of_ok hinto).trans ?_
      exact hlast

/-! ## Whole copies -/

theorem setCopyMode_run {c : ClusterId} (hb : s.graph.tree.find? c = some b) (on : Bool) :
    setCopyMode c on s = (.ok (), s.withTree
      (s.graph.tree.mapCluster c (fun k => { k with copyMode := on }))) := by
  rw [setCopyMode, bind_of_ok (look_of_ok (Tree.require_of_find? hb)), edit_run]

/-- A copy that is refused changes nothing. -/
theorem copyInto_of_error (cloner : Cloner Nat) {source : Graph} {c into : ClusterId} {e : Error}
    (h : source.tree.copyable c s.graph.tree into = .error e) :
    copyInto cloner source c into s = (.error e, s) := by
  rw [copyInto, bind_of_error (look_of_error h)]

/-! ### Steps on the branch that is replaced -/

section Replaced

variable {t : Tree} {b x : Branch}

theorem setCopyMode_withBranch (s : Session) (hb : t.find? b.cluster.id = some x) (on : Bool)
    (serial : Nat) :
    setCopyMode b.cluster.id on (s.reach (t.withBranch b) serial)
      = (.ok (), s.reach (t.withBranch { b with
          cluster := { b.cluster with copyMode := on } }) serial) := by
  have hmode := Tree.update_withBranch t b (fun b =>
    { b with cluster := { b.cluster with copyMode := on } }) rfl
  have hrun := setCopyMode_run (s := s.reach (t.withBranch b) serial) (Tree.find?_withBranch hb) on
  exact hrun.trans (congrArg (fun t => (Except.ok (), s.reach t serial)) hmode)

theorem copyContent_withBranch (s : Session) (cloner : Cloner Nat) {source : Cluster}
    (hs : source.storage.Sound) (hb : t.find? b.cluster.id = some x) (hd : (t.withBranch b).Distinct)
    (hblank : b.cluster.storage.Blank) (serial : Nat) {storage : Storage} {names : Renaming}
    {serial' : Nat}
    (hout : cloneStorage cloner source.storage b.cluster.storage serial
      = ((storage, names), serial')) :
    copyContent cloner source b.cluster.id (s.reach (t.withBranch b) serial)
      = (.ok names, s.reach (t.withBranch { b with cluster :=
          { b.cluster with storage := storage, properties := source.properties } }) serial') := by
  have hfill := Tree.update_withBranch t b (fun b => { b with cluster :=
    { b.cluster with storage := storage, properties := source.properties } }) rfl
  have hrun := copyContent_run (s := s) cloner hd (Tree.find?_withBranch hb) hblank hs serial hout
  exact hrun.trans (congrArg (fun t => (Except.ok names, s.reach t serial')) hfill)

theorem copyInside_withBranch (s : Session) (cloner : Cloner Nat) {config : Config} {f : Forest}
    (hf : ∀ n ∈ f.nodes, n.Sound config) {names : Renaming}
    (hnames : ∀ e ∈ f.entries, ∃ w, names.handle? e.1 = some w)
    (hb : t.find? b.cluster.id = some x) (hroom : (t.withBranch b).Roomy) (serial : Nat)
    {inside : Forest} {next serial' : Nat}
    (hout : f.clone cloner names t.nextClusterId serial = ((inside, next), serial')) :
    copyInside cloner names b.cluster.id f (s.reach (t.withBranch b) serial)
      = (.ok (), s.reach (Tree.withBranch { t with nextClusterId := next }
          { b with inside := b.inside.append inside }) serial') := by
  have hrun := copyInside_run (s := s) cloner hf hnames hroom (Tree.find?_withBranch hb) serial hout
  rwa [Tree.hang_withBranch] at hrun

/-- Content and what is inside, copied into a cluster without any, go
    through. -/
theorem copyAll_withBranch (s : Session) (cloner : Cloner Nat) {config : Config} {source : Branch}
    (hnodes : ∀ n ∈ source.nodes, n.Sound config) {k : Cluster} (hb : t.find? k.id = some x)
    (hroom : ∀ k' : Cluster, k'.id = k.id → (t.withBranch ⟨k', .nil⟩).Roomy)
    (hblank : k.storage.Blank) {serial serial1 serial2 next : Nat} {storage : Storage}
    {names : Renaming} {inside : Forest}
    (hstorage : cloneStorage cloner source.cluster.storage k.storage serial
      = ((storage, names), serial1))
    (hinside : source.inside.clone cloner names t.nextClusterId serial1
      = ((inside, next), serial2)) :
    attempt (do
        let names ← copyContent cloner source.cluster k.id
        copyInside cloner names k.id source.inside) (s.reach (t.withBranch ⟨k, .nil⟩) serial)
      = (.ok (.ok ()), s.reach (Tree.withBranch { t with nextClusterId := next }
          ⟨{ k with storage := storage, properties := source.cluster.properties }, inside⟩)
        serial2) := by
  have hnode : source.node.Sound config := hnodes _ source.node_mem_nodes
  have hstored : source.cluster.storage.Sound := hnode.storage
  obtain ⟨hcopies, -⟩ := cloneStorage_spec cloner hstored hblank serial
  rw [hstorage] at hcopies
  have hinner : ∀ e ∈ source.inside.entries, ∃ w, names.handle? e.1 = some w := fun e he =>
    hcopies.exists_handle? (hnode.held e he)
  let filled : Branch :=
    ⟨{ k with storage := storage, properties := source.cluster.properties }, .nil⟩
  have hcontent : copyContent cloner source.cluster k.id (s.reach (t.withBranch ⟨k, .nil⟩) serial)
      = (.ok names, s.reach (t.withBranch filled) serial1) :=
    copyContent_withBranch s cloner hstored (b := ⟨k, .nil⟩) hb (hroom k rfl).distinct hblank
      serial hstorage
  have hnested := copyInside_withBranch s cloner
    (fun n hn => hnodes n (Multiset.mem_cons_of_mem hn)) hinner (b := filled) hb
    (hroom filled.cluster rfl) serial1 hinside
  have hboth := (bind_of_ok (f := fun names => copyInside cloner names k.id source.inside)
    hcontent).trans hnested
  rw [attempt, hboth]
  rfl

end Replaced

/-- A copy that is not refused replaces the content of the cluster at
    once. -/
theorem copyInto_of_ok (cloner : Cloner Nat) {source : Graph} (hs : source.tree.Sound)
    (ht : s.graph.tree.Sound) {c into : ClusterId} {branch place : Branch}
    (h : source.tree.copyable c s.graph.tree into = .ok (branch, place)) {t : Tree} {serial : Nat}
    (hout : s.graph.tree.replaceContent cloner place branch s.serial = (t, serial)) :
    copyInto cloner source c into s
      = (.ok (), { s with graph := ⟨t, s.graph.ids.raise source.ids.count⟩, serial := serial }) := by
  obtain ⟨-, hbranch, hplace, -⟩ := Tree.of_copyable h
  obtain rfl := Tree.id_of_find? hplace
  generalize hstorage : cloneStorage cloner branch.cluster.storage place.cluster.cleared.storage
    s.serial = out1
  obtain ⟨⟨storage, names⟩, serial1⟩ := out1
  generalize hinside : branch.inside.clone cloner names s.graph.tree.nextClusterId serial1 = out2
  obtain ⟨⟨inside, next⟩, serial2⟩ := out2
  rw [Tree.replaceContent_eq, Branch.clone_of cloner hstorage hinside] at hout
  obtain ⟨rfl, rfl⟩ := Prod.mk.inj hout
  let around := s.graph.tree.withdrawAbove (GlobalEdge.touches place.globals) place.cluster.id
  have hfind : around.find? place.cluster.id = some place :=
    ht.distinct.find?_withdrawAbove _ hplace
  have hnext : around.nextClusterId = s.graph.tree.nextClusterId :=
    Tree.nextClusterId_withdrawAbove ..
  have hroom : ∀ k : Cluster, k.id = place.cluster.id → (around.withBranch ⟨k, .nil⟩).Roomy :=
    fun _ hk => ht.roomy_bare hplace _ hk
  -- What stands in place of the branch, from step to step.
  let emptied : Branch := ⟨place.cluster.cleared, .nil⟩
  let opened : Branch := ⟨{ emptied.cluster with copyMode := true }, .nil⟩
  let nested : Branch := ⟨{ opened.cluster with
    storage := storage, properties := branch.cluster.properties }, inside⟩
  let base := s.withGraph ⟨s.graph.tree, s.graph.ids.raise source.ids.count⟩
  have hraise : raiseIds source.ids.count (s.withTree (s.graph.tree.emptied place))
      = (.ok (), base.reach (around.withBranch emptied) s.serial) := by
    have hempty : s.graph.tree.emptied place = around.withBranch emptied := ht.emptied_withBranch hplace
    rw [← hempty]
    rfl
  have hopen : setCopyMode place.cluster.id true (base.reach (around.withBranch emptied) s.serial)
      = (.ok (), base.reach (around.withBranch opened) s.serial) :=
    setCopyMode_withBranch base (b := emptied) hfind true s.serial
  let grown : Tree := { around with nextClusterId := next }
  have hwork : attempt (do
        let names ← copyContent cloner branch.cluster place.cluster.id
        copyInside cloner names place.cluster.id branch.inside)
      (base.reach (around.withBranch opened) s.serial)
      = (.ok (.ok ()), base.reach (grown.withBranch nested) serial2) :=
    copyAll_withBranch base cloner (hs.of_find? hbranch) (k := opened.cluster) hfind hroom
      (Storage.blank_clear _) hstorage (hnext.symm ▸ hinside)
  have hclose : setCopyMode place.cluster.id place.cluster.copyMode
      (base.reach (grown.withBranch nested) serial2)
      = (.ok (), base.reach (grown.withBranch ⟨{ nested.cluster with
          copyMode := place.cluster.copyMode }, inside⟩) serial2) :=
    setCopyMode_withBranch base (t := grown) (b := nested) hfind place.cluster.copyMode serial2
  rw [copyInto, bind_of_ok (look_of_ok h)]
  dsimp only
  rw [bind_of_ok (edit_run _), bind_of_ok hraise, bind_of_ok hopen, bind_of_ok hwork,
    bind_of_ok hclose]
  rfl

/-- A copy made piece by piece comes to what it comes to at once. -/
theorem copyInto_eq (cloner : Cloner Nat) {source : Graph} (hs : source.tree.Sound)
    (ht : s.graph.tree.Sound) (c into : ClusterId) :
    copyInto cloner source c into s
      = match source.copyInto c s.graph into cloner s.serial with
        | (.ok g, serial) => (.ok (), { s with graph := g, serial := serial })
        | (.error e, serial) => (.error e, { s with serial := serial }) := by
  cases h : source.tree.copyable c s.graph.tree into with
  | error e => rw [copyInto_of_error cloner h, Graph.copyInto_of_error h]
  | ok branches =>
      obtain ⟨branch, place⟩ := branches
      generalize hout : s.graph.tree.replaceContent cloner place branch s.serial = out
      obtain ⟨t, serial⟩ := out
      rw [copyInto_of_ok cloner hs ht h hout, Graph.copyInto_of_ok h, hout]

end Act

end NestedGraph
