import NestedGraph.Arena.Attributes
import NestedGraph.Proofs.Jobs
import NestedGraph.Proofs.Stepwise

/-! # Writing — attributes in an arena

    A key resolves in an arena to what it resolves to in the tree, a record
    is the one in the tree, and what is written goes to the same place.
    Layouts decide in both about what may be read and written. -/

namespace NestedGraph

theorem Graph.settled_bind {α : Type} (g : Graph) (r : Except Error α) (k : α → Except Error Tree) :
    g.settled <$> (r >>= k) = r >>= fun a => g.settled <$> k a := by
  cases r <;> rfl

namespace Job

/-! ## What is read -/

section Reading

variable {d : Desk} {t : Tree} (hl : d.arena.Lays t)
include hl

theorem vertexRecord_run (c : ClusterId) (v : LocalVertex) :
    vertexRecord c v d = .ok (t.vertexRecord c v, d) := by
  rw [vertexRecord, Tree.vertexRecord]
  refine bind_of_reads (cell_run hl c) (fun b _ => ?_)
  dsimp only [Tree.cell, Cell.storage]
  cases b.cluster.storage.vertex? v <;> rfl

theorem edgeRecord_run (c : ClusterId) (e : LocalEdge) :
    edgeRecord c e d = .ok (t.edgeRecord c e, d) := by
  rw [edgeRecord, Tree.edgeRecord]
  refine bind_of_reads (cell_run hl c) (fun b _ => ?_)
  dsimp only [Tree.cell, Cell.storage]
  cases b.cluster.storage.edgeRecord? e <;> rfl

/-- A key resolves to what it resolves to in the tree. -/
theorem resolve_run (hs : t.Sound) (c : ClusterId) (key : AttributeKey) :
    resolve c key d = .ok (t.resolve c key, d) := by
  cases key with
  | localVertex v =>
      rw [resolve, Tree.resolve]
      exact bind_of_reads (requireVertex_run hl c v) (fun _ _ => rfl)
  | localEdge e =>
      have hlook : look (fun a => a.requireEdge c e) d = .ok (t.cell <$> t.requireEdge c e, d) := by
        rw [look_run, hl.requireEdge]
      rw [resolve, Tree.resolve]
      exact bind_of_reads hlook (fun _ _ => rfl)
  | globalVertex global =>
      rw [resolve, Tree.resolve]
      refine bind_of_reads (cell_run hl c) (fun b hb => ?_)
      have howner := vertexOwner_run hl hs c global
      rw [Tree.vertexOwner?, Tree.of_require hb, Option.bind_some] at howner
      refine (bind_of_ok howner).trans ?_
      cases b.vertexOwner? global <;> rfl
  | globalEdge global =>
      rw [resolve, Tree.resolve]
      refine bind_of_reads (cell_run hl c) (fun b hb => ?_)
      have howner := edgeOwner_run hl hs c global
      rw [Tree.edgeOwner?, Tree.of_require hb, Option.bind_some] at howner
      refine (bind_of_ok howner).trans ?_
      cases b.edgeOwner? global <;> rfl

end Reading

/-! ## What is written -/

section Writing

variable {d : Desk} {g : Graph} (hl : d.arena.Lays g.tree) (hids : d.ids = g.ids)
include hl hids

theorem mapCluster_meets (c : ClusterId) {f : Cluster → Cluster}
    (hf : ∀ k : Cluster, (f k).id = k.id) :
    Meets (edit (fun a => a.mapCluster c f)) d (.ok (g.settled (g.tree.mapCluster c f))) :=
  ⟨_, hids ▸ rfl, hl.mapCluster (Multiset.notMem_zero c) hf⟩

theorem mapStorage_meets (c : ClusterId) (f : Storage → Storage) :
    Meets (edit (fun a => a.mapStorage c f)) d (.ok (g.settled (g.tree.mapStorage c f))) :=
  mapCluster_meets hl hids c (f := fun k => { k with storage := f k.storage }) (fun _ => rfl)

theorem setChanged_meets (c : ClusterId) :
    Meets (setChanged c) d (g.settled <$> g.tree.setChanged c) := by
  rw [setChanged, Tree.setChanged, Graph.settled_bind]
  exact Meets.bind_map (cell_run hl c) (fun b _ => ⟨_, hids ▸ rfl, hl.mark (Multiset.notMem_zero c)⟩)

theorem setCopyMode_meets (c : ClusterId) (on : Bool) :
    Meets (setCopyMode c on) d (g.settled <$> g.tree.setCopyMode c on) := by
  rw [setCopyMode, rewrite, Tree.setCopyMode, Graph.settled_bind]
  exact Meets.bind_map (cell_run hl c) (fun b _ => mapCluster_meets hl hids c (fun _ => rfl))

theorem setClusterProperty_meets (type : AttributeType) (c : ClusterId) (value : Value) :
    Meets (setClusterProperty type c value) d (g.settled <$> g.tree.setClusterProperty type c value) := by
  rw [setClusterProperty, Tree.setClusterProperty, Graph.settled_bind]
  refine Meets.bind_ok (config_run hl) (Meets.bind_map (cell_run hl c) (fun b _ => ?_))
  rw [Graph.settled_bind]
  exact Meets.bind rfl (fun properties _ => mapCluster_meets hl hids c (fun _ => rfl))

theorem setSubclusterProperty_meets (type : AttributeType) (c : ClusterId) (v : LocalVertex)
    (value : Value) : Meets (setSubclusterProperty type c v value) d
      (g.settled <$> g.tree.setSubclusterProperty type c v value) := by
  rw [setSubclusterProperty, Tree.setSubclusterProperty, Graph.settled_bind]
  exact Meets.bind (requireChildAt_run hl c v)
    (fun child _ => setClusterProperty_meets hl hids type child value)

variable (hs : g.tree.Sound)
include hs

theorem setProperty_meets (type : AttributeType) (c : ClusterId) (key : AttributeKey)
    (value : Value) :
    Meets (setProperty type c key value) d (g.settled <$> g.tree.setProperty type c key value) := by
  rw [setProperty, Tree.setProperty, Graph.settled_bind]
  refine Meets.bind_ok (config_run hl) (Meets.bind (resolve_run hl hs c key) (fun place _ => ?_))
  cases place with
  | vertex owner v =>
      rw [Graph.settled_bind]
      refine Meets.bind (vertexRecord_run hl owner v) (fun record _ => ?_)
      rw [Graph.settled_bind]
      exact Meets.bind rfl (fun properties _ => mapStorage_meets hl hids owner _)
  | edge owner e global =>
      rw [Graph.settled_bind]
      refine Meets.bind (edgeRecord_run hl owner e) (fun record _ => ?_)
      rw [Graph.settled_bind]
      exact Meets.bind rfl (fun properties _ => mapStorage_meets hl hids owner _)

theorem writeObject_meets (type : AttributeType) (c : ClusterId) (key : AttributeKey)
    (object : Option TypedObject) :
    Meets (writeObject type c key object) d (g.settled <$> g.tree.writeObject type c key object) := by
  rw [writeObject, Tree.writeObject, Graph.settled_bind]
  refine Meets.bind_ok (config_run hl) (Meets.bind (resolve_run hl hs c key) (fun place _ => ?_))
  cases place with
  | vertex owner v =>
      rw [Graph.settled_bind]
      refine Meets.bind (vertexRecord_run hl owner v) (fun record _ => ?_)
      rw [Graph.settled_bind]
      exact Meets.bind rfl (fun objects _ => mapStorage_meets hl hids owner _)
  | edge owner e global =>
      rw [Graph.settled_bind]
      refine Meets.bind (edgeRecord_run hl owner e) (fun record _ => ?_)
      rw [Graph.settled_bind]
      refine Meets.bind rfl (fun edge _ => ?_)
      rw [Graph.settled_bind]
      exact Meets.bind rfl (fun objects _ => mapStorage_meets hl hids owner _)

end Writing

end Job

end NestedGraph
