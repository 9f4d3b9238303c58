import NestedGraph.Proofs.Runs
import NestedGraph.Proofs.Keeping

/-! # Indices — vertices and edges numbered by slot

    The entities of a store are RANKED by slot: the rank of an entity is how
    many stand before it, and free slots do not count.  To number them goes
    from handle to handle and writes one slot of values each time.  That
    comes to changing each entity by its rank, all at once and in place, so
    what is no index is read as before, and to number again changes
    nothing. -/

namespace NestedGraph

/-! ## Changes by rank -/

namespace SlotStore

variable {entity : Entity} {α β : Type} {s : SlotStore entity α} {f : Nat → α → α}
  {h : Handle entity}
  {k : Nat} {a : α}

/-- The entities in slots, each changed by its rank, which is `k` for the first
    of them. -/
def rankFrom (f : Nat → α → α) (k : Nat) : List (Option α) → List (Option α)
  | [] => []
  | some a :: rest => some (f k a) :: rankFrom f (k + 1) rest
  | none :: rest => none :: rankFrom f k rest

/-- The store with each entity changed by its rank. -/
def ranked (f : Nat → α → α) (s : SlotStore entity α) : SlotStore entity α :=
  { s with slots := rankFrom f 0 s.slots }

/-- The entities of the handles, in this order, are changed by the numbers from
    `k` on. -/
def modifyFrom (f : Nat → α → α) (k : Nat) (s : SlotStore entity α) :
    List (Handle entity) → SlotStore entity α
  | [] => s
  | h :: rest => (s.modify h (f k)).modifyFrom f (k + 1) rest

/-- To go from handle to handle changes each entity by its rank. -/
theorem modifyFrom_handles (f : Nat → α → α) (s : SlotStore entity α) :
    s.modifyFrom f 0 s.handles = s.ranked f := by
  -- The slots before those that are left hold what was changed, and are not touched again.
  have hrest : ∀ (rest done : List (Option α)) (k : Nat),
      ({ s with slots := done ++ rest } : SlotStore entity α).modifyFrom f k
          ((filledFrom done.length rest).map (fun entry => s.handleAt entry.1))
        = { s with slots := done ++ rankFrom f k rest } := by
    intro rest
    induction rest with
    | nil => exact fun _ _ => rfl
    | cons slot rest ih =>
        intro done k
        cases slot with
        | none =>
            have hnext := ih (done ++ [none]) k
            rwa [List.length_append, List.append_assoc, List.append_assoc] at hnext
        | some a =>
            have hget : ({ s with slots := done ++ some a :: rest } : SlotStore entity α).get?
                (s.handleAt done.length) = some a := by
              refine get?_eq_some_iff.mpr ⟨rfl, ?_⟩
              show (done ++ some a :: rest)[done.length]? = _
              rw [List.getElem?_append_right (Nat.le_refl _), Nat.sub_self]
              rfl
            have hmodify : ({ s with slots := done ++ some a :: rest } : SlotStore entity α).modify
                (s.handleAt done.length) (f k)
                = { s with slots := (done ++ [some (f k a)]) ++ rest } := by
              rw [modify, hget]
              show ({ s with slots := (done ++ some a :: rest).set done.length (some (f k a)) }
                : SlotStore entity α) = _
              rw [List.set_append_right _ _ (Nat.le_refl _), Nat.sub_self, List.append_assoc]
              rfl
            have hnext := ih (done ++ [some (f k a)]) (k + 1)
            rw [List.length_append, List.append_assoc _ _ (rankFrom f (k + 1) rest)] at hnext
            rw [filledFrom, List.map_cons, modifyFrom, hmodify]
            exact hnext
  have hall := hrest s.slots [] 0
  rw [handles, entries, List.map_map]
  exact hall

/-- Each entity is in the slot where it was. -/
theorem getElem?_entries_ranked (f : Nat → α → α) (s : SlotStore entity α) (i : Nat) :
    (s.ranked f).entries[i]? = s.entries[i]?.map (fun entry => (entry.1, f i entry.2)) := by
  have hfilled : ∀ (slots : List (Option α)) (n k j : Nat),
      (filledFrom n (rankFrom f k slots))[j]?
        = (filledFrom n slots)[j]?.map (fun entry => (entry.1, f (k + j) entry.2)) := by
    intro slots
    induction slots with
    | nil => exact fun _ _ _ => rfl
    | cons slot rest ih =>
        intro n k j
        cases slot with
        | none => exact ih (n + 1) k j
        | some a =>
            cases j with
            | zero => rfl
            | succ j =>
                have hnext := ih (n + 1) (k + 1) j
                rwa [Nat.add_assoc, Nat.add_comm 1 j] at hnext
  have hall := hfilled s.slots 0 0 i
  rw [Nat.zero_add] at hall
  rw [entries, entries, List.getElem?_map, List.getElem?_map, Option.map_map]
  show (filledFrom 0 (rankFrom f 0 s.slots))[i]?.map _ = _
  rw [hall, Option.map_map]
  rfl

theorem exists_entry (hk : s.handles[k]? = some h) : ∃ a, s.entries[k]? = some (h, a) := by
  rw [handles, List.getElem?_map] at hk
  obtain ⟨⟨_, a⟩, ha, rfl⟩ := Option.map_eq_some_iff.mp hk
  exact ⟨a, ha⟩

/-- What resolves has a rank. -/
theorem exists_rank (ha : s.get? h = some a) : ∃ k : Nat, s.handles[k]? = some h :=
  List.mem_iff_getElem?.mp (mem_handles.mpr ⟨a, ha⟩)

theorem get?_ranked (f : Nat → α → α) (hk : s.handles[k]? = some h) :
    (s.ranked f).get? h = (s.get? h).map (f k) := by
  obtain ⟨a, ha⟩ := exists_entry hk
  have hget : s.get? h = some a := mem_entries.mp (List.mem_of_getElem? ha)
  have hentry : (s.ranked f).entries[k]? = some (h, f k a) := by
    rw [getElem?_entries_ranked, ha]
    rfl
  rw [hget, mem_entries.mp (List.mem_of_getElem? hentry)]
  rfl

/-- What does not depend on rank is listed as before. -/
theorem map_entries_ranked (s : SlotStore entity α) {p : α → β} (hp : ∀ k a, p (f k a) = p a) :
    (s.ranked f).entries.map (fun entry => (entry.1, p entry.2))
      = s.entries.map (fun entry => (entry.1, p entry.2)) := by
  refine List.ext_getElem? (fun i => ?_)
  rw [List.getElem?_map, List.getElem?_map, getElem?_entries_ranked, Option.map_map]
  exact congrArg (Option.map · s.entries[i]?) (funext fun entry => Prod.ext rfl (hp i entry.2))

theorem handles_ranked (f : Nat → α → α) (s : SlotStore entity α) :
    (s.ranked f).handles = s.handles := by
  have hmap := congrArg (List.map Prod.fst)
    (map_entries_ranked (f := f) s (p := fun _ => ()) (fun _ _ => rfl))
  rwa [List.map_map, List.map_map] at hmap

/-- What does not depend on rank is read as before. -/
theorem map_get?_ranked (s : SlotStore entity α) {p : α → β} (hp : ∀ k a, p (f k a) = p a)
    (h : Handle entity) : ((s.ranked f).get? h).map p = (s.get? h).map p := by
  cases ha : s.get? h with
  | some a =>
      obtain ⟨k, hk⟩ := exists_rank ha
      rw [get?_ranked f hk, ha]
      exact congrArg some (hp k a)
  | none =>
      cases hb : (s.ranked f).get? h with
      | none => rfl
      | some b =>
          have hmem := mem_handles.mpr ⟨b, hb⟩
          rw [handles_ranked] at hmem
          obtain ⟨a, ha'⟩ := mem_handles.mp hmem
          cases ha.symm.trans ha'

/-- The same slots are filled, and slots are given out as before. -/
structure SameSlots (s s' : SlotStore entity α) : Prop where
  filled : s'.slots.map Option.isSome = s.slots.map Option.isSome
  free : s'.free = s.free
  generations : s'.generations = s.generations

theorem sameSlots_ranked (f : Nat → α → α) (s : SlotStore entity α) : s.SameSlots (s.ranked f) := by
  have hslots : ∀ (slots : List (Option α)) (k : Nat),
      (rankFrom f k slots).map Option.isSome = slots.map Option.isSome := by
    intro slots
    induction slots with
    | nil => exact fun _ => rfl
    | cons slot rest ih =>
        intro k
        cases slot with
        | none => exact congrArg (false :: ·) (ih k)
        | some a => exact congrArg (true :: ·) (ih (k + 1))
  exact ⟨hslots s.slots 0, rfl, rfl⟩

theorem contains_ranked (f : Nat → α → α) (s : SlotStore entity α) (h : Handle entity) :
    (s.ranked f).contains h = s.contains h := by
  have hsome := congrArg Option.isSome
    (s.map_get?_ranked (f := f) (p := fun _ => ()) (fun _ _ => rfl) h)
  rwa [Option.isSome_map, Option.isSome_map] at hsome

theorem ranked_ranked (f g : Nat → α → α) (s : SlotStore entity α) :
    (s.ranked f).ranked g = s.ranked (fun k a => g k (f k a)) := by
  have hslots : ∀ (slots : List (Option α)) (k : Nat),
      rankFrom g k (rankFrom f k slots) = rankFrom (fun k a => g k (f k a)) k slots := by
    intro slots
    induction slots with
    | nil => exact fun _ => rfl
    | cons slot rest ih =>
        intro k
        cases slot with
        | none => exact congrArg (none :: ·) (ih k)
        | some a => exact congrArg (some (g k (f k a)) :: ·) (ih (k + 1))
  exact congrArg (fun slots => ({ s with slots := slots } : SlotStore entity α)) (hslots s.slots 0)

end SlotStore

/-! ## Indices in a storage -/

namespace Config

/-- The vertex with an index. -/
def indexVertex (config : Config) (k : Nat) (r : VertexRecord) : VertexRecord :=
  { r with properties := config.vertex.put vertexIndex (.index k) r.properties }

/-- The edge with an index. -/
def indexEdge (config : Config) (k : Nat) (r : EdgeRecord) : EdgeRecord :=
  { r with properties := config.edge.put edgeIndex (.index k) r.properties }

/-- The stored edge with an index. -/
def indexLink (config : Config) (k : Nat) (l : Link) : Link :=
  { l with record := config.indexEdge k l.record }

end Config

namespace Storage

variable {config : Config} {s : Storage} {v : LocalVertex} {e : LocalEdge} {k : Nat}

/-- The storage with the rank of each vertex and edge as its index. -/
def indexed (config : Config) (s : Storage) : Storage :=
  { s with
    vertices := s.vertices.ranked config.indexVertex
    edges := s.edges.ranked config.indexLink }

theorem vertex?_indexed (hk : s.vertices.handles[k]? = some v) :
    (s.indexed config).vertex? v = (s.vertex? v).map (config.indexVertex k) :=
  SlotStore.get?_ranked _ hk

theorem edgeRecord?_indexed (hk : s.edges.handles[k]? = some e) :
    (s.indexed config).edgeRecord? e = (s.edgeRecord? e).map (config.indexEdge k) := by
  rw [edgeRecord?, link?, show (s.indexed config).edges.get? e = _ from SlotStore.get?_ranked _ hk,
    Option.map_map, edgeRecord?, Option.map_map]
  rfl

theorem sameFrame_indexed (config : Config) (s : Storage) : s.SameFrame (s.indexed config) := by
  refine ⟨SlotStore.handles_ranked .., SlotStore.handles_ranked ..,
    s.vertices.map_get?_ranked (fun _ _ => rfl), fun e => ?_,
    s.edges.map_get?_ranked (fun _ _ => rfl)⟩
  have hglobals : ∀ s : Storage,
      s.carried e = ((s.link? e).map (fun l => l.record.globals)).getD [] := by
    intro s
    rw [carried, edgeRecord?]
    cases s.link? e <;> rfl
  rw [hglobals, hglobals]
  exact congrArg (Option.getD · [])
    (s.edges.map_get?_ranked (f := config.indexLink) (fun _ _ => rfl) e)

theorem hasVertex_indexed (config : Config) (s : Storage) (v : LocalVertex) :
    (s.indexed config).hasVertex v = s.hasVertex v := SlotStore.contains_ranked ..

theorem hasEdge_indexed (config : Config) (s : Storage) (e : LocalEdge) :
    (s.indexed config).hasEdge e = s.hasEdge e := SlotStore.contains_ranked ..

theorem vertexOf?_indexed (config : Config) (s : Storage) (g : GlobalVertex) :
    (s.indexed config).vertexOf? g = s.vertexOf? g := by
  have hfind := congrArg
    (fun entries => (entries.find? (fun entry => decide (entry.2 = g))).map Prod.fst)
    (s.vertices.map_entries_ranked (f := config.indexVertex) (p := VertexRecord.global)
      (fun _ _ => rfl))
  simp only [List.find?_map, Option.map_map] at hfind
  exact hfind

theorem edgeOf?_indexed (config : Config) (s : Storage) (g : GlobalEdge) :
    (s.indexed config).edgeOf? g = s.edgeOf? g := by
  have hfind := congrArg (fun entries => (entries.find? (fun entry =>
      (entry.2.find? (fun edge : CarriedEdge => edge.global.same g)).isSome)).map Prod.fst)
    (s.edges.map_entries_ranked (f := config.indexLink) (p := fun l => l.record.carried)
      (fun _ _ => rfl))
  simp only [List.find?_map, Option.map_map] at hfind
  exact hfind

theorem indexed_indexed (config : Config) (s : Storage) :
    (s.indexed config).indexed config = s.indexed config := by
  have hvertex :
      (fun k r => config.indexVertex k (config.indexVertex k r)) = config.indexVertex := by
    funext k r
    rw [Config.indexVertex, Config.indexVertex, Layout.put_put rfl]
  have hlink : (fun k l => config.indexLink k (config.indexLink k l)) = config.indexLink := by
    funext k l
    rw [Config.indexLink, Config.indexLink, Config.indexEdge, Config.indexEdge, Layout.put_put rfl]
  rw [indexed, indexed, SlotStore.ranked_ranked, SlotStore.ranked_ranked, hvertex, hlink]

end Storage

/-! ## What a change in place leaves to keys -/

section Reads

variable {β : Type} {f : Cluster → Cluster} {ψ : Cluster → β}

theorem Forest.map_clusters_update (hψ : ∀ k, ψ (f k) = ψ k) (c : ClusterId) (g : Forest) :
    (g.update c (fun b => { b with cluster := f b.cluster })).clusters.map ψ
      = g.clusters.map ψ := by
  induction g with
  | nil => rfl
  | cons v k inside rest ihInside ihRest =>
      rw [update]
      split
      · rw [clusters, clusters, List.map_append, List.map_append, List.map_cons, List.map_cons,
          hψ, ihRest]
      · rw [clusters, clusters, List.map_append, List.map_append, List.map_cons, List.map_cons,
          ihInside,
          ihRest]

theorem Forest.map_find?_update (hid : ∀ k : Cluster, (f k).id = k.id) (hψ : ∀ k, ψ (f k) = ψ k)
    (c d : ClusterId) (g : Forest) :
    ((g.update c (fun b => { b with cluster := f b.cluster })).find? d).map
        (fun b => b.clusters.map ψ)
      = (g.find? d).map (fun b => b.clusters.map ψ) := by
  induction g with
  | nil => rfl
  | cons v k inside rest ihInside ihRest =>
      by_cases hk : k.id = c
      · rw [update, if_pos hk, find?, find?, hid]
        split
        · simp [Branch.clusters, hψ]
        · rw [Option.map_or, Option.map_or, ihRest]
      · rw [update, if_neg hk, find?, find?]
        split
        · simp [Branch.clusters, map_clusters_update hψ]
        · rw [Option.map_or, Option.map_or, ihInside, ihRest]

/-- What does not depend on the change is read alike in every branch. -/
theorem Tree.map_find?_mapCluster (hid : ∀ k : Cluster, (f k).id = k.id) (hψ : ∀ k, ψ (f k) = ψ k)
    (t : Tree) (c d : ClusterId) :
    ((t.mapCluster c f).find? d).map (fun b => b.clusters.map ψ)
      = (t.find? d).map (fun b => b.clusters.map ψ) := by
  rw [find?, find?]
  show ((t.top.update c _).find? d).map _ = _
  by_cases hc : t.top.cluster.id = c
  · rw [Branch.update, if_pos hc, Branch.find?, Branch.find?]
    show (if (f t.top.cluster).id = d then _ else _ : Option Branch).map _ = _
    rw [hid]
    split
    · simp [Branch.clusters, hψ]
    · rfl
  · rw [Branch.update, if_neg hc, Branch.find?, Branch.find?]
    dsimp only
    split
    · simp [Branch.clusters, Forest.map_clusters_update hψ]
    · exact Forest.map_find?_update hid hψ c d t.top.inside

end Reads

/-! ## Indices in a tree -/

namespace Tree

variable {t : Tree} {c d : ClusterId} {b : Branch} {v : LocalVertex} {e : LocalEdge} {k : Nat}

/-- The tree with the vertices and edges of a cluster indexed. -/
def indexed (t : Tree) (c : ClusterId) : Tree := t.mapStorage c (Storage.indexed t.config)

theorem numberVertices_eq (t : Tree) (c : ClusterId) (k : Nat) (vs : List LocalVertex) :
    t.numberVertices c k vs = t.mapStorage c (fun s =>
      { s with vertices := s.vertices.modifyFrom t.config.indexVertex k vs }) := by
  induction vs generalizing t k with
  | nil => exact (update_self (fun _ => rfl) t).symm
  | cons v rest ih =>
      rw [numberVertices, ih, modifyVertex, mapStorage_mapStorage]
      rfl

theorem numberEdges_eq (t : Tree) (c : ClusterId) (k : Nat) (es : List LocalEdge) :
    t.numberEdges c k es = t.mapStorage c (fun s =>
      { s with edges := s.edges.modifyFrom t.config.indexLink k es }) := by
  induction es generalizing t k with
  | nil => exact (update_self (fun _ => rfl) t).symm
  | cons e rest ih =>
      rw [numberEdges, ih, modifyEdge, mapStorage_mapStorage]
      rfl

/-- To number a live cluster succeeds, and is one change of its storage. -/
theorem Distinct.renumber_eq (hd : t.Distinct) (hlive : t.isLive c = true) :
    t.renumber c = .ok (t.indexed c) := by
  obtain ⟨b, hb⟩ := exists_find?_of_isLive hlive
  have heq : (t.numberVertices c 0 b.cluster.storage.vertices.handles).numberEdges c 0
      b.cluster.storage.edges.handles = t.indexed c := by
    rw [numberVertices_eq, numberEdges_eq, mapStorage_mapStorage]
    refine hd.update_congr hb ?_
    show b.mapStorage _ = b.mapStorage _
    rw [Branch.mapStorage, Branch.mapStorage, Storage.indexed, SlotStore.modifyFrom_handles]
    exact congrArg (fun edges => ({ b with cluster := { b.cluster with storage :=
      { b.cluster.storage with
        vertices := b.cluster.storage.vertices.ranked t.config.indexVertex,
        edges := edges } } } : Branch))
      (SlotStore.modifyFrom_handles ..)
  rw [renumber, require_of_find? hb]
  exact congrArg Except.ok heq

theorem indexed_indexed (t : Tree) (c : ClusterId) : (t.indexed c).indexed c = t.indexed c := by
  rw [indexed, indexed, mapStorage_mapStorage]
  exact congrArg (t.mapStorage c) (funext (fun s => s.indexed_indexed t.config))

theorem Distinct.sameFrame_indexed (hd : t.Distinct) (c : ClusterId) : t.SameFrame (t.indexed c) :=
  hd.sameFrame_mapStorage c (fun s => s.sameFrame_indexed t.config)

/-! ### Records -/

section Records

variable (hd : t.Distinct)

include hd

theorem Distinct.vertexAt?_indexed (hk : (t.vertices c)[k]? = some v) :
    (t.indexed c).vertexAt? c v = (t.vertexAt? c v).map (t.config.indexVertex k) := by
  rw [vertexAt?, indexed, hd.bind_storage?_mapStorage, if_pos rfl, vertexAt?]
  rw [vertices] at hk
  cases hs : t.storage? c with
  | none => rfl
  | some s =>
      rw [hs] at hk
      exact Storage.vertex?_indexed hk

theorem Distinct.edgeAt?_indexed (hk : (t.edges c)[k]? = some e) :
    (t.indexed c).edgeAt? c e = (t.edgeAt? c e).map (t.config.indexEdge k) := by
  rw [edgeAt?, indexed, hd.bind_storage?_mapStorage, if_pos rfl, edgeAt?]
  rw [edges] at hk
  cases hs : t.storage? c with
  | none => rfl
  | some s =>
      rw [hs] at hk
      exact Storage.edgeRecord?_indexed hk

theorem Distinct.vertexAt?_indexed_of_ne (hne : d ≠ c) (v : LocalVertex) :
    (t.indexed c).vertexAt? d v = t.vertexAt? d v := by
  rw [vertexAt?, indexed, hd.bind_storage?_mapStorage, if_neg hne, vertexAt?]

theorem Distinct.edgeAt?_indexed_of_ne (hne : d ≠ c) (e : LocalEdge) :
    (t.indexed c).edgeAt? d e = t.edgeAt? d e := by
  rw [edgeAt?, indexed, hd.bind_storage?_mapStorage, if_neg hne, edgeAt?]

end Records

theorem exists_rank_vertex {r : VertexRecord} (hr : t.vertexAt? c v = some r) :
    ∃ k : Nat, (t.vertices c)[k]? = some v := by
  obtain ⟨s, hs, hr⟩ := Option.bind_eq_some_iff.mp hr
  rw [vertices, hs]
  exact SlotStore.exists_rank hr

theorem exists_rank_edge {r : EdgeRecord} (hr : t.edgeAt? c e = some r) :
    ∃ k : Nat, (t.edges c)[k]? = some e := by
  obtain ⟨s, hs, hr⟩ := Option.bind_eq_some_iff.mp hr
  obtain ⟨l, hl, -⟩ := Option.map_eq_some_iff.mp hr
  rw [edges, hs]
  exact SlotStore.exists_rank hl

/-! ### Keys -/

/-- Every key leads where it led. -/
theorem Distinct.resolve_indexed (hd : t.Distinct) (c d : ClusterId) (key : AttributeKey) :
    (t.indexed c).resolve d key = t.resolve d key := by
  let onCluster : Cluster → Cluster := fun k => { k with storage := k.storage.indexed t.config }
  have hlive := (hd.sameFrame_indexed c).live d
  cases hb : t.find? d with
  | none =>
      have hdead : t.isLive d = false := by
        rw [isLive, hb]
        rfl
      rw [resolve_of_dead hdead, resolve_of_dead (hlive.trans hdead)]
  | some b =>
      have hthere : t.isLive d = true := by
        rw [isLive, hb]
        rfl
      obtain ⟨b', hb'⟩ := exists_find?_of_isLive (hlive.trans hthere)
      -- What is read off each cluster, and is not changed by the index, reads the
      -- same over the whole branch: the owner of a global name is one such thing.
      have hread : ∀ {β : Type} (ψ : Cluster → β), (∀ k, ψ (onCluster k) = ψ k) →
          b'.clusters.map ψ = b.clusters.map ψ := by
        intro β ψ hψ
        have hmap := map_find?_mapCluster (f := onCluster) (fun _ => rfl) hψ t c d
        rw [show (t.mapCluster c onCluster).find? d = some b' from hb', hb] at hmap
        exact Option.some.inj hmap
      cases key with
      | localVertex v =>
          have hhas : b'.cluster.storage.hasVertex v = b.cluster.storage.hasVertex v :=
            (List.cons.inj (hread (fun k => k.storage.hasVertex v)
              (fun k => k.storage.hasVertex_indexed t.config v))).1
          rw [resolve, resolve, requireVertex, requireVertex, require_of_find? hb,
            require_of_find? hb',
            ok_bind, ok_bind, hhas]
          split <;> rfl
      | localEdge e =>
          have hhas : b'.cluster.storage.hasEdge e = b.cluster.storage.hasEdge e :=
            (List.cons.inj (hread (fun k => k.storage.hasEdge e)
              (fun k => k.storage.hasEdge_indexed t.config e))).1
          rw [resolve, resolve, requireEdge, requireEdge, require_of_find? hb, require_of_find? hb',
            ok_bind, ok_bind, hhas]
          split <;> rfl
      | globalVertex global =>
          have howner := congrArg (List.findSome? id)
            (hread (fun k => (k.storage.vertexOf? global).map (fun v => (k.id, v)))
              (fun k => congrArg (Option.map _) (k.storage.vertexOf?_indexed t.config global)))
          rw [List.findSome?_map, List.findSome?_map] at howner
          rw [resolve, resolve, require_of_find? hb, require_of_find? hb', ok_bind, ok_bind,
            show b'.vertexOwner? global = b.vertexOwner? global from howner]
      | globalEdge global =>
          have howner := congrArg (List.findSome? id)
            (hread (fun k => (k.storage.edgeOf? global).map (fun e => (k.id, e)))
              (fun k => congrArg (Option.map _) (k.storage.edgeOf?_indexed t.config global)))
          rw [List.findSome?_map, List.findSome?_map] at howner
          rw [resolve, resolve, require_of_find? hb, require_of_find? hb', ok_bind, ok_bind,
            show b'.edgeOwner? global = b.edgeOwner? global from howner]

/-- What a key leads to is there. -/
theorem Sound.exists_record (hs : t.Sound) {key : AttributeKey} {place : Location}
    (h : t.resolve d key = .ok place) : match place with
      | .vertex owner v => ∃ r, t.vertexAt? owner v = some r
      | .edge owner e _ => ∃ r, t.edgeAt? owner e = some r := by
  cases hlive : t.isLive d with
  | false => cases (resolve_of_dead hlive key).symm.trans h
  | true =>
      rcases hs.settles hlive key with ⟨-, place', hplace, hholds⟩ | ⟨-, hmissing⟩
      · obtain rfl := Except.ok.inj (hplace.symm.trans h)
        cases place' with
        | vertex owner v =>
            obtain ⟨-, r, hr⟩ := hholds
            exact ⟨r, vertexRecord_eq_ok_iff.mp hr⟩
        | edge owner e global =>
            obtain ⟨-, r, hr⟩ := hholds
            exact ⟨r, edgeRecord_eq_ok_iff.mp hr⟩
      · cases hmissing.symm.trans h

/-! ### Properties and objects -/

/-- The type has the indices of what is there: of the vertices or the edges of
    the cluster. -/
def IsIndex (type : AttributeType) (c : ClusterId) : Location → Prop
  | .vertex owner _ => type = vertexIndex ∧ owner = c
  | .edge owner _ _ => type = edgeIndex ∧ owner = c

section Reads

variable (hs : t.Sound) {type : AttributeType}

include hs

/-- The record of a vertex has another index in the cluster, and no other
    record differs. -/
theorem Sound.vertexAt?_indexed_cases {r : VertexRecord} (hr : t.vertexAt? d v = some r)
    (c : ClusterId) (type : AttributeType) :
    ∃ r', (t.indexed c).vertexAt? d v = some r' ∧ r'.objects = r.objects
      ∧ (¬ (type = vertexIndex ∧ d = c) →
        t.config.vertex.read type r'.properties = t.config.vertex.read type r.properties) := by
  by_cases hdc : d = c
  · subst hdc
    obtain ⟨k, hk⟩ := exists_rank_vertex hr
    refine ⟨t.config.indexVertex k r, ?_, rfl, fun hother => ?_⟩
    · rw [hs.distinct.vertexAt?_indexed hk, hr]
      rfl
    · exact Layout.read_put_of_ne (fun htype => hother ⟨htype, rfl⟩) _ _
  · exact ⟨r, (hs.distinct.vertexAt?_indexed_of_ne hdc v).trans hr, rfl, fun _ => rfl⟩

theorem Sound.edgeAt?_indexed_cases {r : EdgeRecord} (hr : t.edgeAt? d e = some r)
    (c : ClusterId) (type : AttributeType) :
    ∃ r', (t.indexed c).edgeAt? d e = some r' ∧ r'.carried = r.carried
      ∧ (¬ (type = edgeIndex ∧ d = c) →
        t.config.edge.read type r'.properties = t.config.edge.read type r.properties) := by
  by_cases hdc : d = c
  · subst hdc
    obtain ⟨k, hk⟩ := exists_rank_edge hr
    refine ⟨t.config.indexEdge k r, ?_, rfl, fun hother => ?_⟩
    · rw [hs.distinct.edgeAt?_indexed hk, hr]
      rfl
    · exact Layout.read_put_of_ne (fun htype => hother ⟨htype, rfl⟩) _ _
  · exact ⟨r, (hs.distinct.edgeAt?_indexed_of_ne hdc e).trans hr, rfl, fun _ => rfl⟩

/-- What is no index is read as before. -/
theorem Sound.property_indexed {key : AttributeKey}
    (hother : ∀ place, t.resolve d key = .ok place → ¬ IsIndex type c place) :
    (t.indexed c).property type d key = t.property type d key := by
  rw [property, property, hs.distinct.resolve_indexed]
  cases hplace : t.resolve d key with
  | error e => rfl
  | ok place =>
      rw [ok_bind, ok_bind]
      have hnot := hother place hplace
      cases place with
      | vertex owner v =>
          obtain ⟨r, hr⟩ := hs.exists_record hplace
          obtain ⟨r', hr', -, hread⟩ := hs.vertexAt?_indexed_cases hr c type
          dsimp only
          rw [vertexRecord_eq_ok_iff.mpr hr, vertexRecord_eq_ok_iff.mpr hr', ok_bind, ok_bind]
          exact hread hnot
      | edge owner e global =>
          obtain ⟨r, hr⟩ := hs.exists_record hplace
          obtain ⟨r', hr', -, hread⟩ := hs.edgeAt?_indexed_cases hr c type
          dsimp only
          rw [edgeRecord_eq_ok_iff.mpr hr, edgeRecord_eq_ok_iff.mpr hr', ok_bind, ok_bind]
          exact hread hnot

theorem Sound.object_indexed (c d : ClusterId) (key : AttributeKey) :
    (t.indexed c).object type d key = t.object type d key := by
  rw [object, object, hs.distinct.resolve_indexed]
  cases hplace : t.resolve d key with
  | error e => rfl
  | ok place =>
      rw [ok_bind, ok_bind]
      cases place with
      | vertex owner v =>
          obtain ⟨r, hr⟩ := hs.exists_record hplace
          obtain ⟨r', hr', hobjects, -⟩ := hs.vertexAt?_indexed_cases hr c type
          dsimp only
          rw [vertexRecord_eq_ok_iff.mpr hr, vertexRecord_eq_ok_iff.mpr hr', ok_bind, ok_bind,
            hobjects]
          rfl
      | edge owner e global =>
          obtain ⟨r, hr⟩ := hs.exists_record hplace
          obtain ⟨r', hr', hcarried, -⟩ := hs.edgeAt?_indexed_cases hr c type
          have hsame : r'.carriedFor e global = r.carriedFor e global := by
            cases global <;> simp only [EdgeRecord.carriedFor, EdgeRecord.carriedAs?, hcarried]
          dsimp only
          rw [edgeRecord_eq_ok_iff.mpr hr, edgeRecord_eq_ok_iff.mpr hr', ok_bind, ok_bind, hsame]
          rfl

end Reads

/-! ### Numbers -/

/-- The rank of each entity is read as its index, so each number below their
    count is read once. -/
structure Numbers {entity : Entity} (handles : List (Handle entity))
    (index : Handle entity → Except Error Value) : Prop where
  inOrder : ∀ (k : Nat) h, handles[k]? = some h → index h = .ok (.index k)
  once : ∀ k < handles.length, ∃! h, h ∈ handles ∧ index h = .ok (.index k)
  below : ∀ h ∈ handles, ∃ k < handles.length, index h = .ok (.index k)

theorem numbers_of {entity : Entity} {handles : List (Handle entity)}
    {index : Handle entity → Except Error Value}
    (h : ∀ (k : Nat) h, handles[k]? = some h → index h = .ok (.index k)) :
    Numbers handles index := by
  refine ⟨h, fun k hk => ?_, fun x hx => ?_⟩
  · refine ⟨handles[k], ⟨List.getElem_mem hk, h k _ (List.getElem?_eq_getElem hk)⟩, ?_⟩
    rintro y ⟨hy, hindex⟩
    obtain ⟨j, hj⟩ := List.mem_iff_getElem?.mp hy
    obtain rfl : j = k := Value.index.inj (Except.ok.inj ((h j y hj).symm.trans hindex))
    exact (List.getElem?_eq_some_iff.mp hj).2.symm
  · obtain ⟨k, hk⟩ := List.mem_iff_getElem?.mp hx
    exact ⟨k, (List.getElem?_eq_some_iff.mp hk).1, h k x hk⟩

section Numbers

variable (hs : t.Sound)

include hs

theorem Sound.numbers_vertices (c : ClusterId) :
    Numbers (t.vertices c) (fun v => (t.indexed c).property vertexIndex c (.localVertex v)) := by
  refine numbers_of (fun k v hk => ?_)
  obtain ⟨n, hn, rfl⟩ := exists_node_of_vertices (List.mem_of_getElem? hk)
  obtain ⟨b, hb, rfl⟩ := hs.distinct.find?_of_mem hn
  have hhas : b.cluster.storage.hasVertex v = true :=
    (hs.distinct.mem_vertices hn).mp (List.mem_of_getElem? hk)
  obtain ⟨r, hr⟩ := Storage.hasVertex_iff.mp hhas
  have hrecord := vertexRecord_of_find? hb hr
  have hresolve : t.resolve b.node.id (.localVertex v) = .ok (.vertex b.node.id v) := by
    rw [resolve, requireVertex, require_of_find? hb, ok_bind, if_pos hhas]
    rfl
  have hindexed :
      (t.indexed b.node.id).vertexAt? b.node.id v = some (t.config.indexVertex k r) := by
    rw [hs.distinct.vertexAt?_indexed hk, vertexRecord_eq_ok_iff.mp hrecord]
    rfl
  obtain ⟨slots, hw⟩ := (hs.fits_vertexRecord hrecord).1.write_eq_ok hs.complete.vertex
    (show (Value.index k).kind = vertexIndex.initial.kind from rfl)
  rw [property, hs.distinct.resolve_indexed, hresolve, ok_bind]
  dsimp only
  rw [vertexRecord_eq_ok_iff.mpr hindexed, ok_bind]
  show t.config.vertex.read vertexIndex
    (t.config.vertex.put vertexIndex (.index k) r.properties) = _
  rw [Layout.put_of_write hw]
  exact Layout.read_of_write hw rfl

theorem Sound.numbers_edges (c : ClusterId) :
    Numbers (t.edges c) (fun e => (t.indexed c).property edgeIndex c (.localEdge e)) := by
  refine numbers_of (fun k e hk => ?_)
  obtain ⟨n, hn, rfl⟩ := exists_node_of_edges (List.mem_of_getElem? hk)
  obtain ⟨b, hb, rfl⟩ := hs.distinct.find?_of_mem hn
  obtain ⟨l, hl⟩ := (hs.distinct.mem_edges hn).mp (List.mem_of_getElem? hk)
  have hhas : b.cluster.storage.hasEdge e = true := SlotStore.contains_iff.mpr ⟨l, hl⟩
  have hrecord := edgeRecord_of_find? hb hl
  have hresolve : t.resolve b.node.id (.localEdge e) = .ok (.edge b.node.id e none) := by
    rw [resolve, requireEdge, require_of_find? hb, ok_bind, if_pos hhas]
    rfl
  have hindexed :
      (t.indexed b.node.id).edgeAt? b.node.id e = some (t.config.indexEdge k l.record) := by
    rw [hs.distinct.edgeAt?_indexed hk, edgeRecord_eq_ok_iff.mp hrecord]
    rfl
  obtain ⟨slots, hw⟩ := (hs.fits_edgeRecord hrecord).1.write_eq_ok hs.complete.edge
    (show (Value.index k).kind = edgeIndex.initial.kind from rfl)
  rw [property, hs.distinct.resolve_indexed, hresolve, ok_bind]
  dsimp only
  rw [edgeRecord_eq_ok_iff.mpr hindexed, ok_bind]
  show t.config.edge.read edgeIndex (t.config.edge.put edgeIndex (.index k) l.record.properties) = _
  rw [Layout.put_of_write hw]
  exact Layout.read_of_write hw rfl

end Numbers

/-! ### All that changes -/

/-- The vertices and edges of a cluster have their ranks as indices, and there
    is no other change. -/
structure Indexes (t t' : Tree) (c : ClusterId) : Prop extends t.SameFrame t' where
  vertexIndices : Numbers (t'.vertices c) (fun v => t'.property vertexIndex c (.localVertex v))
  edgeIndices : Numbers (t'.edges c) (fun e => t'.property edgeIndex c (.localEdge e))
  keys : ∀ d key, t'.resolve d key = t.resolve d key
  /-- Through whatever key it is read, what is no index is as it was. -/
  properties : ∀ type d key, (∀ place, t.resolve d key = .ok place → ¬ IsIndex type c place) →
    t'.property type d key = t.property type d key
  objects : ∀ type d key, t'.object type d key = t.object type d key
  objectLists : ∀ type d e, t'.objects type d e = t.objects type d e
  slots : ∀ s ∈ t.storage? c, ∃ s' ∈ t'.storage? c, s.vertices.SameSlots s'.vertices
    ∧ s.edges.SameSlots s'.edges ∧ s'.recent = s.recent
  otherClusters : ∀ d, d ≠ c → (t'.find? d).map Branch.cluster = (t.find? d).map Branch.cluster
  nextClusterId : t'.nextClusterId = t.nextClusterId
  /-- To number again changes nothing. -/
  again : t'.renumber c = .ok t'

theorem Sound.objects_indexed (hs : t.Sound) (type : AttributeType) (c d : ClusterId)
    (e : LocalEdge) :
    (t.indexed c).objects type d e = t.objects type d e := by
  rw [objects, objects]
  cases hr : t.edgeAt? d e with
  | some r =>
      obtain ⟨r', hr', hcarried, -⟩ := hs.edgeAt?_indexed_cases hr c type
      rw [edgeRecord_eq_ok_iff.mpr hr, edgeRecord_eq_ok_iff.mpr hr', ok_bind, ok_bind, hcarried]
      rfl
  | none =>
      -- The edge is missing before and after, and so is the cluster if it is.
      have hframe := hs.distinct.sameFrame_indexed c
      have hnone' : (t.indexed c).edgeAt? d e = none := by
        refine Option.eq_none_iff_forall_ne_some.mpr (fun r' hr' => ?_)
        obtain ⟨k, hk⟩ := exists_rank_edge hr'
        rw [hframe.edges] at hk
        obtain ⟨n, hn, rfl⟩ := exists_node_of_edges (List.mem_of_getElem? hk)
        obtain ⟨b, hb, rfl⟩ := hs.distinct.find?_of_mem hn
        obtain ⟨l, hl⟩ := (hs.distinct.mem_edges hn).mp (List.mem_of_getElem? hk)
        cases (edgeRecord_eq_ok_iff.mp (edgeRecord_of_find? hb hl)).symm.trans hr
      have hmissing : ∀ t : Tree, t.edgeAt? d e = none → t.edgeRecord d e
          = .error (if t.isLive d then .invalidLocalEdge e else .clusterNotFound d) := by
        intro t hnone
        rw [edgeAt?, storage?] at hnone
        rw [edgeRecord, require, isLive]
        cases hb : t.find? d with
        | none => rfl
        | some b =>
            rw [hb] at hnone
            rw [ok_bind, show b.cluster.storage.edgeRecord? e = none from hnone]
            rfl
      rw [hmissing t hr, hmissing _ hnone', hframe.live]
      rfl

theorem Sound.indexes (hs : t.Sound) (hlive : t.isLive c = true) : t.Indexes (t.indexed c) c := by
  have hframe := hs.distinct.sameFrame_indexed c
  refine { hframe with
    vertexIndices := (hframe.vertices c).symm ▸ hs.numbers_vertices c
    edgeIndices := (hframe.edges c).symm ▸ hs.numbers_edges c
    keys := fun d key => hs.distinct.resolve_indexed c d key
    properties := fun type d key hother => hs.property_indexed hother
    objects := fun type d key => hs.object_indexed c d key
    objectLists := fun type d e => hs.objects_indexed type c d e
    slots := fun s hstorage => ?slots
    otherClusters := fun d hne => ?others
    nextClusterId := rfl
    again := ?again }
  case slots =>
    refine ⟨s.indexed t.config, ?_, SlotStore.sameSlots_ranked ..,
      SlotStore.sameSlots_ranked .., rfl⟩
    rw [Option.mem_def, indexed, hs.distinct.storage?_mapStorage, if_pos rfl,
      Option.mem_def.mp hstorage]
    rfl
  case others =>
    exact hs.distinct.cluster_mapCluster_of_ne
      (f := fun k => { k with storage := k.storage.indexed t.config }) (fun _ => rfl) hne
  case again =>
    have hd' : (t.indexed c).Distinct := hs.distinct.mapStorage c _
    rw [hd'.renumber_eq ((hframe.live c).trans hlive), indexed_indexed]

end Tree

/-! ## Runs -/

namespace Workspace

variable {w : Workspace} {number : Nat} {m : Member} {c : ClusterId}

/-- The workspace with another tree under a number. -/
def withTree (w : Workspace) (number : Nat) (m : Member) (t : Tree) : Workspace :=
  { w with members := w.members.set number { m with tree := t } }

theorem Sound.step_renumber (hw : w.Sound) (hm : w.members[number]? = some m)
    (hlive : m.tree.isLive c = true) :
    w.step (.change number (.renumber c))
      = (w.withTree number m (m.tree.indexed c), .ok .done) := by
  obtain ⟨ids, hg⟩ := hw.exists_graph? hm
  have hd := (hw.tree hg).distinct
  have hp : (⟨m.tree, ids⟩ : Graph).perform (.renumber c)
      = .ok (⟨m.tree.indexed c, ids⟩, .done) := by
    rw [Graph.perform]
    dsimp only
    rw [hd.renumber_eq hlive]
    rfl
  have hsources : w.sources.set m.source ids = w.sources := by
    have hself := congrArg Workspace.sources (put_self hg)
    rwa [put_of_member hm] at hself
  rw [step_change hw hg hp, put_of_member hm, withTree]
  simp only [Reply.removals, List.append_nil, hsources]

/-- **INDICES**: whatever callers did and whatever types are declared, to
    number a live cluster succeeds.  The vertices read their ranks by slot as
    indices, and so do the edges; nothing else is read differently in the
    tree, and nothing else changes in the workspace.  To number again
    changes nothing. -/
theorem indexes_run (operations : List Operation) {number : Nat} {m : Member}
    (hm : (empty.run operations).members[number]? = some m) {c : ClusterId}
    (hlive : m.tree.isLive c = true) :
    ∃ t' w', w' = (empty.run operations).withTree number m t'
      ∧ (empty.run operations).step (.change number (.renumber c)) = (w', .ok .done)
      ∧ m.tree.Indexes t' c
      ∧ w'.step (.change number (.renumber c)) = (w', .ok .done) := by
  have hw := sound_run operations
  have hs := hw.trees m (List.mem_of_getElem? hm)
  have hindexes := hs.indexes hlive
  have hstep := hw.step_renumber hm hlive
  refine ⟨m.tree.indexed c, _, rfl, hstep, hindexes, ?_⟩
  have hw' := (hw.becomes_step (.change number (.renumber c))).sound
  rw [hstep] at hw'
  have hm' : ((empty.run operations).withTree number m (m.tree.indexed c)).members[number]?
      = some { m with tree := m.tree.indexed c } :=
    List.getElem?_set_self (List.getElem?_eq_some_iff.mp hm).1
  rw [hw'.step_renumber hm' ((hindexes.live c).trans hlive)]
  simp only [withTree, Tree.indexed_indexed, List.set_set]

/-- A vertex was removed, so there is a free slot between the two that are
    left.  The index of vertices is declared for edges as well, and what the
    edge reads of it stays. -/
theorem indexes_removeVertex :
    let operations := [Operation.newGraph
        (.declared [.edge vertexIndex, .vertex ⟨"weight", .integer 3, 0⟩, .vertex vertexIndex]) .fresh,
      .change 0 (.addVertex Tree.rootId), .change 0 (.addVertex Tree.rootId),
      .change 0 (.addVertex Tree.rootId), .change 0 (.addEdge Tree.rootId ⟨0, 0⟩ ⟨2, 0⟩),
      .change 0 (.setProperty vertexIndex Tree.rootId (.localEdge ⟨0, 0⟩) (.index 7)),
      .change 0 (.setProperty vertexIndex Tree.rootId (.localVertex ⟨0, 0⟩) (.index 1)),
      .change 0 (.removeVertex Tree.rootId ⟨1, 0⟩)]
    let w := empty.run operations
    ∃ m ∈ w.members[0]?, ∃ t' w', m.tree.isLive Tree.rootId = true ∧ w' = w.withTree 0 m t'
      ∧ w.step (.change 0 (.renumber Tree.rootId)) = (w', .ok .done)
      ∧ m.tree.Indexes t' Tree.rootId
      ∧ t'.property vertexIndex Tree.rootId (.localVertex ⟨0, 0⟩) = .ok (.index 0)
      ∧ t'.property vertexIndex Tree.rootId (.localVertex ⟨2, 0⟩) = .ok (.index 1)
      ∧ t'.property vertexIndex Tree.rootId (.localEdge ⟨0, 0⟩) = .ok (.index 7) := by
  intro operations w
  have hbefore : ∃ m ∈ w.members[0]?, m.tree.isLive Tree.rootId = true
      ∧ m.tree.vertices Tree.rootId = [⟨0, 0⟩, ⟨2, 0⟩]
      ∧ m.tree.resolve Tree.rootId (.localEdge ⟨0, 0⟩) = .ok (.edge Tree.rootId ⟨0, 0⟩ none)
      ∧ m.tree.property vertexIndex Tree.rootId (.localEdge ⟨0, 0⟩) = .ok (.index 7) := by
    decide +kernel
  obtain ⟨m, hm, hlive, hvertices, hedge, hseven⟩ := hbefore
  obtain ⟨t', w', hw', hstep, hindexes, -⟩ := indexes_run operations hm hlive
  have horder := hindexes.vertexIndices.inOrder
  rw [hindexes.vertices, hvertices] at horder
  refine ⟨m, hm, t', w', hlive, hw', hstep, hindexes, horder 0 _ rfl, horder 1 _ rfl, ?_⟩
  rw [hindexes.properties vertexIndex Tree.rootId (.localEdge ⟨0, 0⟩) (fun place hplace => ?_),
    hseven]
  -- On an edge the index of vertices is a property like others.
  obtain rfl := Except.ok.inj (hedge.symm.trans hplace)
  exact fun hindex => absurd hindex.1 (by decide)

end Workspace

end NestedGraph
