import NestedGraph.Proofs.Keeping

/-! # Visits — a walk delivers what the reads give

    A walk takes the objects of a cluster from the slots of its vertices and
    then of its edges, and goes on into the children, one after the other.
    The objects of one type that it delivers are those that reads of that type
    give there; a walk for all objects delivers what is in any slot, once.
    Every cluster inside is reported once, before anything in it and after the
    cluster that it hangs in. -/

namespace NestedGraph

/-! ## Steps of walks -/

namespace WalkStep

/-- The cluster that a step reports. -/
def cluster? : WalkStep → Option ClusterId
  | .cluster c => some c
  | .object _ => none

/-- The object that a step delivers. -/
def object? : WalkStep → Option TypedObject
  | .cluster _ => none
  | .object x => some x

theorem mem_clusters_iff {steps : List WalkStep} {c : ClusterId} :
    c ∈ steps.filterMap cluster? ↔ .cluster c ∈ steps := by
  rw [List.mem_filterMap]
  constructor
  · rintro ⟨step, hstep, heq⟩
    cases step with
    | cluster d =>
        obtain rfl := Option.some.inj heq
        exact hstep
    | object x => cases heq
  · exact fun h => ⟨_, h, rfl⟩

theorem clusters_objects (objects : List TypedObject) :
    (objects.map WalkStep.object).filterMap cluster? = [] := by
  induction objects with
  | nil => rfl
  | cons _ _ ih => exact ih

theorem objects_objects (objects : List TypedObject) :
    (objects.map WalkStep.object).filterMap object? = objects := by
  induction objects with
  | nil => rfl
  | cons x rest ih => exact congrArg (x :: ·) ih

end WalkStep

section Walks

variable (pick : List (Option TypedObject) → List TypedObject)

namespace Forest

/-- A walk goes through the branches in their order. -/
theorem walk_eq (f : Forest) :
    f.walk pick = f.branches.flatMap (fun entry =>
      .cluster entry.2.cluster.id :: entry.2.walk pick true) := by
  induction f with
  | nil => rfl
  | cons v k inside rest _ ih => simp [walk, branches, Branch.walk, ih]

theorem clusters_walk (f : Forest) :
    (f.walk pick).filterMap WalkStep.cluster? = f.clusters.map Cluster.id := by
  induction f with
  | nil => rfl
  | cons v k inside rest ihInside ihRest =>
      rw [walk, clusters, List.filterMap_append, List.filterMap_append, List.filterMap_cons,
        WalkStep.clusters_objects, ihInside, ihRest]
      simp [WalkStep.cluster?]

theorem objects_walk (f : Forest) :
    (f.walk pick).filterMap WalkStep.object? = f.clusters.flatMap (fun k => k.storage.objects pick) := by
  induction f with
  | nil => rfl
  | cons v k inside rest ihInside ihRest =>
      rw [walk, clusters, List.filterMap_append, List.filterMap_append, List.filterMap_cons]
      rw [WalkStep.objects_objects, ihInside, ihRest]
      simp [WalkStep.object?]

theorem ids_eq_clusters (f : Forest) : f.ids = (f.clusters.map Cluster.id : List ClusterId) := by
  rw [ids, ← Multiset.map_coe, coe_clusters, Multiset.map_map]
  rfl

/-- A walk reports a cluster inside, and then walks through it. -/
theorem walk_split {f : Forest} {d : ClusterId} {x : Branch} (h : f.find? d = some x) :
    ∃ before after, f.walk pick = before ++ .cluster d :: x.walk pick true ++ after := by
  induction f with
  | nil => cases h
  | cons v k inside rest ihInside ihRest =>
      rw [find?] at h
      split at h
      · rename_i hk
        obtain rfl := Option.some.inj h
        exact ⟨[], rest.walk pick, by simp [walk, Branch.walk, hk]⟩
      · rcases Option.or_eq_some_iff.mp h with h | ⟨-, h⟩
        · obtain ⟨before, after, heq⟩ := ihInside h
          refine ⟨.cluster k.id :: (k.storage.objects pick).map .object ++ before,
            after ++ rest.walk pick, ?_⟩
          simp [walk, heq]
        · obtain ⟨before, after, heq⟩ := ihRest h
          refine ⟨.cluster k.id :: (k.storage.objects pick).map .object ++ inside.walk pick ++ before,
            after, ?_⟩
          simp [walk, heq]

end Forest

namespace Branch

variable (b : Branch)

theorem walk_own : b.walk pick false = (b.cluster.storage.objects pick).map .object :=
  List.append_nil _

theorem walk_all : b.walk pick true = b.walk pick false ++ b.inside.walk pick := by
  rw [walk_own]
  rfl

theorem clusters_walk_all :
    (b.walk pick true).filterMap WalkStep.cluster? = b.inside.clusters.map Cluster.id := by
  rw [walk_all, walk_own, List.filterMap_append, WalkStep.clusters_objects, Forest.clusters_walk]
  rfl

theorem objects_walk_all : (b.walk pick true).filterMap WalkStep.object?
    = b.clusters.flatMap (fun k => k.storage.objects pick) := by
  rw [walk_all, walk_own, List.filterMap_append, WalkStep.objects_objects, Forest.objects_walk]
  rfl

variable {b} {d : ClusterId}

theorem mem_clusters_walk : .cluster d ∈ b.walk pick true ↔ d ∈ b.inside.ids := by
  rw [← WalkStep.mem_clusters_iff, clusters_walk_all, Forest.ids_eq_clusters, Multiset.mem_coe]

/-- A walk reports a cluster inside, and then walks through it. -/
theorem walk_split {x : Branch} (h : b.inside.find? d = some x) :
    ∃ before after, b.walk pick true = before ++ .cluster d :: x.walk pick true ++ after := by
  obtain ⟨before, after, heq⟩ := Forest.walk_split pick h
  exact ⟨b.walk pick false ++ before, after, by simp [walk_all, heq]⟩

end Branch

end Walks

/-! ## What is found in one cluster -/

namespace Tree

variable {t : Tree} {c d : ClusterId} {v : LocalVertex} {e : LocalEdge} {type : AttributeType} {p : Place}

/-- The cluster that a place is in. -/
def Place.cluster : Place → ClusterId
  | .vertex c _ => c
  | .edge c _ _ => c

/-- The places in a cluster: its vertices, and the global edges on its edges. -/
def places (t : Tree) (c : ClusterId) : List Place :=
  (t.vertices c).map (.vertex c)
    ++ (t.edges c).flatMap (fun e => (List.range (t.carried c e).length).map (.edge c e))

theorem mem_vertices_iff : v ∈ t.vertices c ↔ ∃ r, t.vertexAt? c v = some r := by
  rw [vertices, vertexAt?]
  cases t.storage? c with
  | none => simp
  | some s => exact SlotStore.mem_handles

theorem mem_edges_iff : e ∈ t.edges c ↔ ∃ r, t.edgeAt? c e = some r := by
  rw [edges, edgeAt?]
  cases t.storage? c with
  | none => simp
  | some s =>
      simp only [SlotStore.mem_handles, Option.bind_some, Storage.edgeRecord?, Storage.link?,
        Option.map_eq_some_iff]
      constructor
      · rintro ⟨l, hl⟩
        exact ⟨l.record, l, hl, rfl⟩
      · rintro ⟨_, l, hl, -⟩
        exact ⟨l, hl⟩

theorem carried_eq_of_edgeAt? {r : EdgeRecord} (h : t.edgeAt? c e = some r) :
    t.carried c e = r.carried.map CarriedEdge.global := by
  obtain ⟨s, hs, hr⟩ := Option.bind_eq_some_iff.mp h
  rw [carried, hs]
  dsimp only
  rw [Storage.carried, hr]
  rfl

/-- The places in a cluster are those of it that have object slots. -/
theorem mem_places : p ∈ t.places c ↔ p.cluster = c ∧ ∃ slots, t.slots? p = some slots := by
  rw [places, List.mem_append, List.mem_map, List.mem_flatMap]
  constructor
  · rintro (⟨v, hv, rfl⟩ | ⟨e, he, hp⟩)
    · obtain ⟨r, hr⟩ := mem_vertices_iff.mp hv
      exact ⟨rfl, r.objects, by rw [slots?, hr]; rfl⟩
    · obtain ⟨i, hi, rfl⟩ := List.mem_map.mp hp
      obtain ⟨r, hr⟩ := mem_edges_iff.mp he
      rw [List.mem_range, carried_eq_of_edgeAt? hr, List.length_map] at hi
      exact ⟨rfl, r.carried[i].objects, by
        rw [slots?, hr, Option.bind_some, List.getElem?_eq_getElem hi]; rfl⟩
  · rintro ⟨rfl, slots, hslots⟩
    cases p with
    | vertex d v =>
        obtain ⟨r, hr, -⟩ := Option.map_eq_some_iff.mp hslots
        exact Or.inl ⟨v, mem_vertices_iff.mpr ⟨r, hr⟩, rfl⟩
    | edge d e i =>
        obtain ⟨r, hr, hx⟩ := Option.bind_eq_some_iff.mp hslots
        obtain ⟨x, hx, -⟩ := Option.map_eq_some_iff.mp hx
        refine Or.inr ⟨e, mem_edges_iff.mpr ⟨r, hr⟩, List.mem_map.mpr ⟨i, ?_, rfl⟩⟩
        rw [Place.cluster, List.mem_range, carried_eq_of_edgeAt? hr, List.length_map]
        exact (List.getElem?_eq_some_iff.mp hx).1

theorem nodup_places (t : Tree) (c : ClusterId) : (t.places c).Nodup := by
  have hvertices : (t.vertices c).Nodup := by
    rw [vertices]
    cases t.storage? c with
    | none => exact List.nodup_nil
    | some s => exact SlotStore.nodup_handles _
  have hedges : (t.edges c).Nodup := by
    rw [edges]
    cases t.storage? c with
    | none => exact List.nodup_nil
    | some s => exact SlotStore.nodup_handles _
  refine List.nodup_append.mpr ⟨hvertices.map (fun v w h => (Place.vertex.inj h).2),
    List.nodup_flatMap.mpr ⟨fun e _ => List.nodup_range.map (fun i j h => (Place.edge.inj h).2.2), ?_⟩,
    ?_⟩
  · -- Places on different edges are different.
    refine hedges.imp (fun {e k} hne p he hk => hne ?_)
    obtain ⟨i, -, rfl⟩ := List.mem_map.mp he
    obtain ⟨j, -, heq⟩ := List.mem_map.mp hk
    exact (Place.edge.inj heq).2.1.symm
  · rintro p hp q hq rfl
    obtain ⟨v, -, rfl⟩ := List.mem_map.mp hp
    obtain ⟨e, -, hq⟩ := List.mem_flatMap.mp hq
    obtain ⟨i, -, heq⟩ := List.mem_map.mp hq
    cases heq

theorem flatMap_range {α β : Type} (l : List α) (f : α → List β) :
    (List.range l.length).flatMap (fun i => (l[i]?.map f).getD []) = l.flatMap f := by
  induction l with
  | nil => rfl
  | cons x rest ih => simp [List.range_succ_eq_map, List.flatMap_map, ih]

/-- A walk takes the objects of a cluster from its places, in their order. -/
theorem objects_eq {b : Branch} (hb : t.find? c = some b)
    (pick : List (Option TypedObject) → List TypedObject) :
    b.cluster.storage.objects pick
      = (t.places c).flatMap (fun p => ((t.slots? p).map pick).getD []) := by
  have hstorage := storage?_of_find? hb
  simp only [Storage.objects, places, vertices_of_find? hb, edges_of_find? hb, SlotStore.values,
    SlotStore.handles, List.flatMap_append, List.flatMap_assoc, List.flatMap_map]
  congr 1
  · refine List.flatMap_congr (fun entry hentry => ?_)
    have hr : t.vertexAt? c entry.1 = some entry.2 := by
      rw [vertexAt?, hstorage]
      exact SlotStore.mem_entries.mp hentry
    rw [slots?, hr]
    rfl
  · refine List.flatMap_congr (fun entry hentry => ?_)
    have hr : t.edgeAt? c entry.1 = some entry.2.record := by
      rw [edgeAt?, hstorage]
      exact congrArg (Option.map Link.record) (SlotStore.mem_entries.mp hentry)
    rw [carried_eq_of_edgeAt? hr, List.length_map, ← flatMap_range]
    refine List.flatMap_congr (fun i _ => ?_)
    rw [slots?, hr, Option.bind_some, Option.map_map]
    rfl

/-- The object in a slot at a place. -/
def objectIn? (t : Tree) (p : Place) (i : Nat) : Option TypedObject :=
  (t.slots? p).bind (fun slots => slots[i]?.join)

/-- The filled slots in a cluster, with what is in them. -/
def filledSlots (t : Tree) (c : ClusterId) : List ((Place × Nat) × TypedObject) :=
  (t.places c).flatMap (fun p =>
    (SlotStore.filledFrom 0 ((t.slots? p).getD [])).map (fun entry => ((p, entry.1), entry.2)))

theorem mem_filledSlots {i : Nat} {x : TypedObject} :
    ((p, i), x) ∈ t.filledSlots c ↔ p.cluster = c ∧ t.objectIn? p i = some x := by
  rw [filledSlots, List.mem_flatMap]
  constructor
  · rintro ⟨q, hq, hmem⟩
    obtain ⟨⟨j, y⟩, hy, heq⟩ := List.mem_map.mp hmem
    simp only [Prod.mk.injEq] at heq
    obtain ⟨⟨rfl, rfl⟩, rfl⟩ := heq
    obtain ⟨hc, slots, hslots⟩ := mem_places.mp hq
    rw [hslots] at hy
    obtain ⟨k, hk, hy⟩ := SlotStore.mem_filledFrom.mp hy
    obtain rfl : j = k := by omega
    refine ⟨hc, ?_⟩
    rw [objectIn?, hslots, Option.bind_some]
    exact Option.join_eq_some_iff.mpr hy
  · rintro ⟨hc, hx⟩
    obtain ⟨slots, hslots, hx⟩ := Option.bind_eq_some_iff.mp hx
    refine ⟨p, mem_places.mpr ⟨hc, slots, hslots⟩, List.mem_map.mpr ⟨(i, x), ?_, rfl⟩⟩
    rw [hslots]
    exact SlotStore.mem_filledFrom.mpr ⟨i, (Nat.zero_add i).symm, Option.join_eq_some_iff.mp hx⟩

/-- No slot is listed twice. -/
theorem nodup_filledSlots (t : Tree) (c : ClusterId) : ((t.filledSlots c).map Prod.fst).Nodup := by
  rw [filledSlots, List.map_flatMap]
  refine List.nodup_flatMap.mpr ⟨fun p _ => ?_, (t.nodup_places c).imp (fun {p q} hne site hp hq => hne ?_)⟩
  · rw [List.map_map]
    have hindices := SlotStore.nodup_filledFrom 0 ((t.slots? p).getD [])
    exact (List.map_map ▸ hindices.map (Prod.mk_right_injective p) :)
  · obtain ⟨entry, hentry, rfl⟩ := List.mem_map.mp hp
    obtain ⟨other, hother, heq⟩ := List.mem_map.mp hq
    obtain ⟨x, -, rfl⟩ := List.mem_map.mp hentry
    obtain ⟨y, -, rfl⟩ := List.mem_map.mp hother
    exact (congrArg Prod.fst heq).symm

theorem objects_filledFrom (n : Nat) (slots : List (Option TypedObject)) :
    (SlotStore.filledFrom n slots).map Prod.snd = slots.filterMap id := by
  induction slots generalizing n with
  | nil => rfl
  | cons slot rest ih =>
      cases slot with
      | none => exact ih (n + 1)
      | some x => exact congrArg (x :: ·) (ih (n + 1))

/-- A walk for all objects takes what is in the filled slots. -/
theorem objects_filled {b : Branch} (hb : t.find? c = some b) :
    b.cluster.storage.objects (fun slots => slots.filterMap id) = (t.filledSlots c).map Prod.snd := by
  rw [objects_eq hb, filledSlots, List.map_flatMap]
  refine List.flatMap_congr (fun p _ => ?_)
  rw [List.map_map]
  cases t.slots? p with
  | none => rfl
  | some slots => exact (objects_filledFrom 0 slots).symm

/-! ## Reads of one type -/

/-- What reads of one type give in a cluster where there is something: on its
    vertices, and then on its edges. -/
def typedReads (t : Tree) (type : AttributeType) (c : ClusterId) :
    Except Error (List TypedObject) := do
  let onVertices ← (t.vertices c).mapM (fun v => t.object type c (.localVertex v))
  let onEdges ← (t.edges c).mapM (fun e => t.objects type c e)
  return onVertices.filterMap id ++ onEdges.flatten.filterMap Prod.snd

/-- The object of a type in its slot. -/
def typedIn? (type : AttributeType) (slot : Nat) (slots : List (Option TypedObject)) :
    Option TypedObject :=
  (slots[slot]?.join).filter (fun object => decide (object.type = type))

theorem readObject_of_require {l : Layout} {slot : Nat} (h : l.require type = .ok slot)
    (slots : List (Option TypedObject)) : l.readObject type slots = .ok (typedIn? type slot slots) := by
  rw [Layout.readObject, h]
  rfl

theorem object_localVertex {b : Branch} (hb : t.find? c = some b) {r : VertexRecord}
    (hr : b.cluster.storage.vertex? v = some r) :
    t.object type c (.localVertex v) = t.config.objects.readObject type r.objects := by
  have hhas : b.cluster.storage.hasVertex v = true := Storage.hasVertex_iff.mpr ⟨r, hr⟩
  have hresolve : t.resolve c (.localVertex v) = .ok (.vertex c v) := by
    rw [resolve, requireVertex, require_of_find? hb, ok_bind, if_pos hhas]
    rfl
  rw [object, hresolve, ok_bind]
  dsimp only
  rw [vertexRecord_of_find? hb hr]
  rfl

/-- Reads of a type succeed in every live cluster, and give what a walk takes. -/
theorem typedReads_eq {slot : Nat} (hslot : t.config.objects.require type = .ok slot) {b : Branch}
    (hb : t.find? c = some b) :
    t.typedReads type c
      = .ok (b.cluster.storage.objects (fun slots => (typedIn? type slot slots).toList)) := by
  have hvertices : (t.vertices c).mapM (fun v => t.object type c (.localVertex v))
      = .ok (b.cluster.storage.vertices.entries.map (fun entry =>
          typedIn? type slot entry.2.objects)) := by
    rw [vertices_of_find? hb, SlotStore.handles, List.mapM_map]
    refine mapM_eq_ok (fun entry hentry => ?_)
    rw [Function.comp_apply, object_localVertex hb (SlotStore.mem_entries.mp hentry),
      readObject_of_require hslot]
  have hedges : (t.edges c).mapM (fun e => t.objects type c e)
      = .ok (b.cluster.storage.edges.entries.map (fun entry =>
          entry.2.record.carried.map (fun x => (x.global, typedIn? type slot x.objects)))) := by
    rw [edges_of_find? hb, SlotStore.handles, List.mapM_map]
    refine mapM_eq_ok (fun entry hentry => ?_)
    rw [Function.comp_apply, objects, edgeRecord_of_find? hb (SlotStore.mem_entries.mp hentry), ok_bind]
    refine mapM_eq_ok (fun x _ => ?_)
    rw [readObject_of_require hslot]
    rfl
  rw [typedReads, hvertices, ok_bind, hedges, ok_bind]
  simp only [Storage.objects, SlotStore.values, List.flatMap_map, List.filterMap_eq_flatMap_toList,
    List.flatten_eq_flatMap, List.flatMap_assoc, id_eq]
  rfl

/-! ## Walks in a tree -/

/-- A walk descends: it takes the own content of a cluster, which reports no
    cluster, and goes on into the children in their order. -/
structure Descends (t : Tree) (visit : ClusterId → Bool → Except Error (List WalkStep))
    (c : ClusterId) : Prop where
  own : ∃ own below, visit c false = .ok own ∧ own.filterMap WalkStep.cluster? = []
    ∧ (t.children c).mapM (fun child => do
        return WalkStep.cluster child.2 :: (← visit child.2 true)) = .ok below
    ∧ visit c true = .ok (own ++ below.flatten)
  /-- Every cluster inside is reported once: after the cluster that it hangs
      in, and right before its own walk. -/
  below : ∃ steps, visit c true = .ok steps ∧ (steps.filterMap WalkStep.cluster?).Nodup
    ∧ (∀ d, .cluster d ∈ steps ↔ t.isAncestor c d = true ∧ d ≠ c)
    ∧ ∀ d, .cluster d ∈ steps → ∃ before content after q v, visit d true = .ok content
      ∧ steps = before ++ .cluster d :: content ++ after
      ∧ (v, d) ∈ t.children q ∧ (q = c ∨ .cluster q ∈ before)

/-- A walk delivers the objects in the filled slots of the clusters that it
    visits, each once. -/
def Gathers (t : Tree) (c : ClusterId) (steps : List WalkStep) : Prop :=
  ∃ found : List ((Place × Nat) × TypedObject),
    steps.filterMap WalkStep.object? = found.map Prod.snd ∧ (found.map Prod.fst).Nodup
      ∧ ∀ p i x, ((p, i), x) ∈ found
        ↔ (p.cluster = c ∨ .cluster p.cluster ∈ steps) ∧ t.objectIn? p i = some x

/-- Walks for one type and for all objects, against the reads of the type and
    against what is in the slots. -/
structure Visits (t : Tree) (type : AttributeType) (c : ClusterId) : Prop where
  /-- For one type, the own content is what reads of the type give. -/
  typed : ∃ objects, t.typedReads type c = .ok objects
    ∧ t.visitType type c false = .ok (objects.map .object)
  descendsTyped : t.Descends (t.visitType type) c
  descendsAll : t.Descends t.visitAll c
  /-- Both walks report the same clusters in the same order. -/
  clusters : ∀ recursive, ∃ ofType ofAll, t.visitType type c recursive = .ok ofType
    ∧ t.visitAll c recursive = .ok ofAll
    ∧ ofAll.filterMap WalkStep.cluster? = ofType.filterMap WalkStep.cluster?
  gathers : ∀ recursive, ∃ steps, t.visitAll c recursive = .ok steps ∧ t.Gathers c steps

section Walks

variable {b : Branch} {visit : ClusterId → Bool → Except Error (List WalkStep)}
  {pick : List (Option TypedObject) → List TypedObject}

/-- A cluster inside a branch hangs in the branch's own cluster, or in another
    one inside. -/
theorem Distinct.exists_parent_inside (hd : t.Distinct) (hb : t.find? c = some b)
    (h : d ∈ b.inside.ids) : ∃ q v, (v, d) ∈ t.children q ∧ (q = c ∨ q ∈ b.inside.ids) := by
  obtain rfl := id_of_find? hb
  have hmem : d ∈ b.ids := by
    rw [Branch.ids_eq]
    exact Multiset.mem_cons_of_mem h
  obtain ⟨n, hn, v, hv⟩ := Branch.exists_parent hmem
    (fun heq => (hd.nodup_inside hb).1 (heq ▸ h))
  have hn' := Multiset.mem_of_le (nodes_le_of_find? hb) hn
  refine ⟨n.id, v, (hd.children_of_mem hn').symm ▸ hv, ?_⟩
  have hid : n.id ∈ b.ids := Multiset.mem_map_of_mem _ hn
  rw [Branch.ids_eq] at hid
  exact Multiset.mem_cons.mp hid

theorem Distinct.nodup_clusters_walk (hd : t.Distinct) (hb : t.find? c = some b) :
    ((b.walk pick true).filterMap WalkStep.cluster?).Nodup := by
  have hnodup := (hd.nodup_inside hb).2
  rw [Forest.ids_eq_clusters] at hnodup
  rw [Branch.clusters_walk_all]
  exact Multiset.coe_nodup.mp hnodup

/-- A recursive walk reports a cluster inside right before it walks through it,
    and after the cluster that it hangs in. -/
theorem Distinct.exists_split (hd : t.Distinct) (hb : t.find? c = some b) (h : d ∈ b.inside.ids) :
    ∃ before after q v x, t.find? d = some x
      ∧ b.walk pick true = before ++ .cluster d :: x.walk pick true ++ after
      ∧ (v, d) ∈ t.children q ∧ (q = c ∨ .cluster q ∈ before) := by
  obtain ⟨q, v, hv, rfl | hq⟩ := hd.exists_parent_inside hb h
  · obtain ⟨x, hx, hfind⟩ := hd.exists_find?_inside hb h
    obtain ⟨before, after, heq⟩ := Branch.walk_split pick hx
    exact ⟨before, after, q, v, x, hfind, heq, hv, Or.inl rfl⟩
  · -- The walk through the cluster that it hangs in is a part of the whole walk.
    obtain ⟨y, hy, hyfind⟩ := hd.exists_find?_inside hb hq
    have hin : d ∈ y.inside.ids := by
      rw [children_of_find? hyfind] at hv
      exact Forest.mem_ids_of_entries hv
    obtain ⟨x, hx, hfind⟩ := hd.exists_find?_inside hyfind hin
    obtain ⟨before, after, heq⟩ := Branch.walk_split pick hy
    obtain ⟨before', after', heq'⟩ := Branch.walk_split pick hx
    refine ⟨before ++ .cluster q :: before', after' ++ after, q, v, x, hfind, ?_, hv, Or.inr ?_⟩
    · simp [heq, heq']
    · simp

theorem Sound.descends (hs : t.Sound) (hb : t.find? c = some b)
    (hvisit : ∀ d x recursive, t.find? d = some x → visit d recursive = .ok (x.walk pick recursive)) :
    t.Descends visit c := by
  obtain rfl := id_of_find? hb
  constructor
  case own =>
    refine ⟨b.walk pick false, b.inside.branches.map (fun entry =>
      .cluster entry.2.cluster.id :: entry.2.walk pick true), hvisit _ b false hb, ?_, ?_, ?_⟩
    · rw [Branch.walk_own, WalkStep.clusters_objects]
    · rw [children_of_find? hb]
      show (b.inside.branches.map (fun entry => (entry.1, entry.2.cluster.id))).mapM _ = _
      rw [List.mapM_map]
      refine mapM_eq_ok (fun entry hentry => ?_)
      rw [Function.comp_apply, hvisit _ _ true (hs.find?_of_mem_inside hb entry hentry)]
      rfl
    · rw [hvisit _ b true hb, Branch.walk_all, Forest.walk_eq, List.flatMap_def]
  case below =>
    refine ⟨b.walk pick true, hvisit _ b true hb, hs.distinct.nodup_clusters_walk hb,
      fun d => (Branch.mem_clusters_walk pick).trans (hs.mem_inside_iff hb), fun d hin => ?_⟩
    obtain ⟨before, after, q, v, x, hx, heq, hv, hq⟩ :=
      hs.distinct.exists_split hb ((Branch.mem_clusters_walk pick).mp hin)
    exact ⟨before, x.walk pick true, after, q, v, hvisit d x true hx, heq, hv, hq⟩

theorem nodup_flatMap_filledSlots {ids : List ClusterId} (h : ids.Nodup) :
    ((ids.flatMap t.filledSlots).map Prod.fst).Nodup := by
  rw [List.map_flatMap]
  refine List.nodup_flatMap.mpr ⟨fun d _ => t.nodup_filledSlots d, h.imp (fun {d e} hne site hd he => hne ?_)⟩
  obtain ⟨⟨⟨p, i⟩, x⟩, hp, rfl⟩ := List.mem_map.mp hd
  obtain ⟨⟨⟨q, j⟩, y⟩, hq, heq⟩ := List.mem_map.mp he
  obtain ⟨rfl, -⟩ := Prod.mk.inj heq
  exact (mem_filledSlots.mp hp).1.symm.trans (mem_filledSlots.mp hq).1

/-- A recursive walk for all objects takes what is in the filled slots of the
    clusters of the branch. -/
theorem Distinct.objects_walk_filled (hd : t.Distinct) (hb : t.find? c = some b) :
    (b.walk (fun slots => slots.filterMap id) true).filterMap WalkStep.object?
      = ((b.clusters.map Cluster.id).flatMap t.filledSlots).map Prod.snd := by
  rw [Branch.objects_walk_all, List.map_flatMap, List.flatMap_map]
  refine List.flatMap_congr (fun k hk => ?_)
  obtain ⟨n, hn, rfl⟩ := Branch.mem_clusters.mp hk
  obtain ⟨x, hx, rfl⟩ := hd.find?_of_mem (Multiset.mem_of_le (nodes_le_of_find? hb) hn)
  exact objects_filled hx

theorem Distinct.gathers (hd : t.Distinct) (hb : t.find? c = some b) (recursive : Bool) :
    t.Gathers c (b.walk (fun slots => slots.filterMap id) recursive) := by
  cases recursive with
  | false =>
      refine ⟨t.filledSlots c, ?_, t.nodup_filledSlots c, fun p i x => ?_⟩
      · rw [Branch.walk_own, WalkStep.objects_objects, objects_filled hb]
      · rw [mem_filledSlots, Branch.walk_own]
        simp
  | true =>
      obtain rfl := id_of_find? hb
      have hnodup := hd.nodup_branch hb
      rw [Branch.ids_eq_clusters] at hnodup
      refine ⟨_, hd.objects_walk_filled hb, nodup_flatMap_filledSlots (Multiset.coe_nodup.mp hnodup),
        fun p i x => ?_⟩
      rw [Branch.mem_clusters_walk, ← Multiset.mem_cons, ← Branch.ids_eq, Branch.ids_eq_clusters,
        Multiset.mem_coe, List.mem_flatMap]
      constructor
      · rintro ⟨d, hin, hfilled⟩
        obtain ⟨rfl, hx⟩ := mem_filledSlots.mp hfilled
        exact ⟨hin, hx⟩
      · exact fun ⟨hin, hx⟩ => ⟨_, hin, mem_filledSlots.mpr ⟨rfl, hx⟩⟩

theorem visitType_of_find? {slot : Nat} (hslot : t.config.objects.require type = .ok slot)
    (hb : t.find? c = some b) (recursive : Bool) :
    t.visitType type c recursive
      = .ok (b.walk (fun slots => (typedIn? type slot slots).toList) recursive) := by
  rw [visitType, hslot, ok_bind, require_of_find? hb, ok_bind]
  simp only [typedIn?, Option.toList_filter]
  rfl

/-- In a sound tree, walks from a live cluster visit what reads give there. -/
theorem Sound.visits (hs : t.Sound) (hlive : t.isLive c = true)
    (htype : type ∈ t.config.objects.types) : t.Visits type c := by
  obtain ⟨b, hb⟩ := exists_find?_of_isLive hlive
  obtain ⟨slot, hposition⟩ :=
    Option.isSome_iff_exists.mp ((t.config.objects.contains_iff_mem type).mpr htype)
  have hslot : t.config.objects.require type = .ok slot := by rw [Layout.require, hposition]
  constructor
  case typed =>
    refine ⟨_, typedReads_eq hslot hb, ?_⟩
    rw [visitType_of_find? hslot hb, Branch.walk_own]
  case descendsTyped =>
    exact hs.descends hb (fun _ _ recursive hx => visitType_of_find? hslot hx recursive)
  case descendsAll => exact hs.descends hb (fun _ _ recursive hx => visitAll_of_find? hx recursive)
  case clusters =>
    intro recursive
    refine ⟨_, _, visitType_of_find? hslot hb recursive, visitAll_of_find? hb recursive, ?_⟩
    cases recursive with
    | false => simp only [Branch.walk_own, WalkStep.clusters_objects]
    | true => simp only [Branch.clusters_walk_all]
  case gathers => exact fun recursive =>
    ⟨_, visitAll_of_find? hb recursive, hs.distinct.gathers hb recursive⟩

end Walks

end Tree

/-! ## Runs -/

namespace Workspace

/-- **VISITS**: whatever callers did, a walk for the objects of one type from a
    live cluster delivers what reads of that type give there, on the vertices
    and then on the edges, and a recursive walk goes on through the children,
    each named before its content.  A walk for all objects names the same
    clusters, and delivers every filled slot of the clusters that it visits
    once, also one that a copy filled with an object of another type. -/
theorem visits_run (operations : List Operation) {m : Member}
    (hm : m ∈ (empty.run operations).members) {c : ClusterId} (hlive : m.tree.isLive c = true)
    {type : AttributeType} (htype : type ∈ m.tree.config.objects.types) :
    m.tree.Visits type c :=
  ((sound_run operations).trees m hm).visits hlive htype

/-- A copy whose cloner makes badges of weights: the slots for weights hold
    badges, which only a walk for all objects delivers. -/
theorem visits_duplicate :
    let weight : AttributeType := ⟨"weight", .integer 0, 0⟩
    let badge : AttributeType := ⟨"badge", .unit, 0⟩
    let cloner : Cloner Nat := fun _ serial => (⟨badge, serial + 1, .unit⟩, serial + 1)
    let operations := [Operation.newGraph (.declared [.object weight, .object badge]) .fresh,
      .change 0 (.addCluster Tree.rootId), .change 0 (.addVertex Tree.rootId), .change 0 (.addVertex ⟨1⟩),
      .placeObject 0 Tree.rootId (.localVertex ⟨1, 0⟩) weight (.integer 5),
      .placeObject 0 ⟨1⟩ (.localVertex ⟨0, 0⟩) badge .unit, .duplicate 0 cloner]
    ∃ m ∈ (empty.run operations).members,
      m.tree.Visits weight Tree.rootId
      ∧ m.tree.visitType weight Tree.rootId true = .ok [.cluster ⟨1⟩]
      ∧ m.tree.visitAll Tree.rootId true
        = .ok [.object ⟨badge, 3, .unit⟩, .cluster ⟨1⟩, .object ⟨badge, 4, .unit⟩] := by
  intro weight badge cloner operations
  have hcopy : ∃ m ∈ (empty.run operations).members[1]?,
      m.tree.isLive Tree.rootId = true ∧ weight ∈ m.tree.config.objects.types
      ∧ m.tree.visitType weight Tree.rootId true = .ok [.cluster ⟨1⟩]
      ∧ m.tree.visitAll Tree.rootId true
        = .ok [.object ⟨badge, 3, .unit⟩, .cluster ⟨1⟩, .object ⟨badge, 4, .unit⟩] := by
    decide +kernel
  obtain ⟨m, hm, hlive, htype, hwalks⟩ := hcopy
  have hmem := List.mem_of_getElem? hm
  exact ⟨m, hmem, visits_run operations hmem hlive htype, hwalks⟩

end Workspace

end NestedGraph
