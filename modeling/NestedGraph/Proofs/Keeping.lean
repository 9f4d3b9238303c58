import NestedGraph.Proofs.Connection

/-! # Keeping — the attributes at a place, and what stays when they change

    The properties of an edge are kept once for all global edges on it, the
    objects once for each of them.  So a place has object slots of its own,
    and shares its property slots with the other places on the same edge.
    To change the slots of one place leaves those of all others, and
    everything in the tree that is not an attribute of a vertex or an
    edge. -/

namespace NestedGraph

/-! ## Slots after writing -/

namespace Layout

variable {l : Layout} {type other : AttributeType}

theorem position?_of_require {i : Nat} (h : l.require type = .ok i) : l.position? type = some i := by
  rw [require] at h
  cases hj : l.position? type with
  | none =>
      rw [hj] at h
      cases h
  | some j =>
      rw [hj] at h
      exact congrArg some (Except.ok.inj h)

/-- Two types do not share a slot. -/
theorem ne_of_require {i j : Nat} (hne : other ≠ type) (hi : l.require type = .ok i)
    (hj : l.require other = .ok j) : i ≠ j := by
  rintro rfl
  have htype := getElem?_of_position? (position?_of_require hi)
  have hother := getElem?_of_position? (position?_of_require hj)
  exact hne (Option.some.inj (hother.symm.trans htype))

section Values

variable {value : Value} {slots slots' : List Value}

theorem read_of_write_of_ne (hne : other ≠ type) (h : l.write type value slots = .ok slots') :
    l.read other slots' = l.read other slots := by
  rw [← put_of_write h]
  exact read_put_of_ne hne value slots

/-- Only a value of the kind of its type is written. -/
theorem Fits.kind_of_write (hfit : l.Fits slots) (h : l.write type value slots = .ok slots') :
    value.kind = type.initial.kind := by
  obtain ⟨i, hi, h⟩ := of_bind_eq_ok h
  have hkind := hfit.getElem? i
  rw [getElem?_of_position? (position?_of_require hi)] at hkind
  split at h
  · rename_i v hv
    split at h
    · rename_i hk
      rw [hv] at hkind
      exact hk.symm.trans (Option.some.inj hkind)
    · exact nomatch h
  · exact nomatch h

end Values

section Objects

variable {object : Option TypedObject} {slots slots' : List (Option TypedObject)}

theorem of_writeObject (h : l.writeObject type object slots = .ok slots') :
    ∃ i, l.require type = .ok i ∧ i < slots.length ∧ slots' = slots.set i object := by
  obtain ⟨i, hi, h⟩ := of_bind_eq_ok h
  split at h
  · rename_i hlt
    exact ⟨i, hi, hlt, (Except.ok.inj h).symm⟩
  · exact nomatch h

/-- An object of the type of its slot is read back, and so is an empty slot. -/
theorem readObject_of_writeObject (h : l.writeObject type object slots = .ok slots')
    (htype : ∀ x ∈ object, x.type = type) : l.readObject type slots' = .ok object := by
  obtain ⟨i, hi, hlt, rfl⟩ := of_writeObject h
  rw [readObject, hi, ok_bind, List.getElem?_set_self hlt]
  cases object with
  | none => rfl
  | some x => simp [Option.filter, htype x rfl, pure, Except.pure]

theorem readObject_of_writeObject_of_ne (hne : other ≠ type)
    (h : l.writeObject type object slots = .ok slots') :
    l.readObject other slots' = l.readObject other slots := by
  obtain ⟨i, hi, -, rfl⟩ := of_writeObject h
  rw [readObject, readObject]
  cases hj : l.require other with
  | error e => rfl
  | ok j => rw [ok_bind, ok_bind, List.getElem?_set_ne (ne_of_require hne hi hj)]

end Objects

end Layout

/-! ## One of the edges that are carried -/

namespace EdgeRecord

variable {r : EdgeRecord} {i : Nat} {x : CarriedEdge}

/-- What stands for a global edge, or for the first one, is at a position. -/
def MeansAt (r : EdgeRecord) (i : Nat) : Option GlobalEdge → Prop
  | none => i = 0
  | some global => ∃ x, r.carried[i]? = some x ∧ x.global.same global = true

/-- The first edge that satisfies a test is changed at its position. -/
theorem changeFirst_eq_modify {p : GlobalEdge → Bool} (f : CarriedEdge → CarriedEdge)
    {carried : List CarriedEdge} (hx : carried[i]? = some x) (hp : p x.global = true)
    (hfirst : ∀ j < i, ∀ y, carried[j]? = some y → p y.global = false) :
    changeFirst p f carried = carried.modify i f := by
  induction carried generalizing i with
  | nil => cases hx
  | cons y rest ih =>
      cases i with
      | zero =>
          obtain rfl := Option.some.inj hx
          rw [changeFirst, if_pos hp]
          rfl
      | succ i =>
          have hy : p y.global = false := hfirst 0 (Nat.succ_pos i) y rfl
          rw [changeFirst, if_neg (Bool.eq_false_iff.mp hy), List.modify_succ_cons]
          exact congrArg (y :: ·) (ih hx (fun j hj => hfirst (j + 1) (Nat.succ_lt_succ hj)))

/-- With distinct ids only one position has an edge of the id that is meant. -/
theorem same_eq_false (hids : (r.globals.map GlobalEdge.id).Nodup) {global : GlobalEdge}
    (hx : r.carried[i]? = some x) (hsame : x.global.same global = true) {j : Nat} (hj : j < i)
    {y : CarriedEdge} (hy : r.carried[j]? = some y) : y.global.same global = false := by
  refine Bool.eq_false_iff.mpr (fun hother => ?_)
  have hid : y.global.id = x.global.id :=
    (beq_iff_eq.mp hother).trans (beq_iff_eq.mp hsame).symm
  have hjx : (r.globals.map GlobalEdge.id)[j]? = (r.globals.map GlobalEdge.id)[i]? := by
    simp [globals, hx, hy, hid]
  have hlt : i < (r.globals.map GlobalEdge.id).length := by
    simpa [globals] using (List.getElem?_eq_some_iff.mp hx).1
  exact absurd ((List.getElem?_inj (hj.trans hlt) hids).mp hjx) (Nat.ne_of_lt hj)

section Means

variable (hids : (r.globals.map GlobalEdge.id).Nodup) {global : Option GlobalEdge}
  (hmeans : r.MeansAt i global) (hx : r.carried[i]? = some x)

include hids hmeans hx

theorem carriedFor_of_meansAt (e : LocalEdge) : r.carriedFor e global = .ok x := by
  cases global with
  | none =>
      obtain rfl : i = 0 := hmeans
      rw [carriedFor, List.head?_eq_getElem?, hx]
  | some global =>
      obtain ⟨y, hy, hsame⟩ := hmeans
      obtain rfl := Option.some.inj (hx.symm.trans hy)
      have hfind : r.carriedAs? global = some x := by
        obtain ⟨hlt, rfl⟩ := List.getElem?_eq_some_iff.mp hx
        refine List.find?_eq_some_iff_getElem.mpr ⟨hsame, i, hlt, rfl, fun j hj => ?_⟩
        exact congrArg Bool.not
          (same_eq_false hids hx hsame hj (List.getElem?_eq_getElem (hj.trans hlt)))
      rw [carriedFor, hfind]

theorem modifyCarried_of_meansAt (f : CarriedEdge → CarriedEdge) :
    r.modifyCarried global f = { r with carried := r.carried.modify i f } := by
  cases global with
  | none =>
      obtain rfl : i = 0 := hmeans
      exact congrArg (fun carried => { r with carried := carried })
        (changeFirst_eq_modify (p := fun _ => true) f hx rfl (fun j hj => absurd hj (Nat.not_lt_zero j)))
  | some global =>
      obtain ⟨y, hy, hsame⟩ := hmeans
      obtain rfl := Option.some.inj (hx.symm.trans hy)
      exact congrArg (fun carried => { r with carried := carried })
        (changeFirst_eq_modify (p := fun other => other.same global) f hx hsame
          (fun j hj z hz => same_eq_false hids hx hsame hj hz))

end Means

end EdgeRecord

/-! ## What a change in place leaves -/

namespace SlotStore

variable {entity : Entity} {α : Type}

theorem indices_set (n : Nat) {slots : List (Option α)} {i : Nat} {a b : α}
    (h : slots[i]? = some (some a)) :
    (filledFrom n (slots.set i (some b))).map Prod.fst = (filledFrom n slots).map Prod.fst := by
  induction slots generalizing n i with
  | nil => rfl
  | cons slot rest ih =>
      cases i with
      | zero =>
          obtain rfl := Option.some.inj h
          rfl
      | succ i =>
          have hrest := ih (n + 1) (i := i) h
          cases slot with
          | none => exact hrest
          | some c => exact congrArg (n :: ·) hrest

theorem handles_modify (s : SlotStore entity α) (h : Handle entity) (f : α → α) :
    (s.modify h f).handles = s.handles := by
  unfold modify
  split
  · rename_i a ha
    have hindices := indices_set 0 (b := f a) (get?_eq_some_iff.mp ha).2
    have hmap := congrArg (List.map s.handleAt) hindices
    rw [List.map_map, List.map_map] at hmap
    rw [handles, entries, List.map_map, handles, entries, List.map_map]
    exact hmap
  · rfl

end SlotStore

namespace Storage

variable {s : Storage} {v w : LocalVertex} {e k : LocalEdge}

/-- The attributes apart, everything is read alike. -/
structure SameFrame (s s' : Storage) : Prop where
  vertices : s'.vertices.handles = s.vertices.handles
  edges : s'.edges.handles = s.edges.handles
  global? : ∀ v, s'.global? v = s.global? v
  carried : ∀ e, s'.carried e = s.carried e
  endpoints? : ∀ e, s'.endpoints? e = s.endpoints? e

theorem vertex?_modifyVertex (s : Storage) (v w : LocalVertex) (f : VertexRecord → VertexRecord) :
    (s.modifyVertex v f).vertex? w = if w = v then (s.vertex? v).map f else s.vertex? w :=
  SlotStore.get?_modify ..

theorem edgeRecord?_modifyEdge (s : Storage) (e k : LocalEdge) (f : EdgeRecord → EdgeRecord) :
    (s.modifyEdge e f).edgeRecord? k
      = if k = e then (s.edgeRecord? e).map f else s.edgeRecord? k := by
  rw [edgeRecord?, link?_modifyEdge]
  split
  · rw [edgeRecord?, Option.map_map, Option.map_map]
    rfl
  · rfl

theorem sameFrame_modifyVertex (s : Storage) (v : LocalVertex) {f : VertexRecord → VertexRecord}
    (hf : ∀ r, (f r).global = r.global) : s.SameFrame (s.modifyVertex v f) := by
  refine ⟨SlotStore.handles_modify .., rfl, fun w => ?_, fun _ => rfl, fun _ => rfl⟩
  rw [global?, global?, vertex?_modifyVertex]
  split
  · rename_i hw
    rw [hw, Option.map_map]
    exact congrArg (Option.map · (s.vertex? v)) (funext hf)
  · rfl

theorem sameFrame_modifyEdge (s : Storage) (e : LocalEdge) {f : EdgeRecord → EdgeRecord}
    (hf : ∀ r, (f r).globals = r.globals) : s.SameFrame (s.modifyEdge e f) := by
  refine ⟨rfl, SlotStore.handles_modify .., fun _ => rfl, fun k => ?_, fun k => ?_⟩
  · rw [carried, carried, edgeRecord?_modifyEdge]
    by_cases hk : k = e
    · rw [if_pos hk, hk]
      cases s.edgeRecord? e with
      | none => rfl
      | some r => exact hf r
    · rw [if_neg hk]
  · rw [endpoints?, endpoints?, link?_modifyEdge]
    split
    · rename_i hk
      rw [hk]
      cases s.link? e <;> rfl
    · rfl

theorem SameFrame.refl (s : Storage) : s.SameFrame s :=
  ⟨rfl, rfl, fun _ => rfl, fun _ => rfl, fun _ => rfl⟩

end Storage

/-- The attributes of its vertices and edges apart, everything in a cluster is
    read alike. -/
structure Cluster.SameFrame (k k' : Cluster) : Prop where
  storage : k.storage.SameFrame k'.storage
  properties : k'.properties = k.properties
  mode : k'.copyMode = k.copyMode

namespace Tree

variable {t t' t'' : Tree} {c d : ClusterId} {v w : LocalVertex} {e k : LocalEdge}

/-- The attributes of vertices and edges apart, everything is read alike. -/
structure SameFrame (t t' : Tree) : Prop extends t.SameShape t' where
  config : t'.config = t.config
  vertices : ∀ d, t'.vertices d = t.vertices d
  edges : ∀ d, t'.edges d = t.edges d
  global? : ∀ d v, t'.global? d v = t.global? d v
  carried : ∀ d e, t'.carried d e = t.carried d e
  endpoints? : ∀ d e, t'.endpoints? d e = t.endpoints? d e
  clusterProperty : ∀ type d, t'.clusterProperty type d = t.clusterProperty type d
  mode : ∀ d, t'.isCopyMode d = t.isCopyMode d

/-- The branch of a cluster after a change of storage, if there is one. -/
theorem Distinct.find?_mapStorage_cases (hd : t.Distinct) (c : ClusterId) (f : Storage → Storage)
    (d : ClusterId) :
    (t.find? d = none ∧ (t.mapStorage c f).find? d = none)
      ∨ ∃ b b', t.find? d = some b ∧ (t.mapStorage c f).find? d = some b'
        ∧ b'.cluster = if d = c then (b.mapStorage f).cluster else b.cluster := by
  let onCluster : Cluster → Cluster := fun k => { k with storage := f k.storage }
  have hlive : (t.mapStorage c f).isLive d = t.isLive d :=
    (hd.sameShape_mapCluster c (f := onCluster) (fun _ => rfl)).live d
  cases hb : t.find? d with
  | none =>
      rw [isLive, isLive, hb] at hlive
      exact Or.inl ⟨rfl, Option.not_isSome_iff_eq_none.mp (Bool.eq_false_iff.mp hlive)⟩
  | some b =>
      by_cases hdc : d = c
      · subst hdc
        exact Or.inr ⟨b, _, rfl, find?_mapStorage_self hb f, (if_pos rfl).symm⟩
      · have heq : ((t.mapStorage c f).find? d).map Branch.cluster = (t.find? d).map Branch.cluster :=
          hd.cluster_mapCluster_of_ne (f := onCluster) (fun _ => rfl) hdc
        rw [hb] at heq
        obtain ⟨b', hb', hcluster⟩ := Option.map_eq_some_iff.mp heq
        exact Or.inr ⟨b, b', rfl, hb', hcluster.trans (if_neg hdc).symm⟩

theorem Distinct.storage?_mapStorage (hd : t.Distinct) (c : ClusterId) (f : Storage → Storage)
    (d : ClusterId) :
    (t.mapStorage c f).storage? d = if d = c then (t.storage? d).map f else t.storage? d := by
  rw [storage?, storage?]
  rcases hd.find?_mapStorage_cases c f d with ⟨h, h'⟩ | ⟨b, b', h, h', hcluster⟩
  · rw [h, h']
    exact (ite_self _).symm
  · rw [h, h', Option.map_some, hcluster]
    split <;> rfl

/-- What is read of a storage is read of the changed one, in the cluster where
    it was changed. -/
theorem Distinct.bind_storage?_mapStorage (hd : t.Distinct) (c : ClusterId) (f : Storage → Storage)
    {α : Type} (read : Storage → Option α) (d : ClusterId) :
    ((t.mapStorage c f).storage? d).bind read
      = if d = c then (t.storage? d).bind (fun s => read (f s)) else (t.storage? d).bind read := by
  rw [hd.storage?_mapStorage]
  split
  · rw [Option.bind_map]
    rfl
  · rfl

theorem Distinct.sameFrame_mapStorage (hd : t.Distinct) (c : ClusterId) {f : Storage → Storage}
    (hf : ∀ s : Storage, s.SameFrame (f s)) : t.SameFrame (t.mapStorage c f) := by
  let onCluster : Cluster → Cluster := fun k => { k with storage := f k.storage }
  have hshape : t.SameShape (t.mapStorage c f) :=
    hd.sameShape_mapCluster c (f := onCluster) (fun _ => rfl)
  have hfind : ∀ d, (t.find? d = none ∧ (t.mapStorage c f).find? d = none)
      ∨ ∃ b b', t.find? d = some b ∧ (t.mapStorage c f).find? d = some b'
        ∧ b.cluster.SameFrame b'.cluster := by
    intro d
    rcases hd.find?_mapStorage_cases c f d with hnone | ⟨b, b', h, h', hcluster⟩
    · exact Or.inl hnone
    · refine Or.inr ⟨b, b', h, h', ?_⟩
      rw [hcluster]
      split
      · exact ⟨hf _, rfl, rfl⟩
      · exact ⟨.refl _, rfl, rfl⟩
  refine ⟨hshape, rfl, ?vertices, ?edges, ?names, ?carried, ?endpoints, ?property, ?mode⟩
  case vertices =>
    intro d
    rcases hfind d with ⟨h, h'⟩ | ⟨b, b', h, h', hsame⟩
    · rw [vertices, vertices, storage?, storage?, h, h']
    · rw [vertices_of_find? h, vertices_of_find? h', hsame.storage.vertices]
  case edges =>
    intro d
    rcases hfind d with ⟨h, h'⟩ | ⟨b, b', h, h', hsame⟩
    · rw [edges, edges, storage?, storage?, h, h']
    · rw [edges_of_find? h, edges_of_find? h', hsame.storage.edges]
  case names =>
    intro d v
    rcases hfind d with ⟨h, h'⟩ | ⟨b, b', h, h', hsame⟩
    · rw [global?, global?, storage?, storage?, h, h']
    · rw [global?, global?, storage?, storage?, h, h']
      exact hsame.storage.global? v
  case carried =>
    intro d e
    rcases hfind d with ⟨h, h'⟩ | ⟨b, b', h, h', hsame⟩
    · rw [carried, carried, storage?, storage?, h, h']
    · rw [carried, carried, storage?, storage?, h, h']
      exact hsame.storage.carried e
  case endpoints =>
    intro d e
    rcases hfind d with ⟨h, h'⟩ | ⟨b, b', h, h', hsame⟩
    · rw [endpoints?, endpoints?, storage?, storage?, h, h']
    · rw [endpoints?, endpoints?, storage?, storage?, h, h']
      exact hsame.storage.endpoints? e
  case property =>
    intro type d
    rcases hfind d with ⟨h, h'⟩ | ⟨b, b', h, h', hsame⟩
    · rw [clusterProperty, clusterProperty, require, require, h, h']
      rfl
    · rw [clusterProperty_of_find? h, clusterProperty_of_find? h', hsame.properties]
      rfl
  case mode =>
    intro d
    rcases hfind d with ⟨h, h'⟩ | ⟨b, b', h, h', hsame⟩
    · rw [isCopyMode, isCopyMode, h, h']
    · rw [isCopyMode, isCopyMode, h, h']
      exact hsame.mode

theorem Distinct.sameFrame_modifyVertex (hd : t.Distinct) (c : ClusterId) (v : LocalVertex)
    {f : VertexRecord → VertexRecord} (hf : ∀ r, (f r).global = r.global) :
    t.SameFrame (t.modifyVertex c v f) :=
  hd.sameFrame_mapStorage c (fun s => s.sameFrame_modifyVertex v hf)

theorem Distinct.sameFrame_modifyEdge (hd : t.Distinct) (c : ClusterId) (e : LocalEdge)
    {f : EdgeRecord → EdgeRecord} (hf : ∀ r, (f r).globals = r.globals) :
    t.SameFrame (t.modifyEdge c e f) :=
  hd.sameFrame_mapStorage c (fun s => s.sameFrame_modifyEdge e hf)

/-! ## The slots at a place -/

/-- What is kept for a vertex, if it is there. -/
def vertexAt? (t : Tree) (c : ClusterId) (v : LocalVertex) : Option VertexRecord :=
  (t.storage? c).bind (fun s => s.vertex? v)

/-- What is kept for an edge, if it is there. -/
def edgeAt? (t : Tree) (c : ClusterId) (e : LocalEdge) : Option EdgeRecord :=
  (t.storage? c).bind (fun s => s.edgeRecord? e)

theorem vertexRecord_eq_ok_iff {r : VertexRecord} :
    t.vertexRecord c v = .ok r ↔ t.vertexAt? c v = some r := by
  constructor
  · intro h
    obtain ⟨b, hb, hr⟩ := of_vertexRecord h
    rw [vertexAt?, storage?, hb]
    exact hr
  · intro h
    obtain ⟨s, hs, hr⟩ := Option.bind_eq_some_iff.mp h
    obtain ⟨b, hb, rfl⟩ := Option.map_eq_some_iff.mp hs
    exact vertexRecord_of_find? hb hr

theorem edgeRecord_eq_ok_iff {r : EdgeRecord} :
    t.edgeRecord c e = .ok r ↔ t.edgeAt? c e = some r := by
  constructor
  · intro h
    obtain ⟨b, hb, hr⟩ := of_edgeRecord h
    rw [edgeAt?, storage?, hb]
    exact hr
  · intro h
    obtain ⟨s, hs, hr⟩ := Option.bind_eq_some_iff.mp h
    obtain ⟨b, hb, rfl⟩ := Option.map_eq_some_iff.mp hs
    obtain ⟨l, hl, rfl⟩ := Option.map_eq_some_iff.mp hr
    exact edgeRecord_of_find? hb hl

theorem Distinct.vertexAt?_modifyVertex (hd : t.Distinct) (c : ClusterId) (v : LocalVertex)
    (f : VertexRecord → VertexRecord) (d : ClusterId) (w : LocalVertex) :
    (t.modifyVertex c v f).vertexAt? d w
      = if d = c ∧ w = v then (t.vertexAt? d w).map f else t.vertexAt? d w := by
  rw [vertexAt?, vertexAt?, modifyVertex, hd.bind_storage?_mapStorage]
  by_cases hdc : d = c
  · by_cases hw : w = v
    · rw [if_pos hdc, if_pos ⟨hdc, hw⟩, Option.map_bind, hw]
      simp only [Storage.vertex?_modifyVertex, if_pos]
      rfl
    · rw [if_pos hdc, if_neg (fun h => hw h.2)]
      simp only [Storage.vertex?_modifyVertex, if_neg hw]
  · rw [if_neg hdc, if_neg (fun h => hdc h.1)]

theorem Distinct.edgeAt?_modifyVertex (hd : t.Distinct) (c : ClusterId) (v : LocalVertex)
    (f : VertexRecord → VertexRecord) (d : ClusterId) (e : LocalEdge) :
    (t.modifyVertex c v f).edgeAt? d e = t.edgeAt? d e := by
  rw [edgeAt?, modifyVertex, hd.bind_storage?_mapStorage]
  exact ite_self _

theorem Distinct.vertexAt?_modifyEdge (hd : t.Distinct) (c : ClusterId) (e : LocalEdge)
    (f : EdgeRecord → EdgeRecord) (d : ClusterId) (v : LocalVertex) :
    (t.modifyEdge c e f).vertexAt? d v = t.vertexAt? d v := by
  rw [vertexAt?, modifyEdge, hd.bind_storage?_mapStorage]
  exact ite_self _

theorem Distinct.edgeAt?_modifyEdge (hd : t.Distinct) (c : ClusterId) (e : LocalEdge)
    (f : EdgeRecord → EdgeRecord) (d : ClusterId) (k : LocalEdge) :
    (t.modifyEdge c e f).edgeAt? d k
      = if d = c ∧ k = e then (t.edgeAt? d k).map f else t.edgeAt? d k := by
  rw [edgeAt?, edgeAt?, modifyEdge, hd.bind_storage?_mapStorage]
  by_cases hdc : d = c
  · by_cases hk : k = e
    · rw [if_pos hdc, if_pos ⟨hdc, hk⟩, Option.map_bind, hk]
      simp only [Storage.edgeRecord?_modifyEdge, if_pos]
      rfl
    · rw [if_pos hdc, if_neg (fun h => hk h.2)]
      simp only [Storage.edgeRecord?_modifyEdge, if_neg hk]
  · rw [if_neg hdc, if_neg (fun h => hdc h.1)]

namespace Place

/-- The vertex or the edge that a place is on. -/
def bearer : Place → Location
  | .vertex c v => .vertex c v
  | .edge c e _ => .edge c e none

/-- The layout of the property slots at a place. -/
def layout (config : Config) : Place → Layout
  | .vertex .. => config.vertex
  | .edge .. => config.edge

theorem bearer_vertex_iff {c d : ClusterId} {v w : LocalVertex} :
    (Place.vertex d w).bearer = (Place.vertex c v).bearer ↔ d = c ∧ w = v := by
  simp [bearer]

theorem bearer_edge_iff {c d : ClusterId} {e k : LocalEdge} {i j : Nat} :
    (Place.edge d k j).bearer = (Place.edge c e i).bearer ↔ d = c ∧ k = e := by
  simp [bearer]

theorem layout_of_bearer {p q : Place} (h : p.bearer = q.bearer) (config : Config) :
    p.layout config = q.layout config := by
  cases p <;> cases q <;> first | rfl | cases h

end Place

/-- The property slots at a place. -/
def values? (t : Tree) : Place → Option (List Value)
  | .vertex c v => (t.vertexAt? c v).map VertexRecord.properties
  | .edge c e _ => (t.edgeAt? c e).map EdgeRecord.properties

/-- The object slots at a place. -/
def slots? (t : Tree) : Place → Option (List (Option TypedObject))
  | .vertex c v => (t.vertexAt? c v).map VertexRecord.objects
  | .edge c e position =>
      (t.edgeAt? c e).bind (fun r => r.carried[position]?.map CarriedEdge.objects)

/-- The tree with other values in the property slots at a place. -/
def withValues (t : Tree) (values : List Value) : Place → Tree
  | .vertex c v => t.modifyVertex c v (fun r => { r with properties := values })
  | .edge c e _ => t.modifyEdge c e (fun r => { r with properties := values })

/-- The tree with other object slots at a place. -/
def withSlots (t : Tree) (slots : List (Option TypedObject)) : Place → Tree
  | .vertex c v => t.modifyVertex c v (fun r => { r with objects := slots })
  | .edge c e position => t.modifyEdge c e (fun r =>
      { r with carried := r.carried.modify position (fun x => { x with objects := slots }) })

section Changes

variable {values : List Value} {slots : List (Option TypedObject)} {p : Place}

theorem values?_of_bearer {q : Place} (h : q.bearer = p.bearer) : t.values? q = t.values? p := by
  cases p <;> cases q <;> cases h <;> rfl

theorem Distinct.sameFrame_withValues (hd : t.Distinct) (values : List Value) (p : Place) :
    t.SameFrame (t.withValues values p) := by
  cases p with
  | vertex c v => exact hd.sameFrame_modifyVertex c v (fun _ => rfl)
  | edge c e i => exact hd.sameFrame_modifyEdge c e (fun _ => rfl)

theorem Distinct.sameFrame_withSlots (hd : t.Distinct) (slots : List (Option TypedObject))
    (p : Place) : t.SameFrame (t.withSlots slots p) := by
  cases p with
  | vertex c v => exact hd.sameFrame_modifyVertex c v (fun _ => rfl)
  | edge c e i =>
      refine hd.sameFrame_modifyEdge c e (fun r => List.ext_getElem? (fun j => ?_))
      rw [EdgeRecord.globals, EdgeRecord.globals, List.getElem?_map, List.getElem?_map,
        List.getElem?_modify]
      split <;> cases r.carried[j]? <;> rfl

/-- Whatever is on the same vertex or edge reads the values. -/
theorem Distinct.values?_withValues (hd : t.Distinct) {old : List Value}
    (hp : t.values? p = some old) (q : Place) :
    (t.withValues values p).values? q = if q.bearer = p.bearer then some values else t.values? q := by
  cases p with
  | vertex c v =>
      cases q with
      | vertex d w =>
          rw [values?, withValues, hd.vertexAt?_modifyVertex]
          by_cases heq : d = c ∧ w = v
          · obtain ⟨rfl, rfl⟩ := heq
            obtain ⟨r, hr, -⟩ := Option.map_eq_some_iff.mp hp
            simp [hr]
          · rw [if_neg heq, if_neg (mt Place.bearer_vertex_iff.mp heq)]
            rfl
      | edge d k j =>
          rw [values?, withValues, hd.edgeAt?_modifyVertex, if_neg (fun h => nomatch h)]
          rfl
  | edge c e i =>
      cases q with
      | vertex d w =>
          rw [values?, withValues, hd.vertexAt?_modifyEdge, if_neg (fun h => nomatch h)]
          rfl
      | edge d k j =>
          rw [values?, withValues, hd.edgeAt?_modifyEdge]
          by_cases heq : d = c ∧ k = e
          · obtain ⟨rfl, rfl⟩ := heq
            obtain ⟨r, hr, -⟩ := Option.map_eq_some_iff.mp hp
            simp [hr, Place.bearer]
          · rw [if_neg heq, if_neg (mt Place.bearer_edge_iff.mp heq)]
            rfl

theorem Distinct.slots?_withValues (hd : t.Distinct) (values : List Value) (p q : Place) :
    (t.withValues values p).slots? q = t.slots? q := by
  cases p with
  | vertex c v =>
      cases q with
      | vertex d w =>
          rw [slots?, slots?, withValues, hd.vertexAt?_modifyVertex]
          split
          · cases t.vertexAt? d w <;> rfl
          · rfl
      | edge d k j => rw [slots?, slots?, withValues, hd.edgeAt?_modifyVertex]
  | edge c e i =>
      cases q with
      | vertex d w => rw [slots?, slots?, withValues, hd.vertexAt?_modifyEdge]
      | edge d k j =>
          rw [slots?, slots?, withValues, hd.edgeAt?_modifyEdge]
          split
          · cases t.edgeAt? d k <;> rfl
          · rfl

theorem Distinct.values?_withSlots (hd : t.Distinct) (slots : List (Option TypedObject))
    (p q : Place) : (t.withSlots slots p).values? q = t.values? q := by
  cases p with
  | vertex c v =>
      cases q with
      | vertex d w =>
          rw [values?, values?, withSlots, hd.vertexAt?_modifyVertex]
          split
          · cases t.vertexAt? d w <;> rfl
          · rfl
      | edge d k j => rw [values?, values?, withSlots, hd.edgeAt?_modifyVertex]
  | edge c e i =>
      cases q with
      | vertex d w => rw [values?, values?, withSlots, hd.vertexAt?_modifyEdge]
      | edge d k j =>
          rw [values?, values?, withSlots, hd.edgeAt?_modifyEdge]
          split
          · cases t.edgeAt? d k <;> rfl
          · rfl

/-- No other place reads the slots. -/
theorem Distinct.slots?_withSlots (hd : t.Distinct) {old : List (Option TypedObject)}
    (hp : t.slots? p = some old) (q : Place) :
    (t.withSlots slots p).slots? q = if q = p then some slots else t.slots? q := by
  cases p with
  | vertex c v =>
      cases q with
      | vertex d w =>
          rw [slots?, withSlots, hd.vertexAt?_modifyVertex]
          by_cases heq : d = c ∧ w = v
          · obtain ⟨rfl, rfl⟩ := heq
            obtain ⟨r, hr, -⟩ := Option.map_eq_some_iff.mp hp
            simp [hr]
          · rw [if_neg heq, if_neg (fun h => heq (Place.vertex.inj h))]
            rfl
      | edge d k j =>
          rw [slots?, withSlots, hd.edgeAt?_modifyVertex, if_neg (fun h => nomatch h)]
          rfl
  | edge c e i =>
      cases q with
      | vertex d w =>
          rw [slots?, withSlots, hd.vertexAt?_modifyEdge, if_neg (fun h => nomatch h)]
          rfl
      | edge d k j =>
          rw [slots?, withSlots, hd.edgeAt?_modifyEdge]
          by_cases heq : d = c ∧ k = e
          · obtain ⟨rfl, rfl⟩ := heq
            obtain ⟨r, hr, hslots⟩ := Option.bind_eq_some_iff.mp hp
            obtain ⟨x, hx, -⟩ := Option.map_eq_some_iff.mp hslots
            rw [if_pos ⟨rfl, rfl⟩, hr, Option.map_some, Option.bind_some, List.getElem?_modify]
            by_cases hji : j = i
            · subst hji
              simp [hx]
            · rw [if_neg (fun h => hji (Place.edge.inj h).2.2), slots?, hr, Option.bind_some]
              simp [Ne.symm hji]
          · rw [if_neg heq, if_neg (fun h => heq ⟨(Place.edge.inj h).1, (Place.edge.inj h).2.1⟩)]
            rfl

end Changes

end Tree

end NestedGraph
