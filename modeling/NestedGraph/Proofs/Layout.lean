import NestedGraph.Tree.Marking
import NestedGraph.Proofs.Storage

/-! # Layouts — slots that fit the attribute types

    Slots FIT a layout when they hold one value for each type, of the
    type's own kind.  Initial values fit, and writing keeps the fit, so a
    property of a registered type can be read and written wherever its
    entity is found. -/

namespace NestedGraph

/-! ## Steps in a row -/

theorem ok_bind {α β : Type} (a : α) (f : α → Except Error β) :
    (Except.ok a : Except Error α) >>= f = f a := rfl

/-- Steps in a row succeed only when each of them does. -/
theorem of_bind_eq_ok {α β : Type} {x : Except Error α} {f : α → Except Error β} {r : β}
    (h : x >>= f = .ok r) : ∃ a, x = .ok a ∧ f a = .ok r := by
  cases x with
  | error e => exact nomatch h
  | ok a => exact ⟨a, rfl, h⟩

theorem of_map_eq_ok {α β : Type} {x : Except Error α} {f : α → β} {r : β}
    (h : f <$> x = .ok r) : ∃ a, x = .ok a ∧ f a = r := by
  cases x with
  | error e => exact nomatch h
  | ok a => exact ⟨a, rfl, Except.ok.inj h⟩

theorem mapM_congr {α β : Type} {f g : α → Except Error β} {l : List α} (h : ∀ x ∈ l, f x = g x) :
    l.mapM f = l.mapM g := by
  induction l with
  | nil => rfl
  | cons x rest ih =>
      rw [List.mapM_cons, List.mapM_cons, h x (List.mem_cons_self ..),
        ih (fun y hy => h y (List.mem_cons_of_mem _ hy))]

theorem mapM_eq_ok {α β : Type} {f : α → Except Error β} {g : α → β} {l : List α}
    (h : ∀ x ∈ l, f x = .ok (g x)) : l.mapM f = .ok (l.map g) := by
  rw [mapM_congr h]
  exact List.mapM_pure

/-! ## One entity -/

namespace Layout

/-- One value for each type, of the type's kind. -/
def Fits (l : Layout) (slots : List Value) : Prop :=
  slots.map Value.kind = l.types.map (fun type => type.initial.kind)

theorem fits_initialValues (l : Layout) : l.Fits l.initialValues := by
  simp [Fits, initialValues]

theorem Fits.getElem? {l : Layout} {slots : List Value} (h : l.Fits slots) (i : Nat) :
    slots[i]?.map Value.kind = l.types[i]?.map (fun type => type.initial.kind) := by
  rw [← List.getElem?_map, ← List.getElem?_map, h]

theorem Fits.set {l : Layout} {slots : List Value} (h : l.Fits slots) {i : Nat} {v value : Value}
    (hv : slots[i]? = some v) (hk : v.kind = value.kind) : l.Fits (slots.set i value) := by
  have hi : (slots.map Value.kind)[i]? = some value.kind := by rw [List.getElem?_map, hv]; simp [hk]
  obtain ⟨hlt, hget⟩ := List.getElem?_eq_some_iff.mp hi
  rw [Fits, List.map_set, ← hget, List.set_getElem_self, h]

/-- Writing keeps the fit. -/
theorem Fits.of_write {l : Layout} {type : AttributeType} {value : Value} {slots slots' : List Value}
    (h : l.Fits slots) (hw : l.write type value slots = .ok slots') : l.Fits slots' := by
  obtain ⟨i, -, hw⟩ := of_bind_eq_ok hw
  split at hw
  · rename_i v hv
    split at hw
    · rename_i hk
      obtain rfl := Except.ok.inj hw
      exact h.set hv hk
    · cases hw
  · cases hw

/-- A type of the layout has a slot, which holds a value of its kind. -/
theorem Fits.exists_slot {l : Layout} {type : AttributeType} {slots : List Value} (h : l.Fits slots)
    (hmem : type ∈ l.types) :
    ∃ i v, l.require type = .ok i ∧ slots[i]? = some v ∧ v.kind = type.initial.kind := by
  obtain ⟨i, hi⟩ := Option.isSome_iff_exists.mp ((l.contains_iff_mem type).mpr hmem)
  have hkind := h.getElem? i
  rw [getElem?_of_position? hi] at hkind
  obtain ⟨v, hv, hvk⟩ := Option.map_eq_some_iff.mp hkind
  exact ⟨i, v, by rw [require, hi], hv, hvk⟩

/-- A value of the right kind can be written for each type of the layout. -/
theorem Fits.write_eq_ok {l : Layout} {type : AttributeType} {value : Value} {slots : List Value}
    (h : l.Fits slots) (hmem : type ∈ l.types) (hk : value.kind = type.initial.kind) :
    ∃ slots', l.write type value slots = .ok slots' := by
  obtain ⟨i, v, hr, hv, hvk⟩ := h.exists_slot hmem
  refine ⟨slots.set i value, ?_⟩
  rw [write, hr, ok_bind, hv]
  exact if_pos (hvk.trans hk.symm)

/-- Each type of the layout can be read. -/
theorem Fits.read_eq_ok {l : Layout} {type : AttributeType} {slots : List Value}
    (h : l.Fits slots) (hmem : type ∈ l.types) : ∃ value, l.read type slots = .ok value := by
  obtain ⟨i, v, hr, hv, hvk⟩ := h.exists_slot hmem
  refine ⟨v, ?_⟩
  rw [read, hr, ok_bind, hv]
  exact if_pos hvk

/-- Reading gives what is in the slot of a type. -/
theorem read_eq_ok_iff {l : Layout} {type : AttributeType} {slots : List Value} {value : Value} :
    l.read type slots = .ok value ↔ ∃ i, l.position? type = some i ∧ slots[i]? = some value
      ∧ value.kind = type.initial.kind := by
  constructor
  · intro h
    obtain ⟨i, hi, h⟩ := of_bind_eq_ok h
    rw [require] at hi
    split at hi
    · rename_i j hj
      obtain rfl := Except.ok.inj hi
      split at h
      · split at h
        · rename_i v hv hkind
          obtain rfl := Except.ok.inj h
          exact ⟨j, hj, hv, hkind⟩
        · exact nomatch h
      · exact nomatch h
    · exact nomatch hi
  · rintro ⟨i, hi, hv, hkind⟩
    have hrequire : l.require type = .ok i := by
      rw [require, hi]
    rw [read, hrequire, ok_bind, hv]
    exact if_pos hkind

/-- The values in the slots are read alike under the same types. -/
theorem read_eq_ok_iff_of_types {l m : Layout} (h : l.types = m.types) {type : AttributeType}
    {slots : List Value} {value : Value} :
    l.read type slots = .ok value ↔ m.read type slots = .ok value := by
  rw [read_eq_ok_iff, read_eq_ok_iff, position?, position?, h]

theorem put_of_write {l : Layout} {type : AttributeType} {value : Value} {slots slots' : List Value}
    (hw : l.write type value slots = .ok slots') : l.put type value slots = slots' := by
  rw [put, hw]

/-- Of two values of one kind that are put, the later one stays. -/
theorem put_put {u v : Value} (hk : u.kind = v.kind) (l : Layout) (type : AttributeType)
    (slots : List Value) : l.put type v (l.put type u slots) = l.put type v slots := by
  cases hw : l.write type u slots with
  | error e =>
      have hput : l.put type u slots = slots := by rw [put, hw]
      rw [hput]
  | ok slots' =>
      rw [put_of_write hw]
      obtain ⟨i, hi, hw⟩ := of_bind_eq_ok hw
      cases hx : slots[i]? with
      | none =>
          rw [hx] at hw
          cases hw
      | some x =>
          rw [hx] at hw
          dsimp only at hw
          split at hw
          · rename_i hkind
            obtain rfl := Except.ok.inj hw
            have hlt := (List.getElem?_eq_some_iff.mp hx).1
            have hfirst : l.write type v slots = .ok (slots.set i v) := by
              rw [write, hi, ok_bind, hx]
              exact if_pos (hkind.trans hk)
            have hsecond : l.write type v (slots.set i u) = .ok ((slots.set i u).set i v) := by
              rw [write, hi, ok_bind, List.getElem?_set_self hlt]
              exact if_pos hk
            rw [put_of_write hfirst, put_of_write hsecond, List.set_set]
          · cases hw

theorem Fits.put {l : Layout} {slots : List Value} (h : l.Fits slots) (type : AttributeType)
    (value : Value) : l.Fits (l.put type value slots) := by
  unfold Layout.put
  split
  · rename_i slots' hw
    exact h.of_write hw
  · exact h

theorem length_of_writeObject {l : Layout} {type : AttributeType} {object : Option TypedObject}
    {slots slots' : List (Option TypedObject)} (h : l.writeObject type object slots = .ok slots') :
    slots'.length = slots.length := by
  unfold writeObject require at h
  split at h
  · rename_i i _
    change (if i < slots.length then Except.ok (slots.set i object)
      else Except.error (l.unregistered type)) = Except.ok slots' at h
    split at h
    · obtain rfl := Except.ok.inj h
      exact List.length_set
    · exact nomatch h
  · exact nomatch h

end Layout

/-- A vertex has the slots of the configuration. -/
def VertexRecord.Fits (config : Config) (r : VertexRecord) : Prop :=
  config.vertex.Fits r.properties ∧ r.objects.length = config.objects.types.length

/-- An edge, and each global edge on it, has the slots of the
    configuration. -/
def EdgeRecord.Fits (config : Config) (r : EdgeRecord) : Prop :=
  config.edge.Fits r.properties ∧ ∀ x ∈ r.carried, x.objects.length = config.objects.types.length

namespace Config

/-- The types that every configuration has are there. -/
structure Complete (c : Config) : Prop where
  vertex : vertexIndex ∈ c.vertex.types
  edge : edgeIndex ∈ c.edge.types
  cluster : changedFlag ∈ c.cluster.types

theorem mem_declareOnce (l : Layout) (type : AttributeType) :
    type ∈ (l.declareOnce type).types := by
  unfold Layout.declareOnce
  split
  · rename_i h
    exact (l.contains_iff_mem type).mp h
  · simp

theorem complete_complete (c : Config) : c.complete.Complete :=
  ⟨mem_declareOnce .., mem_declareOnce .., mem_declareOnce ..⟩

theorem complete_of_build {declarations : List Declaration} {c : Config}
    (h : build declarations = .ok c) : c.Complete := by
  unfold build at h
  cases hd : blank.declareAll declarations with
  | error e => rw [hd] at h; exact nomatch h
  | ok d =>
      rw [hd] at h
      obtain rfl := Except.ok.inj h
      exact complete_complete d

/-- A new vertex fits. -/
theorem fits_newVertex (c : Config) (global : GlobalVertex) : (c.newVertex global).Fits c :=
  ⟨c.vertex.fits_initialValues, by simp [newVertex, Layout.emptySlots]⟩

theorem length_newCarried (c : Config) (global : GlobalEdge) :
    (c.newCarried global).objects.length = c.objects.types.length := by
  simp [newCarried, Layout.emptySlots]

end Config

/-! ## One storage -/

namespace Storage

/-- All vertices and edges have the slots of the configuration. -/
structure Fits (config : Config) (s : Storage) : Prop where
  vertex : ∀ v r, s.vertex? v = some r → r.Fits config
  edge : ∀ e l, s.link? e = some l → l.record.Fits config

variable {config : Config} {s : Storage}

theorem Fits.addVertex (h : s.Fits config) (hs : s.vertices.Tidy) {r : VertexRecord}
    (hr : r.Fits config) : (s.addVertex r).Fits config := by
  refine ⟨fun v r' hr' => ?_, h.edge⟩
  rw [vertex?_addVertex hs] at hr'
  split at hr'
  · obtain rfl := Option.some.inj hr'
    exact hr
  · exact h.vertex v r' hr'

theorem Fits.modifyVertex (h : s.Fits config) (v : LocalVertex) {f : VertexRecord → VertexRecord}
    (hf : ∀ r, s.vertex? v = some r → r.Fits config → (f r).Fits config) :
    (s.modifyVertex v f).Fits config := by
  refine ⟨fun w r' hr' => ?_, h.edge⟩
  have hr' : (s.vertices.modify v f).get? w = some r' := hr'
  rw [SlotStore.get?_modify] at hr'
  split at hr'
  · obtain ⟨r, hr, rfl⟩ := Option.map_eq_some_iff.mp hr'
    exact hf r hr (h.vertex v r hr)
  · exact h.vertex w r' hr'

theorem Fits.modifyEdge (h : s.Fits config) (e : LocalEdge) {f : EdgeRecord → EdgeRecord}
    (hf : ∀ l, s.link? e = some l → l.record.Fits config → (f l.record).Fits config) :
    (s.modifyEdge e f).Fits config := by
  refine ⟨h.vertex, fun k l' hl' => ?_⟩
  rw [link?_modifyEdge] at hl'
  split at hl'
  · obtain ⟨l, hl, rfl⟩ := Option.map_eq_some_iff.mp hl'
    exact hf l hl (h.edge e l hl)
  · exact h.edge k l' hl'

theorem Fits.addEdge (h : s.Fits config) (hs : s.Listed) (a b : LocalVertex) {r : EdgeRecord}
    (hr : r.Fits config) : (s.addEdge a b r).Fits config := by
  refine ⟨h.vertex, fun k l hl => ?_⟩
  rw [link?_addEdge hs] at hl
  split at hl
  · obtain rfl := Option.some.inj hl
    exact hr
  · exact h.edge k l hl

theorem Fits.attach (h : s.Fits config) (hs : s.Listed) (a b : LocalVertex)
    {properties : List Value} {carried : List CarriedEdge}
    (hr : EdgeRecord.Fits config ⟨properties, carried⟩) :
    (s.attach a b properties carried).Fits config := by
  unfold Storage.attach
  split
  · refine h.modifyEdge _ (fun l _ hl => ⟨hl.1, fun x hx => ?_⟩)
    rcases List.mem_append.mp hx with hx | hx
    · exact hl.2 x hx
    · exact hr.2 x hx
  · exact h.addEdge hs a b hr

theorem Fits.attachLinks (h : s.Fits config) (hs : s.Listed) {links : List Link}
    (hl : ∀ l ∈ links, l.record.Fits config) : (s.attachLinks links).Fits config := by
  induction links generalizing s with
  | nil => exact h
  | cons l rest ih =>
      exact ih (h.attach hs _ _ (hl l (List.mem_cons_self ..))) (hs.attach ..)
        (fun m hm => hl m (List.mem_cons_of_mem _ hm))

/-- A storage that loses vertices, edges or parts of edges keeps its fit. -/
theorem Fits.shrink {s' : Storage} (h : s.Fits config)
    (hv : ∀ v r, s'.vertex? v = some r → s.vertex? v = some r)
    (hlink : ∀ e l', s'.link? e = some l' → ∃ l, s.link? e = some l
      ∧ l'.record.properties = l.record.properties
      ∧ ∀ x ∈ l'.record.carried, x ∈ l.record.carried) : s'.Fits config := by
  refine ⟨fun v r hr => h.vertex v r (hv v r hr), fun e l' hl' => ?_⟩
  obtain ⟨l, hl, hp, hc⟩ := hlink e l' hl'
  obtain ⟨h1, h2⟩ := h.edge e l hl
  exact ⟨hp ▸ h1, fun x hx => h2 x (hc x hx)⟩

theorem Fits.removeEdge (h : s.Fits config) (e : LocalEdge) : (s.removeEdge e).Fits config := by
  refine h.shrink (fun v r hr => hr) (fun k l hl => ?_)
  rw [link?_removeEdge] at hl
  split at hl
  · exact nomatch hl
  · exact ⟨l, hl, rfl, fun x hx => hx⟩

theorem Fits.removeVertex (h : s.Fits config) (v : LocalVertex) :
    (s.removeVertex v).Fits config := by
  refine h.shrink (fun w r hr => ?_) (fun k l hl => ?_)
  · rw [vertex?_removeVertex] at hr
    split at hr
    · exact nomatch hr
    · exact hr
  · rw [link?_removeVertex] at hl
    split at hl
    · exact nomatch hl
    · exact ⟨l, hl, rfl, fun x hx => hx⟩

theorem Fits.withdraw (h : s.Fits config) (p : GlobalEdge → Bool) (e : LocalEdge) :
    (s.withdraw p e).Fits config := by
  refine h.shrink (fun v r hr => ?_) (fun k l' hl' => ?_)
  · rwa [vertex?, vertices_withdraw] at hr
  · rw [link?_withdraw] at hl'
    split at hl'
    · rename_i hk
      subst hk
      obtain ⟨l, hl, hrest⟩ := Option.bind_eq_some_iff.mp hl'
      refine ⟨l, hl, ?_⟩
      unfold Link.rest? at hrest
      split at hrest
      · obtain rfl := Option.some.inj hrest
        exact ⟨rfl, fun x hx => hx⟩
      · split at hrest
        · exact nomatch hrest
        · obtain rfl := Option.some.inj hrest
          exact ⟨rfl, fun x hx => (List.mem_filter.mp hx).1⟩
    · exact ⟨l', hl', rfl, fun x hx => hx⟩

theorem Fits.withdrawAt (h : s.Fits config) (p : GlobalEdge → Bool) (v : LocalVertex) :
    (s.withdrawAt p v).Fits config := by
  unfold Storage.withdrawAt
  generalize s.incident v = es
  induction es generalizing s with
  | nil => exact h
  | cons e rest ih => exact ih (h.withdraw p e)

theorem fits_clear : s.clear.Fits config := by
  refine ⟨fun v r hr => ?_, fun e l hl => ?_⟩
  · rw [show s.clear.vertex? v = none from SlotStore.get?_clear ..] at hr
    exact nomatch hr
  · rw [show s.clear.link? e = none from SlotStore.get?_clear ..] at hl
    exact nomatch hl

theorem fits_empty : empty.Fits config := by
  refine ⟨fun v r hr => ?_, fun e l hl => ?_⟩
  · rw [show empty.vertex? v = none from SlotStore.get?_empty ..] at hr
    exact nomatch hr
  · rw [show empty.link? e = none from SlotStore.get?_empty ..] at hl
    exact nomatch hl

end Storage

end NestedGraph
