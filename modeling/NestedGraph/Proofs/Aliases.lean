import NestedGraph.Proofs.Keeping

/-! # Aliases — every key for one thing reads what was written through any

    A vertex is named by its handle in its own cluster and by its id from
    every cluster around it; an edge by its handle and by each global edge
    that it carries.  Whatever names it, a key that names something leads to
    one PLACE.  What a key reads is what is kept at that place, and writing
    through a key changes what is kept there. -/

namespace NestedGraph

/-- The global edge that a key names, if it does. -/
def AttributeKey.edge? : AttributeKey → Option GlobalEdge
  | .globalEdge global => some global
  | _ => none

namespace Tree

variable {t t' : Tree} {count : UInt64} {c c' d : ClusterId} {v : LocalVertex} {e : LocalEdge}
  {key key' : AttributeKey} {p q : Place} {type : AttributeType}

/-! ## What a key means -/

/-- The place that a key means in a cluster: a local key one in the cluster
    itself, a global key one anywhere inside it.  On an edge that is named by
    its handle it is that of the first global edge. -/
def Addresses (t : Tree) (c : ClusterId) : AttributeKey → Place → Prop
  | .localVertex v, p => v ∈ t.vertices c ∧ p = .vertex c v
  | .localEdge e, p => e ∈ t.edges c ∧ p = .edge c e 0
  | .globalVertex global, p =>
      ∃ d v, t.isAncestor c d = true ∧ t.global? d v = some global ∧ p = .vertex d v
  | .globalEdge global, p =>
      ∃ d e i g, t.isAncestor c d = true ∧ (t.carried d e)[i]? = some g ∧ g.same global = true
        ∧ p = .edge d e i

theorem SameFrame.addresses_iff (h : t.SameFrame t') :
    t'.Addresses c key p ↔ t.Addresses c key p := by
  cases key <;> simp only [Addresses, isAncestor, h.vertices, h.edges, h.global?, h.carried, h.path]

/-- A key names something exactly if it means a place. -/
theorem names_iff_exists_addresses : t.Names c key ↔ ∃ p, t.Addresses c key p := by
  cases key with
  | localVertex v => exact ⟨fun h => ⟨_, h, rfl⟩, fun ⟨_, h, _⟩ => h⟩
  | localEdge e => exact ⟨fun h => ⟨_, h, rfl⟩, fun ⟨_, h, _⟩ => h⟩
  | globalVertex global =>
      exact ⟨fun ⟨d, v, hin, hv⟩ => ⟨_, d, v, hin, hv, rfl⟩, fun ⟨_, d, v, hin, hv, _⟩ =>
        ⟨d, v, hin, hv⟩⟩
  | globalEdge global =>
      constructor
      · rintro ⟨d, e, hin, g, hg, hsame⟩
        obtain ⟨i, hi⟩ := List.mem_iff_getElem?.mp hg
        exact ⟨_, d, e, i, g, hin, hi, hsame, rfl⟩
      · rintro ⟨_, d, e, i, g, hin, hi, hsame, -⟩
        exact ⟨d, e, hin, g, List.mem_of_getElem? hi, hsame⟩

/-- A key does not mean two places. -/
theorem Orderly.eq_of_addresses (ho : t.Orderly count) (hp : t.Addresses c key p)
    (hq : t.Addresses c key q) : p = q := by
  cases key with
  | localVertex v => exact hp.2.trans hq.2.symm
  | localEdge e => exact hp.2.trans hq.2.symm
  | globalVertex global =>
      obtain ⟨d, v, -, hv, rfl⟩ := hp
      obtain ⟨o, u, -, hu, rfl⟩ := hq
      obtain ⟨rfl, rfl⟩ := ho.eq_of_vertices hv hu
      rfl
  | globalEdge global =>
      obtain ⟨d, e, i, g, -, hg, hsame, rfl⟩ := hp
      obtain ⟨o, k, j, l, -, hl, hsame', rfl⟩ := hq
      have hid : l.id = g.id := (beq_iff_eq.mp hsame').trans (beq_iff_eq.mp hsame).symm
      obtain ⟨rfl, rfl, -⟩ := ho.eq_of_carried (List.mem_of_getElem? hg) (List.mem_of_getElem? hl) hid
      obtain rfl := ho.eq_of_positions hg hl hid
      rfl

/-- What is found when a key is resolved that means a place. -/
def Place.found (p : Place) (global : Option GlobalEdge) : Location :=
  match p with
  | .vertex c v => .vertex c v
  | .edge c e _ => .edge c e global

/-- Something is kept at a place, and a name that an edge there was looked up
    by means the very position. -/
def Keeps (t : Tree) (global : Option GlobalEdge) : Place → Prop
  | .vertex c v => ∃ r, t.vertexRecord c v = .ok r
  | .edge c e i => ∃ r x, t.edgeRecord c e = .ok r ∧ r.carried[i]? = some x
      ∧ (r.globals.map GlobalEdge.id).Nodup ∧ r.MeansAt i global

theorem Orderly.keeps_edge (ho : t.Orderly count) {i : Nat} {g : GlobalEdge}
    (hg : (t.carried c e)[i]? = some g) {global : Option GlobalEdge}
    (hmeans : match global with
      | none => i = 0
      | some global => g.same global = true) : t.Keeps global (.edge c e i) := by
  have hd := ho.sound.distinct
  obtain ⟨n, hn, rfl, hmem⟩ := exists_node_of_carried (List.mem_of_getElem? hg)
  obtain ⟨l, hl, -⟩ := Storage.mem_carried.mp hmem
  obtain ⟨b, hb, rfl⟩ := hd.find?_of_mem hn
  have hglobals : t.carried b.node.id e = l.record.globals := by
    rw [hd.carried_of_mem hn e, Storage.carried, Storage.edgeRecord?, hl]
    rfl
  rw [hglobals, EdgeRecord.globals, List.getElem?_map] at hg
  obtain ⟨x, hx, rfl⟩ := Option.map_eq_some_iff.mp hg
  refine ⟨l.record, x, edgeRecord_of_find? hb hl, hx,
    Storage.nodup_ids_of_link? (ho.named.nodup_node hn) hl, ?_⟩
  cases global with
  | none => exact hmeans
  | some global => exact ⟨x, hx, hmeans⟩

/-- A key that means a place is resolved to it. -/
theorem Orderly.resolve_of_addresses (ho : t.Orderly count) (h : t.Addresses c key p) :
    t.resolve c key = .ok (p.found key.edge?) ∧ t.Keeps key.edge? p := by
  have hd := ho.sound.distinct
  cases key with
  | localVertex v =>
      obtain ⟨hv, rfl⟩ := h
      obtain ⟨n, hn, rfl⟩ := exists_node_of_vertices hv
      obtain ⟨b, hb, rfl⟩ := hd.find?_of_mem hn
      have hhas : b.cluster.storage.hasVertex v = true := (hd.mem_vertices hn).mp hv
      obtain ⟨r, hr⟩ := Storage.hasVertex_iff.mp hhas
      refine ⟨?_, r, vertexRecord_of_find? hb hr⟩
      rw [resolve, requireVertex, require_of_find? hb, ok_bind, if_pos hhas]
      rfl
  | localEdge e =>
      obtain ⟨he, rfl⟩ := h
      obtain ⟨n, hn, rfl⟩ := exists_node_of_edges he
      obtain ⟨b, hb, rfl⟩ := hd.find?_of_mem hn
      have hhas : b.cluster.storage.hasEdge e = true := SlotStore.contains_iff.mpr ((hd.mem_edges hn).mp he)
      obtain ⟨g, rest, hcarried⟩ := List.exists_cons_of_ne_nil ((ho.sound.aggregates _).filled e he)
      refine ⟨?_, ho.keeps_edge (g := g) (by rw [hcarried]; rfl) rfl⟩
      rw [resolve, requireEdge, require_of_find? hb, ok_bind, if_pos hhas]
      rfl
  | globalVertex global =>
      obtain ⟨d, v, hin, hv, rfl⟩ := h
      obtain ⟨n, hn, rfl, hglobal⟩ := exists_node_of_global? hv
      have hc := hd.mem_ids_of_isAncestor (Multiset.mem_map_of_mem Node.id hn) hin
      obtain ⟨b, hb⟩ := mem_ids_iff.mp hc
      have howner := ho.vertexOwner?_eq_some.mpr ⟨hc, hin, hv⟩
      rw [vertexOwner?, hb] at howner
      obtain ⟨r, hr, -⟩ := Option.map_eq_some_iff.mp hglobal
      refine ⟨?_, r, hd.vertexRecord_of_mem hn hr⟩
      rw [resolve, require_of_find? hb, ok_bind, show b.vertexOwner? global = _ from howner]
      rfl
  | globalEdge global =>
      obtain ⟨d, e, i, g, hin, hg, hsame, rfl⟩ := h
      have hc := hd.mem_ids_of_isAncestor (mem_ids_of_carried (List.mem_of_getElem? hg)) hin
      obtain ⟨b, hb⟩ := mem_ids_iff.mp hc
      have howner := ho.edgeOwner?_eq_some.mpr
        ⟨hc, hin, g, List.mem_of_getElem? hg, beq_iff_eq.mp hsame⟩
      rw [edgeOwner?, hb] at howner
      refine ⟨?_, ho.keeps_edge hg hsame⟩
      rw [resolve, require_of_find? hb, ok_bind, show b.edgeOwner? global = _ from howner]
      rfl

/-- The error for a key that means nothing. -/
def unaddressed (t : Tree) (c : ClusterId) (key : AttributeKey) : Error :=
  if t.isLive c then key.missing else .clusterNotFound c

theorem Sound.resolve_of_not_addresses (hs : t.Sound) (h : ∀ p, ¬ t.Addresses c key p) :
    t.resolve c key = .error (t.unaddressed c key) := by
  cases hlive : t.isLive c with
  | false =>
      rw [resolve_of_dead hlive, unaddressed, hlive]
      rfl
  | true =>
      rcases hs.settles hlive key with ⟨hnames, -⟩ | ⟨-, hmissing⟩
      · obtain ⟨p, hp⟩ := names_iff_exists_addresses.mp hnames
        exact absurd hp (h p)
      · rw [hmissing, unaddressed, hlive]
        rfl

/-! ## Reading and writing at a place -/

theorem Distinct.modifyEdge_congr (hd : t.Distinct) {r : EdgeRecord} (hr : t.edgeRecord c e = .ok r)
    {f g : EdgeRecord → EdgeRecord} (hfg : f r = g r) : t.modifyEdge c e f = t.modifyEdge c e g := by
  obtain ⟨b, hb, hrecord⟩ := of_edgeRecord hr
  obtain ⟨l, hl, rfl⟩ := Option.map_eq_some_iff.mp hrecord
  have hstorage : b.cluster.storage.modifyEdge e f = b.cluster.storage.modifyEdge e g := by
    rw [Storage.modifyEdge, Storage.modifyEdge, SlotStore.modify_congr (a := l)
      (f := fun l => { l with record := f l.record }) (g := fun l => { l with record := g l.record }) hl
      (congrArg (fun record : EdgeRecord => ({ l with record := record } : Link)) hfg)]
  refine hd.update_congr hb ?_
  rw [Branch.mapStorage, Branch.mapStorage, hstorage]

section Places

variable (ho : t.Orderly count) (h : t.Addresses c key p)

include ho h

theorem Orderly.property_of_addresses (type : AttributeType) :
    ∃ values, t.values? p = some values
      ∧ t.property type c key = (p.layout t.config).read type values := by
  obtain ⟨hresolve, hkeeps⟩ := ho.resolve_of_addresses h
  rw [property_eq_useAt, hresolve, ok_bind]
  cases p with
  | vertex d v =>
      obtain ⟨r, hr⟩ := hkeeps
      refine ⟨r.properties, ?_, ?_⟩
      · rw [values?, vertexRecord_eq_ok_iff.mp hr]
        rfl
      · rw [Place.found, useAt, hr]
        rfl
  | edge d e i =>
      obtain ⟨r, x, hr, -⟩ := hkeeps
      refine ⟨r.properties, ?_, ?_⟩
      · rw [values?, edgeRecord_eq_ok_iff.mp hr]
        rfl
      · rw [Place.found, useAt, hr]
        rfl

/-- A value is written into the property slots at the place. -/
theorem Orderly.of_setProperty {value : Value} (hset : t.setProperty type c key value = .ok t') :
    ∃ values values', t.values? p = some values ∧ (p.layout t.config).Fits values
      ∧ (p.layout t.config).write type value values = .ok values' ∧ t' = t.withValues values' p := by
  obtain ⟨hresolve, hkeeps⟩ := ho.resolve_of_addresses h
  rw [setProperty_eq_useAt, hresolve, ok_bind] at hset
  cases p with
  | vertex d v =>
      obtain ⟨r, hr⟩ := hkeeps
      rw [Place.found, useAt, hr, ok_bind] at hset
      obtain ⟨values', hw, rfl⟩ := of_map_eq_ok hset
      refine ⟨r.properties, values', ?_, (ho.sound.fits_vertexRecord hr).1, hw, rfl⟩
      rw [values?, vertexRecord_eq_ok_iff.mp hr]
      rfl
  | edge d e i =>
      obtain ⟨r, x, hr, -⟩ := hkeeps
      rw [Place.found, useAt, hr, ok_bind] at hset
      obtain ⟨values', hw, rfl⟩ := of_map_eq_ok hset
      refine ⟨r.properties, values', ?_, (ho.sound.fits_edgeRecord hr).1, hw, rfl⟩
      rw [values?, edgeRecord_eq_ok_iff.mp hr]
      rfl

theorem Orderly.object_of_addresses (type : AttributeType) :
    ∃ slots, t.slots? p = some slots ∧ t.object type c key = t.config.objects.readObject type slots := by
  obtain ⟨hresolve, hkeeps⟩ := ho.resolve_of_addresses h
  rw [object, hresolve, ok_bind]
  cases p with
  | vertex d v =>
      obtain ⟨r, hr⟩ := hkeeps
      refine ⟨r.objects, ?_, ?_⟩
      · rw [slots?, vertexRecord_eq_ok_iff.mp hr]
        rfl
      · dsimp only [Place.found]
        rw [hr]
        rfl
  | edge d e i =>
      obtain ⟨r, x, hr, hx, hids, hmeans⟩ := hkeeps
      refine ⟨x.objects, ?_, ?_⟩
      · rw [slots?, edgeRecord_eq_ok_iff.mp hr, Option.bind_some, hx]
        rfl
      · dsimp only [Place.found]
        rw [hr, ok_bind, EdgeRecord.carriedFor_of_meansAt hids hmeans hx]
        rfl

/-- An object is written into the object slots at the place. -/
theorem Orderly.of_writeObject {object : Option TypedObject}
    (hset : t.writeObject type c key object = .ok t') :
    ∃ slots slots', t.slots? p = some slots
      ∧ t.config.objects.writeObject type object slots = .ok slots' ∧ t' = t.withSlots slots' p := by
  obtain ⟨hresolve, hkeeps⟩ := ho.resolve_of_addresses h
  rw [writeObject, hresolve, ok_bind] at hset
  cases p with
  | vertex d v =>
      obtain ⟨r, hr⟩ := hkeeps
      dsimp only [Place.found] at hset
      rw [hr, ok_bind] at hset
      obtain ⟨slots', hw, heq⟩ := of_bind_eq_ok hset
      refine ⟨r.objects, slots', ?_, hw, (Except.ok.inj heq).symm⟩
      rw [slots?, vertexRecord_eq_ok_iff.mp hr]
      rfl
  | edge d e i =>
      obtain ⟨r, x, hr, hx, hids, hmeans⟩ := hkeeps
      dsimp only [Place.found] at hset
      rw [hr, ok_bind, EdgeRecord.carriedFor_of_meansAt hids hmeans hx, ok_bind] at hset
      obtain ⟨slots', hw, heq⟩ := of_bind_eq_ok hset
      refine ⟨x.objects, slots', ?_, hw, ?_⟩
      · rw [slots?, edgeRecord_eq_ok_iff.mp hr, Option.bind_some, hx]
        rfl
      · obtain rfl := Except.ok.inj heq
        exact ho.sound.distinct.modifyEdge_congr hr
          (EdgeRecord.modifyCarried_of_meansAt hids hmeans hx _)

end Places

/-- What a key that means nothing reads does not depend on attributes. -/
theorem SameFrame.unaddressed (h : t.SameFrame t') : t'.unaddressed c key = t.unaddressed c key := by
  rw [Tree.unaddressed, Tree.unaddressed, h.live]

theorem Sound.property_of_not_addresses (hs : t.Sound) (h : ∀ p, ¬ t.Addresses c key p)
    (type : AttributeType) : t.property type c key = .error (t.unaddressed c key) := by
  rw [property, hs.resolve_of_not_addresses h]
  rfl

theorem Sound.object_of_not_addresses (hs : t.Sound) (h : ∀ p, ¬ t.Addresses c key p)
    (type : AttributeType) : t.object type c key = .error (t.unaddressed c key) := by
  rw [object, hs.resolve_of_not_addresses h]
  rfl

theorem Sound.exists_addresses_of_setProperty (hs : t.Sound) {value : Value}
    (h : t.setProperty type c key value = .ok t') : ∃ p, t.Addresses c key p := by
  by_contra hnone
  rw [setProperty, hs.resolve_of_not_addresses (not_exists.mp hnone)] at h
  cases h

theorem Sound.exists_addresses_of_writeObject (hs : t.Sound) {object : Option TypedObject}
    (h : t.writeObject type c key object = .ok t') : ∃ p, t.Addresses c key p := by
  by_contra hnone
  rw [writeObject, hs.resolve_of_not_addresses (not_exists.mp hnone)] at h
  cases h

section Congruence

variable (h : t.SameFrame t') (ho : t.Orderly count) (ho' : t'.Orderly count)

include h ho ho'

/-- A key reads the same property where the slots at what it means are the
    same. -/
theorem SameFrame.property_congr (hvalues : ∀ p, t.Addresses c key p → t'.values? p = t.values? p)
    (type : AttributeType) : t'.property type c key = t.property type c key := by
  by_cases hnames : ∃ p, t.Addresses c key p
  · obtain ⟨p, hp⟩ := hnames
    obtain ⟨values, hv, hread⟩ := ho.property_of_addresses hp type
    obtain ⟨values', hv', hread'⟩ := ho'.property_of_addresses (h.addresses_iff.mpr hp) type
    obtain rfl : values' = values := Option.some.inj (hv'.symm.trans ((hvalues p hp).trans hv))
    rw [hread, hread', h.config]
  · rw [ho.sound.property_of_not_addresses (not_exists.mp hnames), ho'.sound.property_of_not_addresses
      (fun p hp => hnames ⟨p, h.addresses_iff.mp hp⟩), h.unaddressed]

/-- A key reads the same objects where the slots at what it means are the
    same. -/
theorem SameFrame.object_congr (hslots : ∀ p, t.Addresses c key p → t'.slots? p = t.slots? p)
    (type : AttributeType) : t'.object type c key = t.object type c key := by
  by_cases hnames : ∃ p, t.Addresses c key p
  · obtain ⟨p, hp⟩ := hnames
    obtain ⟨slots, hv, hread⟩ := ho.object_of_addresses hp type
    obtain ⟨slots', hv', hread'⟩ := ho'.object_of_addresses (h.addresses_iff.mpr hp) type
    obtain rfl : slots' = slots := Option.some.inj (hv'.symm.trans ((hslots p hp).trans hv))
    rw [hread, hread', h.config]
  · rw [ho.sound.object_of_not_addresses (not_exists.mp hnames), ho'.sound.object_of_not_addresses
      (fun p hp => hnames ⟨p, h.addresses_iff.mp hp⟩), h.unaddressed]

end Congruence

/-! ## All objects on an edge -/

/-- The objects on an edge are listed as its global edges read them, in the
    order in which it carries these. -/
def ListsObjects (t : Tree) : Prop :=
  ∀ type c, ∀ e ∈ t.edges c, t.objects type c e
    = (t.carried c e).mapM (fun g => do return (g, ← t.object type c (.globalEdge g)))

theorem Orderly.listsObjects (ho : t.Orderly count) : t.ListsObjects := by
  intro type c e he
  obtain ⟨n, hn, rfl⟩ := exists_node_of_edges he
  obtain ⟨b, hb, rfl⟩ := ho.sound.distinct.find?_of_mem hn
  obtain ⟨l, hl⟩ := (ho.sound.distinct.mem_edges hn).mp he
  have hr := edgeRecord_of_find? hb hl
  have hcarried : t.carried b.node.id e = l.record.carried.map CarriedEdge.global := by
    rw [ho.sound.distinct.carried_of_mem hn, Storage.carried, Storage.edgeRecord?, hl]
    rfl
  rw [objects, hr, ok_bind, hcarried, List.mapM_map]
  refine mapM_congr (fun x hx => ?_)
  obtain ⟨i, hi⟩ := List.mem_iff_getElem?.mp hx
  have hg : (t.carried b.node.id e)[i]? = some x.global := by
    rw [hcarried, List.getElem?_map, hi]
    rfl
  have haddresses : t.Addresses b.node.id (.globalEdge x.global) (.edge b.node.id e i) :=
    ⟨_, e, i, x.global, isAncestor_self t _, hg, beq_self_eq_true _, rfl⟩
  obtain ⟨slots, hslots, hread⟩ := ho.object_of_addresses haddresses type
  rw [slots?, edgeRecord_eq_ok_iff.mp hr, Option.bind_some, hi] at hslots
  obtain rfl := Option.some.inj hslots
  rw [Function.comp_apply, hread]

/-! ## Writing and reading through keys -/

/-- The two keys mean the same vertex, or the same edge. -/
def SameEntity (t : Tree) (c : ClusterId) (key : AttributeKey) (c' : ClusterId)
    (key' : AttributeKey) : Prop :=
  ∃ p q, t.Addresses c key p ∧ t.Addresses c' key' q ∧ q.bearer = p.bearer

/-- The two keys mean the same vertex, or the same global edge. -/
def SamePlace (t : Tree) (c : ClusterId) (key : AttributeKey) (c' : ClusterId)
    (key' : AttributeKey) : Prop :=
  ∃ p, t.Addresses c key p ∧ t.Addresses c' key' p

/-- A property was given a value through a key: every key for the same vertex
    or edge reads it, and nothing else is read differently. -/
structure PutsValue (t t' : Tree) (type : AttributeType) (c : ClusterId) (key : AttributeKey)
    (value : Value) : Prop extends t.SameFrame t' where
  addressed : ∃ p, t.Addresses c key p
  written : ∀ c' key', t.SameEntity c key c' key' → t'.property type c' key' = .ok value
  others : ∀ other c' key', ¬ (other = type ∧ t.SameEntity c key c' key') →
    t'.property other c' key' = t.property other c' key'
  objects : ∀ other c' key', t'.object other c' key' = t.object other c' key'
  lists : t'.ListsObjects

/-- An object, or none, was put into a slot through a key: every key for the
    same vertex or global edge reads it, and nothing else is read
    differently. -/
structure PutsObject (t t' : Tree) (type : AttributeType) (c : ClusterId) (key : AttributeKey)
    (object : Option TypedObject) : Prop extends t.SameFrame t' where
  addressed : ∃ p, t.Addresses c key p
  written : ∀ c' key', t.SamePlace c key c' key' → t'.object type c' key' = .ok object
  others : ∀ other c' key', ¬ (other = type ∧ t.SamePlace c key c' key') →
    t'.object other c' key' = t.object other c' key'
  properties : ∀ other c' key', t'.property other c' key' = t.property other c' key'
  lists : t'.ListsObjects

theorem Orderly.putsValue (ho : t.Orderly count) {value : Value}
    (hset : t.setProperty type c key value = .ok t') : t.PutsValue t' type c key value := by
  obtain ⟨p, hp⟩ := ho.sound.exists_addresses_of_setProperty hset
  have ho' : t'.Orderly count := ho.restyled (ho.sound.becomes_setProperty hset).sound
    (ho.sound.distinct.restyled_setProperty hset)
  obtain ⟨old, new, hold, hfit, hw, rfl⟩ := ho.of_setProperty hp hset
  have hd := ho.sound.distinct
  have hframe := hd.sameFrame_withValues new p
  refine { hframe with addressed := ⟨p, hp⟩, written := ?written, others := ?others, objects := ?objects,
                       lists := ho'.listsObjects }
  case written =>
    rintro c' key' ⟨p', q, hp', hq, hbearer⟩
    obtain rfl := ho.eq_of_addresses hp hp'
    obtain ⟨values, hvalues, hread⟩ := ho'.property_of_addresses (hframe.addresses_iff.mpr hq) type
    rw [hd.values?_withValues hold, if_pos hbearer] at hvalues
    obtain rfl := Option.some.inj hvalues
    rw [hread, hframe.config, Place.layout_of_bearer hbearer]
    exact Layout.read_of_write hw (hfit.kind_of_write hw)
  case others =>
    intro other c' key' hnot
    by_cases hsame : t.SameEntity c key c' key'
    · obtain ⟨p', q, hp', hq, hbearer⟩ := hsame
      obtain rfl := ho.eq_of_addresses hp hp'
      have hne : other ≠ type := fun htype => hnot ⟨htype, p, q, hp, hq, hbearer⟩
      obtain ⟨values, hvalues, hread⟩ := ho'.property_of_addresses (hframe.addresses_iff.mpr hq) other
      rw [hd.values?_withValues hold, if_pos hbearer] at hvalues
      obtain rfl := Option.some.inj hvalues
      obtain ⟨before, hbefore, hread'⟩ := ho.property_of_addresses hq other
      rw [values?_of_bearer hbearer, hold] at hbefore
      obtain rfl := Option.some.inj hbefore
      rw [hread, hread', hframe.config, Place.layout_of_bearer hbearer]
      exact Layout.read_of_write_of_ne hne hw
    · refine hframe.property_congr ho ho' (fun q hq => ?_) other
      rw [hd.values?_withValues hold, if_neg (fun hbearer => hsame ⟨p, q, hp, hq, hbearer⟩)]
  case objects =>
    intro other c' key'
    exact hframe.object_congr ho ho' (fun q _ => hd.slots?_withValues new p q) other

theorem Orderly.putsObject (ho : t.Orderly count) {object : Option TypedObject}
    (htype : ∀ x ∈ object, x.type = type) (hset : t.writeObject type c key object = .ok t') :
    t.PutsObject t' type c key object := by
  obtain ⟨p, hp⟩ := ho.sound.exists_addresses_of_writeObject hset
  have ho' : t'.Orderly count := ho.restyled (ho.sound.becomes_writeObject hset).sound
    (ho.sound.distinct.restyled_writeObject hset)
  obtain ⟨old, new, hold, hw, rfl⟩ := ho.of_writeObject hp hset
  have hd := ho.sound.distinct
  have hframe := hd.sameFrame_withSlots new p
  refine { hframe with addressed := ⟨p, hp⟩, written := ?written, others := ?others,
                       properties := ?properties, lists := ho'.listsObjects }
  case written =>
    rintro c' key' ⟨p', hp', hq⟩
    obtain rfl := ho.eq_of_addresses hp hp'
    obtain ⟨slots, hslots, hread⟩ := ho'.object_of_addresses (hframe.addresses_iff.mpr hq) type
    rw [hd.slots?_withSlots hold, if_pos rfl] at hslots
    obtain rfl := Option.some.inj hslots
    rw [hread, hframe.config]
    exact Layout.readObject_of_writeObject hw htype
  case others =>
    intro other c' key' hnot
    by_cases hsame : t.SamePlace c key c' key'
    · obtain ⟨p', hp', hq⟩ := hsame
      obtain rfl := ho.eq_of_addresses hp hp'
      have hne : other ≠ type := fun htype => hnot ⟨htype, p, hp, hq⟩
      obtain ⟨slots, hslots, hread⟩ := ho'.object_of_addresses (hframe.addresses_iff.mpr hq) other
      rw [hd.slots?_withSlots hold, if_pos rfl] at hslots
      obtain rfl := Option.some.inj hslots
      obtain ⟨before, hbefore, hread'⟩ := ho.object_of_addresses hq other
      obtain rfl := Option.some.inj (hold.symm.trans hbefore)
      rw [hread, hread', hframe.config]
      exact Layout.readObject_of_writeObject_of_ne hne hw
    · refine hframe.object_congr ho ho' (fun q hq => ?_) other
      rw [hd.slots?_withSlots hold, if_neg (fun heq : q = p => hsame ⟨p, hp, heq ▸ hq⟩)]
  case properties =>
    intro other c' key'
    exact hframe.property_congr ho ho' (fun q _ => hd.values?_withSlots new p q) other

end Tree

/-! ## Runs -/

namespace Workspace

/-- **ALIASES**: whatever well-behaved callers did, a property that is set
    through one key is read through every key for the same vertex or edge, and
    an object that is put or cleared through one key through every key for the
    same vertex or global edge.  Nothing else is read differently.  The objects
    on an edge are those of its global edges. -/
theorem aliases_run {operations : List Operation} (h : empty.WellBehaved operations) {number : Nat}
    {m m' : Member} (hm : (empty.run operations).members[number]? = some m) {operation : Operation}
    {command : Command} (hop : operation.command? (empty.run operations).serial = some (number, command))
    {w' : Workspace} {reply : Reply}
    (hstep : (empty.run operations).step operation = (w', .ok reply))
    (hm' : w'.members[number]? = some m') :
    (∀ type c key value, command = .setProperty type c key value →
      m.tree.PutsValue m'.tree type c key value)
    ∧ (∀ c key object, command = .setObject c key object →
      m.tree.PutsObject m'.tree object.type c key (some object))
    ∧ (∀ type c key, command = .clearObject type c key →
      m.tree.PutsObject m'.tree type c key none)
    ∧ m.tree.ListsObjects := by
  have hordered := ordered_empty.run h
  obtain ⟨k, ids, g', hk, hids, hp, rfl⟩ := exists_perform_of_command? hordered.sound hop hstep hm'
  obtain rfl := Option.some.inj (hm.symm.trans hk)
  have ho := hordered.trees m (List.mem_of_getElem? hm) ids hids
  refine ⟨?_, ?_, ?_, ho.listsObjects⟩
  · rintro type c key value rfl
    obtain ⟨t', hset, rfl, -⟩ := Graph.of_quietly hp
    exact ho.putsValue hset
  · rintro c key object rfl
    obtain ⟨t', hset, heq⟩ := of_map_eq_ok hp
    obtain ⟨rfl, -⟩ := Prod.mk.inj heq
    exact ho.putsObject (fun x hx => congrArg TypedObject.type (Option.some.inj hx).symm) hset
  · rintro type c key rfl
    obtain ⟨t', hset, rfl, -⟩ := Graph.of_quietly hp
    exact ho.putsObject (fun x hx => nomatch hx) hset

/-- Two global edges are on one edge inside a child.  An object that is placed
    on the edge by its handle is that of the first of them, also by its name
    from the root; the other one has none. -/
theorem aliases_placeObject :
    let weight : AttributeType := ⟨"weight", .integer 0, 0⟩
    let operations := [Operation.newGraph (.declared [.object weight]) (.startingAt 100),
      .change 0 (.addCluster Tree.rootId), .change 0 (.addVertex ⟨1⟩), .change 0 (.addVertex ⟨1⟩),
      .change 0 (.addEdge ⟨1⟩ ⟨0, 0⟩ ⟨1, 0⟩), .change 0 (.connect Tree.rootId ⟨103⟩ ⟨102⟩)]
    let w := empty.run operations
    let operation := Operation.placeObject 0 ⟨1⟩ (.localEdge ⟨0, 0⟩) weight (.integer 7)
    let object : TypedObject := ⟨weight, 1, .integer 7⟩
    empty.WellBehaved operations ∧ ∃ m m', w.members[0]? = some m
      ∧ (w.step operation).1.members[0]? = some m'
      ∧ m.tree.PutsObject m'.tree weight ⟨1⟩ (.localEdge ⟨0, 0⟩) (some object)
      ∧ m'.tree.object weight Tree.rootId (.globalEdge ⟨⟨102⟩, ⟨103⟩, 104⟩) = .ok (some object)
      ∧ m'.tree.objects weight ⟨1⟩ ⟨0, 0⟩
        = .ok [(⟨⟨102⟩, ⟨103⟩, 104⟩, some object), (⟨⟨103⟩, ⟨102⟩, 105⟩, none)] := by
  intro weight operations w operation object
  have h : empty.WellBehaved operations := by decide +kernel
  have hreply : (w.step operation).2 = .ok (.serial 1) := by decide +kernel
  have hstep : w.step operation = ((w.step operation).1, .ok (.serial 1)) := by
    rw [← hreply]
  have hserial : w.serial = 0 := by decide +kernel
  have hop : operation.command? w.serial
      = some (0, .setObject ⟨1⟩ (.localEdge ⟨0, 0⟩) object) := by
    rw [hserial]
    rfl
  have hbefore : ∃ m, w.members[0]? = some m :=
    Option.isSome_iff_exists.mp (by decide +kernel)
  have hafter : ∃ m' ∈ (w.step operation).1.members[0]?,
      m'.tree.object weight Tree.rootId (.globalEdge ⟨⟨102⟩, ⟨103⟩, 104⟩) = .ok (some object)
        ∧ m'.tree.objects weight ⟨1⟩ ⟨0, 0⟩
          = .ok [(⟨⟨102⟩, ⟨103⟩, 104⟩, some object), (⟨⟨103⟩, ⟨102⟩, 105⟩, none)] := by
    decide +kernel
  obtain ⟨m, hm⟩ := hbefore
  obtain ⟨m', hm', hreads⟩ := hafter
  obtain ⟨-, hputs, -⟩ := aliases_run h hm hop hstep hm'
  exact ⟨h, m, m', hm, hm', hputs _ _ _ rfl, hreads⟩

end Workspace

end NestedGraph
