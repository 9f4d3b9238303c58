import NestedGraph.Proofs.Aggregation

/-! # Slots — every entity has those of its configuration

    The types of a configuration are declared once each, and every vertex,
    edge and cluster holds one value for each of its types, of the type's
    kind, wherever it came from.  So it depends on the configuration alone
    which properties there are: a property of an entity that is found is
    missing only if its type is not in the layout for such entities. -/

namespace NestedGraph

/-! ## Configurations -/

namespace Layout

variable {l l' : Layout} {type : AttributeType}

theorem of_declare (h : l.declare type = .ok l') :
    type ∉ l.types ∧ l' = { l with types := l.types ++ [type] } := by
  rw [declare] at h
  split at h
  · exact nomatch h
  · rename_i hnew
    exact ⟨fun hmem => hnew ((l.contains_iff_mem type).mpr hmem), (Except.ok.inj h).symm⟩

theorem declareOnce_cases (l : Layout) (type : AttributeType) :
    l.declareOnce type = l
      ∨ type ∉ l.types ∧ l.declareOnce type = { l with types := l.types ++ [type] } := by
  rw [declareOnce]
  split
  · exact Or.inl rfl
  · rename_i hnew
    exact Or.inr ⟨fun hmem => hnew ((l.contains_iff_mem type).mpr hmem), rfl⟩

/-- Messages call the entities of a layout by this name, and no type is in it
    twice. -/
def Called (l : Layout) (kind : String) : Prop := l.kind = kind ∧ l.types.Nodup

theorem Called.append {kind : String} (h : l.Called kind) (hnew : type ∉ l.types) :
    ({ l with types := l.types ++ [type] } : Layout).Called kind :=
  ⟨h.1, List.nodup_append.mpr ⟨h.2, List.nodup_singleton _, fun _ ha _ hb heq =>
    hnew (List.mem_singleton.mp hb ▸ heq ▸ ha)⟩⟩

theorem Called.declare {kind : String} (h : l.Called kind) (hd : l.declare type = .ok l') :
    l'.Called kind := by
  obtain ⟨hnew, rfl⟩ := of_declare hd
  exact h.append hnew

theorem Called.declareOnce {kind : String} (h : l.Called kind) (type : AttributeType) :
    (l.declareOnce type).Called kind := by
  rcases l.declareOnce_cases type with heq | ⟨hnew, heq⟩
  · rw [heq]
    exact h
  · rw [heq]
    exact h.append hnew

end Layout

namespace Config

variable {c c' : Config}

/-- The layouts of a configuration have their names, and each type once. -/
structure Regular (c : Config) : Prop where
  vertex : c.vertex.Called "vertex property"
  edge : c.edge.Called "edge property"
  cluster : c.cluster.Called "cluster property"
  objects : c.objects.Called "object"

theorem regular_blank : blank.Regular :=
  ⟨⟨rfl, List.nodup_nil⟩, ⟨rfl, List.nodup_nil⟩, ⟨rfl, List.nodup_nil⟩, ⟨rfl, List.nodup_nil⟩⟩

theorem Regular.declare (h : c.Regular) {d : Declaration} (hd : c.declare d = .ok c') :
    c'.Regular := by
  cases d with
  | vertex type =>
      obtain ⟨l, hl, heq⟩ := of_bind_eq_ok hd
      obtain rfl := Except.ok.inj heq
      exact { h with vertex := h.vertex.declare hl }
  | edge type =>
      obtain ⟨l, hl, heq⟩ := of_bind_eq_ok hd
      obtain rfl := Except.ok.inj heq
      exact { h with edge := h.edge.declare hl }
  | cluster type =>
      obtain ⟨l, hl, heq⟩ := of_bind_eq_ok hd
      obtain rfl := Except.ok.inj heq
      exact { h with cluster := h.cluster.declare hl }
  | object type =>
      obtain ⟨l, hl, heq⟩ := of_bind_eq_ok hd
      obtain rfl := Except.ok.inj heq
      exact { h with objects := h.objects.declare hl }
  | vertexCapacity n =>
      obtain rfl := Except.ok.inj hd
      exact ⟨h.vertex, h.edge, h.cluster, h.objects⟩
  | edgeCapacity n =>
      obtain rfl := Except.ok.inj hd
      exact ⟨h.vertex, h.edge, h.cluster, h.objects⟩

theorem Regular.declareAll {declarations : List Declaration} (h : c.Regular)
    (hd : c.declareAll declarations = .ok c') : c'.Regular := by
  induction declarations generalizing c with
  | nil =>
      obtain rfl := Except.ok.inj hd
      exact h
  | cons d rest ih =>
      obtain ⟨next, hnext, hd⟩ := of_bind_eq_ok hd
      exact ih (h.declare hnext) hd

theorem Regular.complete (h : c.Regular) : c.complete.Regular :=
  ⟨h.vertex.declareOnce _, h.edge.declareOnce _, h.cluster.declareOnce _, h.objects⟩

theorem regular_of_build {declarations : List Declaration} (h : build declarations = .ok c) :
    c.Regular := by
  obtain ⟨d, hd, heq⟩ := of_bind_eq_ok h
  obtain rfl := Except.ok.inj heq
  exact (regular_blank.declareAll hd).complete

end Config

/-! ## Reading and writing -/

namespace Layout

variable {l : Layout} {type : AttributeType}

theorem require_of_notMem (h : type ∉ l.types) : l.require type = .error (l.unregistered type) := by
  rw [require]
  split
  · rename_i i hi
    exact absurd (List.mem_of_getElem? (getElem?_of_position? hi)) h
  · rfl

theorem read_of_notMem (h : type ∉ l.types) (slots : List Value) :
    l.read type slots = .error (l.unregistered type) := by
  rw [read, require_of_notMem h]
  rfl

theorem write_of_notMem (h : type ∉ l.types) (value : Value) (slots : List Value) :
    l.write type value slots = .error (l.unregistered type) := by
  rw [write, require_of_notMem h]
  rfl

end Layout

/-- The error for a key that names nothing. -/
def AttributeKey.missing : AttributeKey → Error
  | .localVertex v => .invalidLocalVertex v
  | .localEdge e => .invalidLocalEdge e
  | .globalVertex global => .vertexNotFound global
  | .globalEdge global => .edgeNotFound global

namespace Tree

variable {t : Tree} {c : ClusterId} {type : AttributeType}

/-- The key names something in a cluster, or for a global key anywhere inside
    it. -/
def Names (t : Tree) (c : ClusterId) : AttributeKey → Prop
  | .localVertex v => v ∈ t.vertices c
  | .localEdge e => e ∈ t.edges c
  | .globalVertex global => ∃ d v, t.isAncestor c d = true ∧ t.global? d v = some global
  | .globalEdge global => ∃ d e, t.isAncestor c d = true ∧ ∃ g ∈ t.carried d e, g.same global = true

/-- The layout for what a key names. -/
def layoutOf (t : Tree) (key : AttributeKey) : Layout :=
  if key.isVertex then t.config.vertex else t.config.edge

/-- What comes of a use of a property: it succeeds if the cluster is alive, the
    key names something there and the type is in the layout.  The first of
    these that does not hold is the error. -/
structure Answers {α : Type} (t : Tree) (type : AttributeType) (c : ClusterId) (key : AttributeKey)
    (x : Except Error α) : Prop where
  clusterNotFound : x = .error (.clusterNotFound c) ↔ t.isLive c = false
  missing : x = .error key.missing ↔ t.isLive c = true ∧ ¬ t.Names c key
  unregistered : x = .error (.unregisteredType (t.layoutOf key).kind type.name)
    ↔ t.isLive c = true ∧ t.Names c key ∧ type ∉ (t.layoutOf key).types
  succeeds : (∃ a, x = .ok a)
    ↔ t.isLive c = true ∧ t.Names c key ∧ type ∈ (t.layoutOf key).types

/-- The four answers are different, so it is enough to know which one comes
    when. -/
theorem answers_of {α : Type} {key : AttributeKey} {x : Except Error α}
    (hdead : t.isLive c = false → x = .error (.clusterNotFound c))
    (hmissing : t.isLive c = true → ¬ t.Names c key → x = .error key.missing)
    (hnone : t.isLive c = true → t.Names c key → type ∉ (t.layoutOf key).types →
      x = .error (.unregisteredType (t.layoutOf key).kind type.name))
    (hok : t.isLive c = true → t.Names c key → type ∈ (t.layoutOf key).types → ∃ a, x = .ok a) :
    t.Answers type c key x := by
  have hne : key.missing ≠ .clusterNotFound c := by
    cases key <;> exact nofun
  have hne' : ∀ kind name, key.missing ≠ .unregisteredType kind name := by
    cases key <;> exact nofun
  cases hlive : t.isLive c with
  | false =>
      obtain rfl := hdead hlive
      constructor <;> simp [hlive, Ne.symm hne]
  | true =>
      by_cases hnames : t.Names c key
      · by_cases htype : type ∈ (t.layoutOf key).types
        · obtain ⟨a, rfl⟩ := hok hlive hnames htype
          constructor <;> simp [hlive, hnames, htype]
        · obtain rfl := hnone hlive hnames htype
          constructor <;> simp [hlive, hnames, htype, Ne.symm (hne' _ _)]
      · obtain rfl := hmissing hlive hnames
        constructor <;> simp [hlive, hnames, hne, hne']

/-! ### Keys -/

theorem require_of_dead (h : t.isLive c = false) : t.require c = .error (.clusterNotFound c) := by
  rw [require]
  cases hb : t.find? c with
  | none => rfl
  | some b =>
      rw [isLive, hb] at h
      cases h

theorem exists_find?_of_isLive (h : t.isLive c = true) : ∃ b, t.find? c = some b :=
  Option.isSome_iff_exists.mp h

/-- What is inside a cluster is in its branch. -/
theorem Sound.mem_nodes_of_isAncestor (hs : t.Sound) {b : Branch} (hb : t.find? c = some b)
    {n : Node} (hn : n ∈ t.nodes) (h : t.isAncestor c n.id = true) : n ∈ b.nodes := by
  -- Any vertex of the cluster serves to go by the way up from it.
  obtain ⟨w, hleads⟩ := hs.distinct.exists_leads h ⟨0, 0⟩
  exact hleads.mem_nodes hs hb hn rfl

/-- A place of the kind that a key names, with what is kept for it. -/
def Holds (t : Tree) (key : AttributeKey) : Location → Prop
  | .vertex owner v => key.isVertex = true ∧ ∃ r, t.vertexRecord owner v = .ok r
  | .edge owner e _ => key.isVertex = false ∧ ∃ r, t.edgeRecord owner e = .ok r

theorem resolve_of_dead (h : t.isLive c = false) (key : AttributeKey) :
    t.resolve c key = .error (.clusterNotFound c) := by
  cases key with
  | localVertex v =>
      rw [resolve, requireVertex, require_of_dead h]
      rfl
  | localEdge e =>
      rw [resolve, requireEdge, require_of_dead h]
      rfl
  | globalVertex global =>
      rw [resolve, require_of_dead h]
      rfl
  | globalEdge global =>
      rw [resolve, require_of_dead h]
      rfl

/-- A key leads to a place exactly if it names something in the cluster. -/
def Settles (t : Tree) (c : ClusterId) (key : AttributeKey) : Prop :=
  (t.Names c key ∧ ∃ place, t.resolve c key = .ok place ∧ t.Holds key place)
    ∨ ¬ t.Names c key ∧ t.resolve c key = .error key.missing

section Keys

variable {b : Branch}

theorem Sound.settles_localVertex (hs : t.Sound) (hb : t.find? c = some b) (v : LocalVertex) :
    t.Settles c (.localVertex v) := by
  obtain rfl := id_of_find? hb
  have hnames : t.Names b.cluster.id (.localVertex v) ↔ b.cluster.storage.hasVertex v = true :=
    hs.distinct.mem_vertices (node_mem_of_find? hb)
  rw [Settles, resolve, requireVertex, require_of_find? hb, ok_bind, hnames]
  cases hv : b.cluster.storage.hasVertex v with
  | false => exact Or.inr ⟨Bool.false_ne_true, rfl⟩
  | true =>
      obtain ⟨r, hr⟩ := Storage.hasVertex_iff.mp hv
      exact Or.inl ⟨rfl, _, rfl, rfl, r, vertexRecord_of_find? hb hr⟩

theorem Sound.settles_localEdge (hs : t.Sound) (hb : t.find? c = some b) (e : LocalEdge) :
    t.Settles c (.localEdge e) := by
  obtain rfl := id_of_find? hb
  have hnames : t.Names b.cluster.id (.localEdge e) ↔ b.cluster.storage.hasEdge e = true := by
    rw [Storage.hasEdge, SlotStore.contains_iff]
    exact hs.distinct.mem_edges (node_mem_of_find? hb)
  rw [Settles, resolve, requireEdge, require_of_find? hb, ok_bind, hnames]
  cases he : b.cluster.storage.hasEdge e with
  | false => exact Or.inr ⟨Bool.false_ne_true, rfl⟩
  | true =>
      obtain ⟨l, hl⟩ := SlotStore.contains_iff.mp he
      exact Or.inl ⟨rfl, _, rfl, rfl, l.record, edgeRecord_of_find? hb hl⟩

/-- By its global name a vertex is found wherever it is inside the cluster. -/
theorem Sound.settles_globalVertex (hs : t.Sound) (hb : t.find? c = some b)
    (global : GlobalVertex) : t.Settles c (.globalVertex global) := by
  obtain rfl := id_of_find? hb
  have hd := hs.distinct
  rw [Settles, resolve, require_of_find? hb, ok_bind]
  cases howner : b.vertexOwner? global with
  | none =>
      refine Or.inr ⟨?_, rfl⟩
      rintro ⟨d, v, hinside, hv⟩
      obtain ⟨m, hm, rfl, hglobal⟩ := exists_node_of_global? hv
      have hmem := hs.mem_nodes_of_isAncestor hb hm hinside
      obtain ⟨o, u, hfound⟩ :=
        Branch.exists_vertexOwner? (Branch.mem_globals.mpr ⟨m, hmem, v, hglobal⟩)
      cases howner.symm.trans hfound
  | some place =>
      obtain ⟨owner, v⟩ := place
      obtain ⟨m, hm, rfl, hglobal⟩ := Branch.of_vertexOwner? howner
      have hmem := Multiset.mem_of_le (nodes_le_of_find? hb) hm
      obtain ⟨r, hr, -⟩ := Option.map_eq_some_iff.mp hglobal
      refine Or.inl ⟨⟨m.id, v, isAncestor_of_mem_nodes hd hb hm, ?_⟩, _, rfl, rfl, r, ?_⟩
      · rw [hd.global?_of_mem hmem]
        exact hglobal
      · exact hd.vertexRecord_of_mem hmem hr

theorem Sound.settles_globalEdge (hs : t.Sound) (hb : t.find? c = some b) (global : GlobalEdge) :
    t.Settles c (.globalEdge global) := by
  obtain rfl := id_of_find? hb
  have hd := hs.distinct
  rw [Settles, resolve, require_of_find? hb, ok_bind]
  cases howner : b.edgeOwner? global with
  | none =>
      refine Or.inr ⟨?_, rfl⟩
      rintro ⟨d, e, hinside, g, hg, hsame⟩
      obtain ⟨m, hm, rfl, hcarried⟩ := exists_node_of_carried hg
      have hmem := hs.mem_nodes_of_isAncestor hb hm hinside
      obtain ⟨o, k, hfound⟩ := Branch.exists_edgeOwner? hmem hcarried (beq_iff_eq.mp hsame)
      cases howner.symm.trans hfound
  | some place =>
      obtain ⟨owner, e⟩ := place
      obtain ⟨m, hm, rfl, g, hg, hid⟩ := Branch.of_edgeOwner? howner
      have hmem := Multiset.mem_of_le (nodes_le_of_find? hb) hm
      obtain ⟨l, hl, -⟩ := Storage.mem_carried.mp hg
      obtain ⟨k, hk, rfl⟩ := hd.find?_of_mem hmem
      refine Or.inl ⟨⟨k.cluster.id, e, isAncestor_of_mem_nodes hd hb hm, g, ?_, ?_⟩,
        _, rfl, rfl, l.record, edgeRecord_of_find? hk hl⟩
      · exact (hd.carried_of_mem hmem e).symm ▸ hg
      · exact beq_iff_eq.mpr hid

end Keys

theorem Sound.settles (hs : t.Sound) (hlive : t.isLive c = true) (key : AttributeKey) :
    t.Settles c key := by
  obtain ⟨b, hb⟩ := exists_find?_of_isLive hlive
  cases key with
  | localVertex v => exact hs.settles_localVertex hb v
  | localEdge e => exact hs.settles_localEdge hb e
  | globalVertex global => exact hs.settles_globalVertex hb global
  | globalEdge global => exact hs.settles_globalEdge hb global

/-! ### Records -/

theorem Sound.fits_vertexRecord (hs : t.Sound) {v : LocalVertex} {r : VertexRecord}
    (h : t.vertexRecord c v = .ok r) : r.Fits t.config := by
  obtain ⟨b, hb, hr⟩ := of_vertexRecord h
  exact (hs.nodes b.node (node_mem_of_find? hb)).fits.vertex v r hr

theorem Sound.fits_edgeRecord (hs : t.Sound) {e : LocalEdge} {r : EdgeRecord}
    (h : t.edgeRecord c e = .ok r) : r.Fits t.config := by
  obtain ⟨b, hb, hr⟩ := of_edgeRecord h
  obtain ⟨l, hl, rfl⟩ := Option.map_eq_some_iff.mp hr
  exact (hs.nodes b.node (node_mem_of_find? hb)).fits.edge e l hl

/-- Does something with what is kept at a place. -/
def useAt {α : Type} (t : Tree) (onVertex : ClusterId → LocalVertex → VertexRecord → Except Error α)
    (onEdge : ClusterId → LocalEdge → EdgeRecord → Except Error α) : Location → Except Error α
  | .vertex owner v => t.vertexRecord owner v >>= onVertex owner v
  | .edge owner e _ => t.edgeRecord owner e >>= onEdge owner e

/-- Using a property of what a key names answers as it should, if it depends
    on the layout alone what comes of it on slots that fit. -/
theorem Sound.answers_useAt {α : Type} (hs : t.Sound) (key : AttributeKey)
    {onVertex : ClusterId → LocalVertex → VertexRecord → Except Error α}
    {onEdge : ClusterId → LocalEdge → EdgeRecord → Except Error α}
    (hvertex : ∀ o v r, t.config.vertex.Fits r.properties →
      (type ∉ t.config.vertex.types → onVertex o v r = .error (t.config.vertex.unregistered type))
        ∧ (type ∈ t.config.vertex.types → ∃ a, onVertex o v r = .ok a))
    (hedge : ∀ o e r, t.config.edge.Fits r.properties →
      (type ∉ t.config.edge.types → onEdge o e r = .error (t.config.edge.unregistered type))
        ∧ (type ∈ t.config.edge.types → ∃ a, onEdge o e r = .ok a)) :
    t.Answers type c key (t.resolve c key >>= t.useAt onVertex onEdge) := by
  -- Where a key leads, there is a record of the kind that the key is for, so the
  -- layout to ask is that of the key.
  have hplace : ∀ place, t.Holds key place →
      (type ∉ (t.layoutOf key).types →
        t.useAt onVertex onEdge place = .error ((t.layoutOf key).unregistered type))
      ∧ (type ∈ (t.layoutOf key).types → ∃ a, t.useAt onVertex onEdge place = .ok a) := by
    intro place hholds
    cases place with
    | vertex o v =>
        obtain ⟨hkey, r, hr⟩ := hholds
        rw [layoutOf, if_pos hkey, useAt, hr, ok_bind]
        exact hvertex o v r (hs.fits_vertexRecord hr).1
    | edge o e global =>
        obtain ⟨hkey, r, hr⟩ := hholds
        rw [layoutOf, if_neg (Bool.eq_false_iff.mp hkey), useAt, hr, ok_bind]
        exact hedge o e r (hs.fits_edgeRecord hr).1
  refine answers_of (fun hdead => ?_) (fun hlive hnot => ?_) (fun hlive hnames htype => ?_)
    (fun hlive hnames htype => ?_)
  · rw [resolve_of_dead hdead]
    rfl
  · rcases hs.settles hlive key with ⟨hnames, -⟩ | ⟨-, hmissing⟩
    · exact absurd hnames hnot
    · rw [hmissing]
      rfl
  · rcases hs.settles hlive key with ⟨-, place, hresolve, hholds⟩ | ⟨hnot, -⟩
    · rw [hresolve, ok_bind]
      exact (hplace place hholds).1 htype
    · exact absurd hnames hnot
  · rcases hs.settles hlive key with ⟨-, place, hresolve, hholds⟩ | ⟨hnot, -⟩
    · rw [hresolve, ok_bind]
      exact (hplace place hholds).2 htype
    · exact absurd hnames hnot

/-- Reading a property is to use it. -/
theorem property_eq_useAt (t : Tree) (type : AttributeType) (c : ClusterId) (key : AttributeKey) :
    t.property type c key = t.resolve c key >>= t.useAt
      (fun _ _ r => t.config.vertex.read type r.properties)
      (fun _ _ r => t.config.edge.read type r.properties) := by
  rw [property]
  refine congrArg (t.resolve c key >>= ·) (funext (fun place => ?_))
  cases place <;> rfl

theorem setProperty_eq_useAt (t : Tree) (type : AttributeType) (c : ClusterId) (key : AttributeKey)
    (value : Value) : t.setProperty type c key value = t.resolve c key >>= t.useAt
      (fun o v r => (t.config.vertex.write type value r.properties).map (fun properties =>
        t.modifyVertex o v (fun r => { r with properties := properties })))
      (fun o e r => (t.config.edge.write type value r.properties).map (fun properties =>
        t.modifyEdge o e (fun r => { r with properties := properties }))) := by
  rw [setProperty]
  refine congrArg (t.resolve c key >>= ·) (funext (fun place => ?_))
  cases place <;> rfl

theorem Sound.answers_property (hs : t.Sound) (type : AttributeType) (c : ClusterId)
    (key : AttributeKey) : t.Answers type c key (t.property type c key) := by
  rw [property_eq_useAt]
  exact hs.answers_useAt key
    (fun _ _ _ hfit => ⟨fun hnot => Layout.read_of_notMem hnot _, hfit.read_eq_ok⟩)
    (fun _ _ _ hfit => ⟨fun hnot => Layout.read_of_notMem hnot _, hfit.read_eq_ok⟩)

theorem Sound.answers_setProperty (hs : t.Sound) (c : ClusterId) (key : AttributeKey)
    {value : Value} (hk : value.kind = type.initial.kind) :
    t.Answers type c key (t.setProperty type c key value) := by
  have hwrite : ∀ {l : Layout} {slots : List Value} (f : List Value → Tree), l.Fits slots →
      (type ∉ l.types → (l.write type value slots).map f = .error (l.unregistered type))
        ∧ (type ∈ l.types → ∃ t', (l.write type value slots).map f = .ok t') := by
    intro l slots f hfit
    refine ⟨fun hnot => ?_, fun hmem => ?_⟩
    · rw [Layout.write_of_notMem hnot]
      rfl
    · obtain ⟨slots', hw⟩ := hfit.write_eq_ok hmem hk
      rw [hw]
      exact ⟨_, rfl⟩
  rw [setProperty_eq_useAt]
  exact hs.answers_useAt key (fun o v r hfit => hwrite _ hfit) (fun o e r hfit => hwrite _ hfit)

/-! ### Clusters -/

/-- A property of a cluster that is alive is there if its type is in the
    layout of clusters. -/
structure ClusterAnswers {α : Type} (t : Tree) (type : AttributeType) (c : ClusterId)
    (x : Except Error α) : Prop where
  clusterNotFound : x = .error (.clusterNotFound c) ↔ t.isLive c = false
  unregistered : x = .error (.unregisteredType t.config.cluster.kind type.name)
    ↔ t.isLive c = true ∧ type ∉ t.config.cluster.types
  succeeds : (∃ a, x = .ok a) ↔ t.isLive c = true ∧ type ∈ t.config.cluster.types

theorem Sound.clusterAnswers {α : Type} (hs : t.Sound) (c : ClusterId)
    {use : Branch → Except Error α}
    (h : ∀ b, t.config.cluster.Fits b.cluster.properties →
      (type ∉ t.config.cluster.types → use b = .error (t.config.cluster.unregistered type))
        ∧ (type ∈ t.config.cluster.types → ∃ a, use b = .ok a)) :
    t.ClusterAnswers type c (t.require c >>= use) := by
  cases hlive : t.isLive c with
  | false =>
      have hx : t.require c >>= use = .error (.clusterNotFound c) := by
        rw [require_of_dead hlive]
        rfl
      rw [hx]
      constructor <;> simp [hlive]
  | true =>
      obtain ⟨b, hb⟩ := exists_find?_of_isLive hlive
      rw [require_of_find? hb, ok_bind]
      obtain ⟨hnone, hok⟩ := h b (hs.nodes b.node (node_mem_of_find? hb)).properties
      by_cases htype : type ∈ t.config.cluster.types
      · obtain ⟨a, ha⟩ := hok htype
        rw [ha]
        constructor <;> simp [hlive, htype]
      · rw [hnone htype, Layout.unregistered]
        constructor <;> simp [hlive, htype]

theorem Sound.answers_clusterProperty (hs : t.Sound) (type : AttributeType) (c : ClusterId) :
    t.ClusterAnswers type c (t.clusterProperty type c) :=
  hs.clusterAnswers c (fun _ hfit => ⟨fun hnot => Layout.read_of_notMem hnot _, hfit.read_eq_ok⟩)

theorem Sound.answers_setClusterProperty (hs : t.Sound) (c : ClusterId) {value : Value}
    (hk : value.kind = type.initial.kind) :
    t.ClusterAnswers type c (t.setClusterProperty type c value) := by
  refine hs.clusterAnswers c (fun b hfit => ⟨fun hnot => ?_, fun hmem => ?_⟩)
  · rw [Layout.write_of_notMem hnot]
    rfl
  · obtain ⟨slots, hw⟩ := hfit.write_eq_ok hmem hk
    rw [hw]
    exact ⟨_, rfl⟩

/-! ## What a tree has slots for -/

/-- Every entity of the tree has one slot for each type of its layout, and it
    is seen from outside that these are the only ones. -/
structure Slotted (t : Tree) : Prop where
  config : t.config.Regular
  vertex : ∀ c, ∀ v ∈ t.vertices c, ∃ r, t.vertexRecord c v = .ok r ∧ r.Fits t.config
  /-- The global edges on an edge have object slots of their own. -/
  edge : ∀ c, ∀ e ∈ t.edges c, ∃ r, t.edgeRecord c e = .ok r ∧ r.Fits t.config
  cluster : ∀ k ∈ t.clusters, t.config.cluster.Fits k.properties
  property : ∀ type c key, t.Answers type c key (t.property type c key)
  /-- The type of a property is also that of the values it is given, so no
      caller can give one of another kind. -/
  setProperty : ∀ type c key value, value.kind = type.initial.kind →
    t.Answers type c key (t.setProperty type c key value)
  clusterProperty : ∀ type c, t.ClusterAnswers type c (t.clusterProperty type c)
  setClusterProperty : ∀ type c value, value.kind = type.initial.kind →
    t.ClusterAnswers type c (t.setClusterProperty type c value)

theorem Sound.slotted (hs : t.Sound) (hconfig : t.config.Regular) : t.Slotted := by
  have hd := hs.distinct
  refine ⟨hconfig, fun c v hv => ?_, fun c e he => ?_, fun k hk => ?_, hs.answers_property,
    fun _ c key _ hk => hs.answers_setProperty c key hk, hs.answers_clusterProperty,
    fun _ c _ hk => hs.answers_setClusterProperty c hk⟩
  · obtain ⟨n, hn, rfl⟩ := exists_node_of_vertices hv
    obtain ⟨r, hr⟩ := Storage.hasVertex_iff.mp ((hd.mem_vertices hn).mp hv)
    exact ⟨r, hd.vertexRecord_of_mem hn hr, (hs.nodes n hn).fits.vertex v r hr⟩
  · obtain ⟨n, hn, rfl⟩ := exists_node_of_edges he
    obtain ⟨l, hl⟩ := (hd.mem_edges hn).mp he
    obtain ⟨b, hb, rfl⟩ := hd.find?_of_mem hn
    exact ⟨l.record, edgeRecord_of_find? hb hl, (hs.nodes _ hn).fits.edge e l hl⟩
  · have hmem : k ∈ (t.clusters : Multiset Cluster) := hk
    rw [clusters, Branch.coe_clusters] at hmem
    obtain ⟨n, hn, rfl⟩ := Multiset.mem_map.mp hmem
    exact (hs.nodes n hn).properties

end Tree

namespace Workspace

variable {w w' : Workspace}

/-! ## Along runs -/

/-- Every tree of a workspace has a configuration that declarations
    describe. -/
def Declared (w : Workspace) : Prop :=
  ∀ m ∈ w.members, ∃ declarations, Config.build declarations = .ok m.tree.config

theorem Declared.configFrom (h : w.Declared) {origin : ConfigOrigin} {config : Config}
    (hfrom : w.configFrom origin = .ok config) :
    ∃ declarations, Config.build declarations = .ok config := by
  cases origin with
  | sharedWith number =>
      rw [Workspace.configFrom] at hfrom
      cases hm : w.members[number]? with
      | none =>
          rw [hm] at hfrom
          exact ⟨[], hfrom⟩
      | some m =>
          rw [hm] at hfrom
          obtain rfl := Except.ok.inj hfrom
          exact h m (List.mem_of_getElem? hm)
  | declared declarations => exact ⟨declarations, hfrom⟩

theorem Declared.put (h : w.Declared) {number : Nat} {g g' : Graph} (hg : w.graph? number = some g)
    (hconfig : g'.tree.config = g.tree.config) : (w.put number g').Declared := by
  obtain ⟨m, ids, hm, -, rfl⟩ := graph?_eq_some.mp hg
  rw [put_of_member hm]
  intro k hk
  rcases List.mem_or_eq_of_mem_set hk with hk | rfl
  · exact h k hk
  · rw [show ({ m with tree := g'.tree } : Member).tree = g'.tree from rfl, hconfig]
    exact h m (List.mem_of_getElem? hm)

theorem Declared.addMember (h : w.Declared) {t : Tree}
    (ht : ∃ declarations, Config.build declarations = .ok t.config) (source : Nat) :
    (w.addMember t source).1.Declared := by
  intro k hk
  rcases List.mem_append.mp hk with hk | hk
  · exact h k hk
  · rw [List.mem_singleton.mp hk]
    exact ht

/-- A new tree is declared, or made with a configuration that was; no
    operation changes one. -/
theorem Outcome.declared (hw : w.Sound) (hd : w.Declared) {operation : Operation}
    {result : Except Error Reply} (h : w.Outcome operation w' result) : w'.Declared := by
  cases h with
  | refused serial e => exact hd
  | idle serial => exact hd
  | command _ hg hp => exact hd.put hg (Graph.becomes_perform (hw.tree hg) hp).config
  | copy hs hg hcopy =>
      exact hd.put hg (Graph.becomes_copyInto (hw.tree hs) (hw.tree hg) hcopy).config
  | new hnew =>
      obtain ⟨config, hconfig, -, hadd⟩ := of_newGraph hnew
      have hdeclared := hd.configFrom hconfig
      rcases hadd with ⟨m, hm, rfl⟩ | ⟨count, rfl⟩
      · exact hd.addMember hdeclared m.source
      · exact hd.addMember hdeclared _
  | @duplicate number serial cloner g g' hg hcopy =>
      have hempty := Tree.sound_new (hw.tree hg).complete
      have hconfig := (Graph.becomes_copyInto (hw.tree hg) hempty hcopy).config
      obtain ⟨m, ids, hm, -, rfl⟩ := graph?_eq_some.mp hg
      refine hd.addMember ?_ _
      rw [hconfig]
      exact hd m (List.mem_of_getElem? hm)

theorem declared_run (operations : List Operation) : (empty.run operations).Declared := by
  have hgeneral : ∀ w : Workspace, w.Sound → w.Declared → (w.run operations).Declared := by
    induction operations with
    | nil => exact fun w _ hd => hd
    | cons operation rest ih =>
        exact fun w hw hd => ih _ (hw.becomes_step operation).sound
          ((step_outcome hw operation).declared hw hd)
  exact hgeneral empty sound_empty (fun m hm => absurd hm List.not_mem_nil)

/-- **SLOTS**: whatever was done, every vertex, every edge, every global edge
    and every cluster has one slot for each type of its layout, with a value of
    the type's kind where it is a property.  A property is refused because its
    type is not in the layout exactly if cluster and key are found, and
    otherwise only because they are not. -/
theorem slotted_run (operations : List Operation) {m : Member}
    (hm : m ∈ (empty.run operations).members) : m.tree.Slotted := by
  obtain ⟨declarations, hbuild⟩ := declared_run operations m hm
  exact ((sound_run operations).trees m hm).slotted (Config.regular_of_build hbuild)

/-- A copy in a tree that was declared alike has the slots of that tree: a type
    of edges is refused for a vertex, and for one that is not there it does not
    come to that. -/
theorem slotted_copyInto :
    let weight : AttributeType := ⟨"weight", .integer 1, 0⟩
    let declarations := [Declaration.vertex weight, .object weight]
    let operations := [Operation.newGraph (.declared declarations) (.startingAt 100),
      .newGraph (.declared declarations) .fresh, .change 0 (.addVertex Tree.rootId),
      .change 0 (.setProperty weight Tree.rootId (.localVertex ⟨0, 0⟩) (.integer 7)),
      .copyInto 0 Tree.rootId 1 Tree.rootId pure]
    ∃ m, (empty.run operations).members[1]? = some m ∧ m.tree.Slotted
      ∧ m.tree.property weight Tree.rootId (.globalVertex ⟨101⟩) = .ok (.integer 7)
      ∧ m.tree.property edgeIndex Tree.rootId (.globalVertex ⟨101⟩)
        = .error (.unregisteredType "vertex property" edgeIndex.name)
      ∧ m.tree.property edgeIndex Tree.rootId (.globalVertex ⟨102⟩)
        = .error (.vertexNotFound ⟨102⟩) := by
  intro weight declarations operations
  have hreads : ∃ m ∈ (empty.run operations).members[1]?,
      m.tree.property weight Tree.rootId (.globalVertex ⟨101⟩) = .ok (.integer 7)
        ∧ m.tree.property edgeIndex Tree.rootId (.globalVertex ⟨101⟩)
          = .error (.unregisteredType "vertex property" edgeIndex.name)
        ∧ m.tree.property edgeIndex Tree.rootId (.globalVertex ⟨102⟩)
          = .error (.vertexNotFound ⟨102⟩) := by
    decide +kernel
  obtain ⟨m, hm, hreads⟩ := hreads
  exact ⟨m, hm, slotted_run operations (List.mem_of_getElem? hm), hreads⟩

end Workspace

end NestedGraph
