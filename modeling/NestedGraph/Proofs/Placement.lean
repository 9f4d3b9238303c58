import NestedGraph.Proofs.Names

/-! # Placement — edges lie where their endpoints part

    An ordinary vertex STANDS, in its own cluster and in all clusters
    around it, on the one vertex that leads to it.  A tree is PLACED when
    every global edge runs, in the cluster that carries it, between the
    vertices that its two endpoints stand on.  As an edge has two ends,
    its cluster is the innermost one that both endpoints are in, and none
    of them is missing. -/

namespace NestedGraph

/-- Vertex `u` of the cluster has that name, and no cluster hangs on it. -/
def Node.Ordinary (n : Node) (u : LocalVertex) (g : GlobalVertex) : Prop :=
  n.storage.global? u = some g ∧ u ∉ n.entries.map Prod.fst

namespace Tree

/-- In cluster `c` an ordinary vertex with that name stands on `v`. -/
def Stands (t : Tree) (c : ClusterId) (v : LocalVertex) (g : GlobalVertex) : Prop :=
  ∃ n ∈ t.nodes, ∃ u, t.Leads c v n.id u ∧ n.Ordinary u g

/-- The endpoints of a global edge stand on the two vertices. -/
def Joins (t : Tree) (c : ClusterId) (z : Sym2 LocalVertex) (g : GlobalEdge) : Prop :=
  ∃ a b, z = s(a, b) ∧ t.Stands c a g.source ∧ t.Stands c b g.target

/-- Every global edge runs between the vertices that its endpoints stand
    on. -/
def Placed (t : Tree) : Prop :=
  ∀ n ∈ t.nodes, ∀ z g, (z, g) ∈ n.storage.carries → t.Joins n.id z g

/-- A sound tree in which every name is one of its own, and every edge is
    placed. -/
structure Orderly (t : Tree) (count : UInt64) : Prop where
  sound : t.Sound
  named : t.Named count
  placed : t.Placed

variable {t t' : Tree} {count : UInt64} {c d o : ClusterId} {v w u : LocalVertex}
  {g : GlobalVertex} {e : GlobalEdge} {n : Node}

/-! ## Leading -/

theorem Leads.trans {p : ClusterId} {x : LocalVertex} (h : t.Leads c v o u) (h' : t.Leads o u p x) :
    t.Leads c v p x := by
  induction h with
  | here c v => exact h'
  | inside hn he _ ih => exact .inside hn he (ih h')

/-- What lies further in does not lead out again. -/
theorem Distinct.not_leads_back (hd : t.Distinct) (hn : n ∈ t.nodes) (he : (v, d) ∈ n.entries)
    (w u : LocalVertex) : ¬ t.Leads d w n.id u := by
  intro h
  have hpath := hd.path_child hn he
  rcases h.mem_path hd with heq | hmem
  · rw [(Prod.mk.inj heq).1] at hpath
    exact absurd (congrArg List.length hpath) (by simp)
  · have hlt := hd.length_path_lt hmem
    rw [hpath, List.length_cons] at hlt
    omega

/-- Of two vertices that lead to the same place, one is on the way up from
    the other. -/
theorem Leads.comparable (hd : t.Distinct) (h : t.Leads c v o u) (h' : t.Leads d w o u) :
    (c, v) = (d, w) ∨ (c, v) ∈ t.path d ∨ (d, w) ∈ t.path c := by
  induction h' with
  | here d w =>
      rcases h.mem_path hd with heq | hmem
      · exact Or.inl heq
      · exact Or.inr (Or.inl hmem)
  | @inside n w x u' d' o' hn he _ ih =>
      have hpath := hd.path_child hn he
      rcases ih h with heq | hmem | hmem
      · obtain ⟨rfl, rfl⟩ := Prod.mk.inj heq
        exact Or.inr (Or.inr (hpath ▸ List.mem_cons_self ..))
      · rw [hpath] at hmem
        rcases List.mem_cons.mp hmem with heq | hmem
        · exact Or.inl heq
        · exact Or.inr (Or.inl hmem)
      · obtain ⟨p, hp⟩ := hd.path_suffix hmem
        rw [hp, hpath]
        exact Or.inr (Or.inr (List.mem_append.mpr (Or.inr
          (List.mem_cons_of_mem _ (List.mem_cons_self ..)))))

/-- On a vertex on a way up hangs a cluster. -/
theorem Distinct.exists_child_of_mem_path (hd : t.Distinct) (h : (c, v) ∈ t.path d) :
    ∃ n ∈ t.nodes, n.id = c ∧ ∃ d', (v, d') ∈ n.entries := by
  cases leads_of_mem_path hd h v with
  | here => exact absurd (hd.length_path_lt h) (Nat.lt_irrefl _)
  | inside hn he _ => exact ⟨_, hn, rfl, _, he⟩

/-- Where the way up is the same, the same vertices lead down. -/
theorem Leads.of_path (hd : t.Distinct) (hd' : t'.Distinct) (hpath : t'.path o = t.path o)
    (h : t.Leads c v o u) : t'.Leads c v o u := by
  rcases h.mem_path hd with heq | hmem
  · obtain ⟨rfl, rfl⟩ := Prod.mk.inj heq
    exact .here c v
  · exact leads_of_mem_path hd' (hpath ▸ hmem) u

theorem Leads.mono (hkeep : ∀ n ∈ t.nodes, ∃ n' ∈ t'.nodes, n'.id = n.id
      ∧ ∀ entry ∈ n.entries, entry ∈ n'.entries)
    (h : t.Leads c v o u) : t'.Leads c v o u := by
  induction h with
  | here c v => exact .here c v
  | inside hn he _ ih =>
      obtain ⟨n', hn', hid, hentries⟩ := hkeep _ hn
      rw [← hid]
      exact .inside hn' (hentries _ he) ih

/-! ## Standing -/

theorem Stands.mono (hkeep : ∀ n ∈ t.nodes, ∃ n' ∈ t'.nodes, n'.id = n.id
      ∧ (∀ entry ∈ n.entries, entry ∈ n'.entries) ∧ ∀ u g, n.Ordinary u g → n'.Ordinary u g)
    (h : t.Stands c v g) : t'.Stands c v g := by
  obtain ⟨n, hn, u, hl, ho⟩ := h
  obtain ⟨n', hn', hid, -, hord⟩ := hkeep n hn
  refine ⟨n', hn', u, ?_, hord u g ho⟩
  rw [hid]
  refine hl.mono (fun m hm => ?_)
  obtain ⟨m', hm', hid', hentries, -⟩ := hkeep m hm
  exact ⟨m', hm', hid', hentries⟩

theorem Joins.mono (hkeep : ∀ n ∈ t.nodes, ∃ n' ∈ t'.nodes, n'.id = n.id
      ∧ (∀ entry ∈ n.entries, entry ∈ n'.entries) ∧ ∀ u g, n.Ordinary u g → n'.Ordinary u g)
    {z : Sym2 LocalVertex} (h : t.Joins c z e) : t'.Joins c z e := by
  obtain ⟨a, b, hz, ha, hb⟩ := h
  exact ⟨a, b, hz, ha.mono hkeep, hb.mono hkeep⟩

/-- In each cluster a name stands on one vertex. -/
theorem Orderly.stands_unique (h : t.Orderly count) (hv : t.Stands c v g) (hw : t.Stands c w g) :
    v = w := by
  obtain ⟨n, hn, u, hl, ho⟩ := hv
  obtain ⟨m, hm, x, hl', ho'⟩ := hw
  obtain ⟨rfl, rfl⟩ := h.named.eq_of_global? hn hm ho.1 ho'.1
  exact hl.unique h.sound.distinct hl'

theorem Stands.mem_travelling (hs : t.Sound) {b : Branch} (hb : t.find? c = some b)
    (h : t.Stands c v g) : g ∈ b.travelling v := by
  obtain ⟨n, hn, u, hl, ho⟩ := h
  refine (hs.mem_travelling hb).mpr ⟨n.id, u, hl, ?_⟩
  rw [hs.distinct.global?_of_mem hn]
  exact ho.1

/-- A name that stands somewhere travels with the vertex that it stands
    on. -/
theorem Orderly.mem_travelling_iff (h : t.Orderly count) {b : Branch} (hb : t.find? c = some b)
    (hv : t.Stands c v g) : g ∈ b.travelling w ↔ w = v := by
  constructor
  · intro hmem
    obtain ⟨o, u, hl, hg⟩ := (h.sound.mem_travelling hb).mp hmem
    obtain ⟨m, hm, rfl, hu⟩ := exists_node_of_global? hg
    obtain ⟨n, hn, x, hl', ho⟩ := hv
    obtain ⟨rfl, rfl⟩ := h.named.eq_of_global? hm hn hu ho.1
    exact hl.unique h.sound.distinct hl'
  · rintro rfl
    exact hv.mem_travelling h.sound hb

/-- The representative of a name is the vertex that it stands on. -/
theorem Orderly.representative?_eq (h : t.Orderly count) {b : Branch} (hb : t.find? c = some b)
    (hv : t.Stands c v g) : b.representative? g = some v := by
  have hglobals : g ∈ b.globals := by
    obtain ⟨n, hn, u, hl, ho⟩ := hv
    refine (h.sound.mem_globals_iff hb).mpr ⟨v, n.id, u, hl, ?_⟩
    rw [h.sound.distinct.global?_of_mem hn]
    exact ho.1
  obtain ⟨w, hw⟩ := exists_representative? hglobals
  have hmem := h.sound.mem_travelling_of_representative? hb hw
  rw [hw, (h.mem_travelling_iff hb hv).mp hmem]

/-- A vertex found by its name, when nothing hangs on it, is what the name
    stands for. -/
theorem stands_here (hn : n ∈ t.nodes) (h : n.Ordinary v g) : t.Stands n.id v g :=
  ⟨n, hn, v, .here .., h⟩

theorem Distinct.ordinary_iff (hd : t.Distinct) (hn : n ∈ t.nodes) :
    n.Ordinary u g ↔ t.global? n.id u = some g ∧ t.isClusterVertex n.id u = false := by
  rw [Node.Ordinary, hd.global?_of_mem hn, ← hd.isClusterVertex_iff hn, Bool.not_eq_true]

/-- What stands in a cluster is an ordinary vertex stored inside it. -/
theorem Stands.stored (hd : t.Distinct) (h : t.Stands c v g) :
    ∃ o u, t.isAncestor c o = true ∧ t.global? o u = some g ∧ t.isClusterVertex o u = false := by
  obtain ⟨n, hn, u, hl, ho⟩ := h
  exact ⟨n.id, u, hl.isAncestor hd, (hd.ordinary_iff hn).mp ho⟩

/-! ## Trees that lose vertices -/

theorem GlobalEdge.touches_eq_true {gone : List GlobalVertex} :
    e.touches gone = true ↔ e.source ∈ gone ∨ e.target ∈ gone := by
  rw [GlobalEdge.touches, Bool.or_eq_true, decide_eq_true_iff, decide_eq_true_iff]

/-- Order is kept when vertices go, if every edge of them goes as well. -/
theorem Orderly.shrink (h : t.Orderly count) (hs : t'.Sound) (gone : List GlobalVertex)
    (hback : ∀ n' ∈ t'.nodes, ∃ n ∈ t.nodes, n.id = n'.id
      ∧ (∀ entry ∈ n'.entries, entry ∈ n.entries)
      ∧ ∀ z g, (z, g) ∈ n'.storage.carries → (z, g) ∈ n.storage.carries
        ∧ ¬ g.touches gone = true)
    (hstay : ∀ n ∈ t.nodes, ∀ u g, n.Ordinary u g → g ∉ gone →
      ∃ n' ∈ t'.nodes, n'.id = n.id ∧ n'.Ordinary u g)
    (hnames : t'.nodes.bind (fun n => n.storage.names) ≤ t.nodes.bind (fun n => n.storage.names)) :
    t'.Orderly count := by
  have hroot : t'.root = t.root := hs.root.trans h.sound.root.symm
  -- What stands on a vertex still does, if it did not go.
  have hstands : ∀ {c v g}, t.Stands c v g → g ∉ gone → t'.Stands c v g := by
    rintro c v g ⟨n, hn, u, hl, ho⟩ hg
    obtain ⟨n', hn', hid, ho'⟩ := hstay n hn u g ho hg
    have hpath := h.sound.distinct.path_of_entries hs.distinct hroot
      (fun m' hm' => by
        obtain ⟨m, hm, hmid, hentries, -⟩ := hback m' hm'
        exact ⟨m, hm, hmid, hentries⟩) (Multiset.mem_map_of_mem Node.id hn')
    rw [hid] at hpath
    refine ⟨n', hn', u, ?_, ho'⟩
    rw [hid]
    exact hl.of_path h.sound.distinct hs.distinct hpath
  refine ⟨hs, h.named.of_le hnames (UInt64.le_refl _), fun n' hn' z g hz => ?_⟩
  obtain ⟨n, hn, hid, -, hcarries⟩ := hback n' hn'
  obtain ⟨hz, htouch⟩ := hcarries z g hz
  rw [GlobalEdge.touches_eq_true, not_or] at htouch
  obtain ⟨a, b, hab, hsource, htarget⟩ := h.placed n hn z g hz
  rw [← hid]
  exact ⟨a, b, hab, hstands hsource htouch.1, hstands htarget htouch.2⟩

/-! ## Trees that carry less -/

end Tree

/-- The second node has other attributes, and may carry less. -/
structure Node.Lighter (n n' : Node) : Prop where
  id : n'.id = n.id
  entries : n'.entries = n.entries
  holds : n'.storage.holds = n.storage.holds
  carries : n'.storage.carries ≤ n.storage.carries

namespace Node

variable {n n' n'' : Node}

theorem Lighter.refl (n : Node) : n.Lighter n := ⟨rfl, rfl, rfl, le_refl _⟩

theorem Lighter.names_le (h : n.Lighter n') : n'.storage.names ≤ n.storage.names := by
  rw [Storage.names, Storage.names, h.holds]
  exact add_le_add (le_refl _) (Multiset.map_le_map h.carries)

theorem Lighter.ordinary (h : n.Lighter n') {u : LocalVertex} {g : GlobalVertex}
    (ho : n.Ordinary u g) : n'.Ordinary u g := by
  refine ⟨?_, h.entries ▸ ho.2⟩
  rw [← Storage.mem_holds, h.holds, Storage.mem_holds]
  exact ho.1

/-- The second node has other attributes. -/
structure Restyled (n n' : Node) : Prop where
  id : n'.id = n.id
  entries : n'.entries = n.entries
  holds : n'.storage.holds = n.storage.holds
  carries : n'.storage.carries = n.storage.carries

theorem Restyled.refl (n : Node) : n.Restyled n := ⟨rfl, rfl, rfl, rfl⟩

theorem Restyled.trans (h : n.Restyled n') (h' : n'.Restyled n'') : n.Restyled n'' :=
  ⟨h'.id.trans h.id, h'.entries.trans h.entries, h'.holds.trans h.holds, h'.carries.trans h.carries⟩

theorem Restyled.lighter (h : n.Restyled n') : n.Lighter n' :=
  ⟨h.id, h.entries, h.holds, le_of_eq h.carries⟩

/-- A change of one cluster leaves a node as it is, or changes its own
    cluster. -/
theorem changeAt_cases (c : ClusterId) {f : Cluster → Cluster} {n : Node} {P : Node → Prop}
    (hself : P n) (hf : n.id = c → P ⟨f n.cluster, n.entries⟩) : P (n.changeAt c f) := by
  rw [changeAt]
  split
  · rename_i hc
    exact hf hc
  · exact hself

end Node

namespace Tree

/-- The second tree has other attributes, and may carry less. -/
def Lighter (t t' : Tree) : Prop :=
  ∃ f : Node → Node, t'.nodes = t.nodes.map f ∧ ∀ n ∈ t.nodes, n.Lighter (f n)

variable {t t' : Tree} {count count' : UInt64}

theorem Lighter.names_le (h : t.Lighter t') :
    t'.nodes.bind (fun n => n.storage.names) ≤ t.nodes.bind (fun n => n.storage.names) := by
  obtain ⟨f, hf, hlight⟩ := h
  rw [hf, Multiset.bind_map]
  exact bind_le_bind (fun n hn => (hlight n hn).names_le)

theorem Lighter.placed (h : t.Lighter t') (hp : t.Placed) : t'.Placed := by
  obtain ⟨f, hf, hlight⟩ := h
  intro n' hn' z g hz
  rw [hf] at hn'
  obtain ⟨n, hn, rfl⟩ := Multiset.mem_map.mp hn'
  have hn0 := hlight n hn
  rw [hn0.id]
  refine (hp n hn z g (Multiset.mem_of_le hn0.carries hz)).mono (fun m hm => ?_)
  have hm0 := hlight m hm
  exact ⟨f m, hf ▸ Multiset.mem_map_of_mem f hm, hm0.id, fun entry he => hm0.entries ▸ he,
    fun u g ho => hm0.ordinary ho⟩

/-- Order is kept when a tree gets other attributes or carries less. -/
theorem Orderly.lighter (h : t.Orderly count) (hs : t'.Sound) (hl : t.Lighter t') :
    t'.Orderly count :=
  ⟨hs, h.named.of_le hl.names_le (UInt64.le_refl _), hl.placed h.placed⟩

/-- The second tree has other attributes. -/
def Restyled (t t' : Tree) : Prop :=
  ∃ f : Node → Node, t'.nodes = t.nodes.map f ∧ ∀ n ∈ t.nodes, n.Restyled (f n)

theorem Restyled.refl (t : Tree) : t.Restyled t :=
  ⟨fun n => n, (Multiset.map_id' t.nodes).symm, fun n _ => .refl n⟩

theorem Restyled.trans {t'' : Tree} (h : t.Restyled t') (h' : t'.Restyled t'') : t.Restyled t'' := by
  obtain ⟨f, hf, hstyle⟩ := h
  obtain ⟨f', hf', hstyle'⟩ := h'
  refine ⟨fun n => f' (f n), ?_, fun n hn => ?_⟩
  · rw [hf', hf, Multiset.map_map]
    rfl
  · exact (hstyle n hn).trans (hstyle' _ (hf ▸ Multiset.mem_map_of_mem f hn))

theorem Restyled.lighter (h : t.Restyled t') : t.Lighter t' := by
  obtain ⟨f, hf, hstyle⟩ := h
  exact ⟨f, hf, fun n hn => (hstyle n hn).lighter⟩

/-- A source that goes on keeps order. -/
theorem Orderly.mono (h : t.Orderly count) (hcount : count ≤ count') : t.Orderly count' :=
  ⟨h.sound, h.named.of_le (le_refl _) hcount, h.placed⟩

/-! ## Trees that grow by a name -/

/-- Order is kept when one new name comes in, and nothing goes. -/
theorem Orderly.grow (h : t.Orderly count) (hs : t'.Sound)
    (hkeep : ∀ n ∈ t.nodes, ∃ n' ∈ t'.nodes, n'.id = n.id
      ∧ (∀ entry ∈ n.entries, entry ∈ n'.entries) ∧ ∀ u g, n.Ordinary u g → n'.Ordinary u g)
    (hcarries : ∀ n' ∈ t'.nodes, ∀ z g, (z, g) ∈ n'.storage.carries →
      (∃ n ∈ t.nodes, n.id = n'.id ∧ (z, g) ∈ n.storage.carries) ∨ t.Joins n'.id z g)
    {id : UInt64} (hnames : t'.nodes.bind (fun n => n.storage.names)
      = id ::ₘ t.nodes.bind (fun n => n.storage.names))
    (hnew : id ∉ t.names) (hlow : lastReservedId < id) (hhigh : id ≤ count') (hcount : count ≤ count') :
    t'.Orderly count' := by
  refine ⟨hs, ⟨?_, fun k hk => ?_, UInt64.le_trans h.named.reserved hcount⟩, fun n' hn' z g hz => ?_⟩
  · rw [nodup_names_iff, hnames, ← coe_names, Multiset.nodup_cons]
    exact ⟨hnew, Multiset.coe_nodup.mpr h.named.nodup⟩
  · rw [← Multiset.mem_coe, coe_names, hnames, ← coe_names, Multiset.mem_cons] at hk
    rcases hk with rfl | hk
    · exact ⟨hlow, hhigh⟩
    · obtain ⟨h1, h2⟩ := h.named.bound k hk
      exact ⟨h1, UInt64.le_trans h2 hcount⟩
  · rcases hcarries n' hn' z g hz with ⟨n, hn, hid, hz⟩ | hjoins
    · rw [← hid]
      exact (h.placed n hn z g hz).mono hkeep
    · exact hjoins.mono hkeep

/-- A new tree is in order. -/
theorem orderly_new {config : Config} (hc : config.Complete) (hcount : lastReservedId ≤ count) :
    (Tree.new config).Orderly count := by
  have hnone : ∀ n ∈ (Tree.new config).nodes, n.storage = .empty := by
    intro n hn
    rw [Multiset.mem_singleton.mp hn]
    rfl
  have hnames : (Tree.new config).names = [] := rfl
  refine ⟨sound_new hc, ⟨?_, fun id hid => ?_, hcount⟩, fun n hn z g hz => ?_⟩
  · rw [hnames]
    exact List.nodup_nil
  · rw [hnames] at hid
    exact absurd hid List.not_mem_nil
  · rw [hnone n hn, Storage.carries, Storage.load_empty] at hz
    exact absurd hz (Multiset.notMem_zero _)

end Tree

end NestedGraph
