import NestedGraph.Proofs.Aggregation
import NestedGraph.Proofs.Ledger
import NestedGraph.Proofs.Survivors

/-! # Departures — what a removal reports, and what it leaves

    A command that removes vertices makes some of them depart.  A cluster
    is SHED if it hangs, directly or further down, on one that departs,
    and an ordinary vertex is LOST if it departs itself or is in a cluster
    that is shed.  The report lists what is shed, what is lost with it,
    and every global edge that ends at something lost, wherever in the
    tree it was stored.  All else stays, and stays where it was. -/

namespace NestedGraph

/-! ## Contents, once each -/

namespace Storage

/-- The names of the global edges are among the names of the storage. -/
theorem ids_carries_le (s : Storage) :
    (s.carries.map Prod.snd).map GlobalEdge.id ≤ s.names := by
  rw [Multiset.map_map]
  exact Multiset.le_add_left ..

/-- What is found to match at a vertex is carried there and matches. -/
theorem of_mem_matchingAt {s : Storage} (hs : s.Sound) {p : GlobalEdge → Bool} {v : LocalVertex}
    {g : GlobalEdge} (h : g ∈ s.matchingAt p v) :
    p g = true ∧ ∃ z, v ∈ z ∧ (z, g) ∈ s.carries := by
  rw [← Multiset.mem_coe, coe_matchingAt hs, Multiset.mem_map] at h
  obtain ⟨⟨z, x⟩, hx, rfl⟩ := h
  obtain ⟨hx, hv, hp⟩ := Multiset.mem_filter.mp hx
  exact ⟨hp, z, hv, mem_carries.mpr ⟨x, hx, rfl⟩⟩

end Storage

/-- So are those of the vertices on which no cluster hangs. -/
theorem Node.ids_ordinaries_le (n : Node) : n.ordinaries.map GlobalVertex.id ≤ n.storage.names := by
  rw [ordinaries, Multiset.map_map]
  exact (Multiset.map_le_map (Multiset.filter_le ..)).trans (Multiset.le_add_right ..)

namespace Tree

variable {t t' t'' : Tree} {count : UInt64} {gone gone' : ClusterId → LocalVertex → Prop}
  {c d : ClusterId} {v : LocalVertex}

/-- Where names are distinct, nothing is in a tree twice. -/
theorem Orderly.nodup_contents (h : t.Orderly count) : t.contents.Nodup := by
  have hnames := nodup_names_iff.mp h.named.nodup
  have hsplit : t.contents
      = (t.nodes.bind (fun n => n.storage.carries.map Prod.snd)).map .edge
        + (t.nodes.bind Node.ordinaries).map .vertex + t.ids.map .cluster := by
    rw [Multiset.map_bind, Multiset.map_bind, ids, Multiset.map_map, ← Multiset.bind_singleton,
      ← Multiset.bind_add, ← Multiset.bind_add]
    rfl
  have hedges : (t.nodes.bind (fun n => n.storage.carries.map Prod.snd)).Nodup := by
    apply Multiset.Nodup.of_map GlobalEdge.id
    rw [Multiset.map_bind]
    exact Multiset.nodup_of_le (bind_le_bind (fun n _ => n.storage.ids_carries_le)) hnames
  have hvertices : (t.nodes.bind Node.ordinaries).Nodup := by
    apply Multiset.Nodup.of_map GlobalVertex.id
    rw [Multiset.map_bind]
    exact Multiset.nodup_of_le (bind_le_bind (fun n _ => n.ids_ordinaries_le)) hnames
  rw [hsplit, Multiset.nodup_add, Multiset.nodup_add]
  refine ⟨⟨hedges.map (fun _ _ heq => Removal.edge.inj heq),
    hvertices.map (fun _ _ heq => Removal.vertex.inj heq), ?_⟩,
    h.sound.distinct.map (fun _ _ heq => Removal.cluster.inj heq), ?_⟩
  · rw [Multiset.disjoint_map_map]
    intro _ _ _ _ heq
    cases heq
  · rw [Multiset.disjoint_add_left, Multiset.disjoint_map_map, Multiset.disjoint_map_map]
    constructor
    · intro _ _ _ _ heq
      cases heq
    · intro _ _ _ _ heq
      cases heq

/-! ## What hangs on vertices that depart -/

/-- Clusters that stay have the children that they had, but for those on
    vertices that depart. -/
def Trimmed (t t' : Tree) (gone : ClusterId → LocalVertex → Prop) : Prop :=
  ∀ n' ∈ t'.nodes, ∃ n ∈ t.nodes, n'.id = n.id
    ∧ ∀ v d, (v, d) ∈ n'.entries ↔ (v, d) ∈ n.entries ∧ ¬ gone n.id v

theorem Lighter.trimmed (h : t.Lighter t') : t.Trimmed t' (fun _ _ => False) := by
  intro n' hn'
  obtain ⟨f, hf, hlight⟩ := h
  rw [hf] at hn'
  obtain ⟨n, hn, rfl⟩ := Multiset.mem_map.mp hn'
  exact ⟨n, hn, (hlight n hn).id, fun v d => by simp [(hlight n hn).entries]⟩

theorem Trimmed.trans (h : t.Trimmed t' gone) (h' : t'.Trimmed t'' gone') :
    t.Trimmed t'' (fun d v => gone d v ∨ gone' d v) := by
  intro n'' hn''
  obtain ⟨n', hn', hid', hentries'⟩ := h' n'' hn''
  obtain ⟨n, hn, hid, hentries⟩ := h n' hn'
  refine ⟨n, hn, hid'.trans hid, fun v d => ?_⟩
  rw [hentries', hentries, hid, not_or, and_assoc]

theorem Trimmed.congr (h : t.Trimmed t' gone)
    (heq : ∀ d ∈ t.ids, ∀ v, gone d v ↔ gone' d v) : t.Trimmed t' gone' := by
  intro n' hn'
  obtain ⟨n, hn, hid, hentries⟩ := h n' hn'
  refine ⟨n, hn, hid, fun v d => ?_⟩
  rw [hentries, heq n.id (Multiset.mem_map_of_mem Node.id hn)]

/-- Just the branch of the vertex is cut off. -/
theorem Sound.trimmed_cutAt (hs : t.Sound) (c : ClusterId) (v : LocalVertex) :
    t.Trimmed (t.cutAt c v) (fun d w => d = c ∧ w = v) := by
  intro n' hn'
  rcases hs.cut_or_other hn' with ⟨b, hb, rfl⟩ | ⟨hn, hne⟩
  · obtain rfl := id_of_find? hb
    refine ⟨b.node, node_mem_of_find? hb, rfl, fun w d => ?_⟩
    rw [Node.mem_entries_cut]
    exact and_congr_right (fun _ => not_congr (and_iff_right rfl).symm)
  · exact ⟨n', hn, rfl, fun w d => by simp [hne]⟩

theorem Sound.trimmed_discard (hs : t.Sound) (c : ClusterId) (v : LocalVertex) :
    t.Trimmed (t.discard c v).1 (fun d w => d = c ∧ w = v) := by
  rw [discard]
  split
  case h_1 hb =>
    have hcut : t.cutAt c v = t := update_of_dead _ (fun hc => by
      obtain ⟨b, hsome⟩ := mem_ids_iff.mp hc
      cases hb.symm.trans hsome)
    have htrim := hs.trimmed_cutAt c v
    rwa [hcut] at htrim
  case h_2 b hb =>
    have hcut := hs.cutAt c v
    have habove := hcut.withdrawAbove (GlobalEdge.touches (b.travelling v)) c
    have hlight := (hcut.lighter_withdrawAbove (GlobalEdge.touches (b.travelling v)) c).trimmed
    have hmark := (habove.distinct.restyled_mark c).lighter.trimmed
    exact (((hs.trimmed_cutAt c v).trans hlight).trans hmark).congr (fun d _ w => by simp)

theorem Sound.trimmed_discardAll (hs : t.Sound) (c : ClusterId) (vs : List LocalVertex) :
    t.Trimmed (t.discardAll c vs).1 (fun d w => d = c ∧ w ∈ vs) := by
  induction vs generalizing t with
  | nil => exact (Restyled.refl t).lighter.trimmed.congr (fun d _ w => by simp)
  | cons v rest ih =>
      have hrest := ih (hs.becomes_discard c v).sound
      refine ((hs.trimmed_discard c v).trans hrest).congr (fun d _ w => ?_)
      rw [List.mem_cons, and_or_left]

/-- A cluster stays if and only if nothing on the way up from it departs. -/
theorem Trimmed.mem_ids_iff (h : t.Trimmed t' gone) (hs : t.Sound) (hs' : t'.Sound) :
    d ∈ t'.ids ↔ d ∈ t.ids ∧ ∀ step ∈ t.path d, ¬ gone step.1 step.2 := by
  have hroot : t'.root = t.root := hs'.root.trans hs.root.symm
  constructor
  · intro hd
    have hpath := hs.distinct.path_of_entries hs'.distinct hroot (fun n' hn' => by
      obtain ⟨n, hn, hid, hentries⟩ := h n' hn'
      exact ⟨n, hn, hid.symm, fun entry he => ((hentries entry.1 entry.2).mp he).1⟩) hd
    obtain ⟨n', hn', rfl⟩ := Multiset.mem_map.mp hd
    obtain ⟨n, hn, hid, -⟩ := h n' hn'
    refine ⟨hid ▸ Multiset.mem_map_of_mem Node.id hn, fun step hstep => ?_⟩
    rw [← hpath] at hstep
    obtain ⟨m', hm', hmid, d', he⟩ := hs'.distinct.exists_child_of_mem_path hstep
    obtain ⟨m, hm, hid, hentries⟩ := h m' hm'
    rw [← hmid, hid]
    exact ((hentries step.2 d').mp he).2
  · -- Down from the root, each cluster on the way still has the next one as a child.
    rintro ⟨hd, hway⟩
    generalize hlen : (t.path d).length = k
    induction k generalizing d with
    | zero =>
        have hnil := List.length_eq_zero_iff.mp hlen
        have hd0 : d = t.root := by
          by_contra hne
          obtain ⟨n, hn, v, hv⟩ := exists_parent hd hne
          rw [hs.distinct.path_child hn hv] at hnil
          exact nomatch hnil
        rw [hd0, ← hroot]
        exact t'.root_mem_ids
    | succ k ih =>
        cases hp : t.path d with
        | nil => rw [hp] at hlen; exact nomatch hlen
        | cons step p =>
            obtain ⟨c, v⟩ := step
            obtain ⟨rfl, n, hn, rfl, hv⟩ := hs.distinct.path_eq_cons hp
            rw [hp, List.length_cons] at hlen
            rw [hp] at hway
            have hparent := ih (Multiset.mem_map_of_mem Node.id hn)
              (fun step hstep => hway step (List.mem_cons_of_mem _ hstep)) (Nat.succ.inj hlen)
            obtain ⟨n', hn', hid'⟩ := Multiset.mem_map.mp hparent
            obtain ⟨m, hm, hid, hentries⟩ := h n' hn'
            obtain rfl := hs.distinct.eq_of_id hm hn (hid.symm.trans hid')
            have hkept := (hentries v d).mpr ⟨hv, hway (m.id, v) (List.mem_cons_self ..)⟩
            exact Distinct.child_live hn' hkept

/-- In a cluster that stays the ordinary vertices are those that were ordinary
    and do not depart. -/
theorem Trimmed.ordinary_iff (h : t.Trimmed t' gone) (hthin : t.Thinned t' gone) (hd : t.Distinct)
    {n n' : Node} (hn : n ∈ t.nodes) (hn' : n' ∈ t'.nodes) (hid : n'.id = n.id) {u : LocalVertex}
    {g : GlobalVertex} : n'.Ordinary u g ↔ n.Ordinary u g ∧ ¬ gone n.id u := by
  obtain ⟨m, hm, hmid, hentries⟩ := h n' hn'
  obtain rfl := hd.eq_of_id hm hn (hmid.symm.trans hid)
  obtain ⟨k, hk, hthin⟩ := hthin n' hn'
  obtain rfl := hd.eq_of_id hk hn (hthin.id.symm.trans hid)
  by_cases hgone : gone k.id u
  · have hlost := hthin.lost u hgone
    simp [Node.Ordinary, Storage.global?, hlost, hgone]
  · have hkept := hthin.kept u hgone
    simp [Node.Ordinary, Storage.global?, hkept, hentries, hgone]

/-- What stands on a vertex of a tree that was left stood there before. -/
theorem Trimmed.stands (h : t.Trimmed t' gone) (hthin : t.Thinned t' gone) (hd : t.Distinct)
    {g : GlobalVertex} (hst : t'.Stands c v g) : t.Stands c v g := by
  refine hst.mono (fun n' hn' => ?_)
  obtain ⟨n, hn, hid, hentries⟩ := h n' hn'
  refine ⟨n, hn, hid.symm, fun entry he => ((hentries entry.1 entry.2).mp he).1, fun u g ho => ?_⟩
  exact ((h.ordinary_iff hthin hd hn hn' hid).mp ho).1

/-! ## Reported edges -/

/-- An end of the edge stands on the vertex. -/
def Ends (t : Tree) (c : ClusterId) (v : LocalVertex) (e : GlobalEdge) : Prop :=
  t.Stands c v e.source ∨ t.Stands c v e.target

theorem Joins.ends {z : Sym2 LocalVertex} {e : GlobalEdge} (h : t.Joins c z e) (hv : v ∈ z) :
    t.Ends c v e := by
  obtain ⟨a, b, rfl, ha, hb⟩ := h
  rcases Sym2.mem_iff.mp hv with rfl | rfl
  · exact Or.inl ha
  · exact Or.inr hb

theorem Leads.stands {g : GlobalVertex} {w : LocalVertex} (h : t.Leads c v d w)
    (hst : t.Stands d w g) : t.Stands c v g := by
  obtain ⟨n, hn, u, hlead, ho⟩ := hst
  exact ⟨n, hn, u, h.trans hlead, ho⟩

/-- An edge that is taken out with a vertex ends at it, or inside what hangs on
    it. -/
theorem Orderly.ends_of_discard (h : t.Orderly count) {e : GlobalEdge}
    (he : .edge e ∈ (t.discard c v).2) : t.Ends c v e := by
  rw [Tree.discard] at he
  split at he
  case h_1 => exact absurd he List.not_mem_nil
  case h_2 b hb =>
    obtain rfl := id_of_find? hb
    rcases List.mem_append.mp he with hinside | hgone
    · -- Stored further inside, it has both its ends inside as well.
      split at hinside
      case h_2 => exact absurd hinside List.not_mem_nil
      case h_1 child hchild =>
        rw [← Multiset.mem_coe, child.coe_removals, Multiset.mem_bind] at hinside
        obtain ⟨m, hm, hcontent⟩ := hinside
        obtain ⟨z, hz⟩ : ∃ z, (z, e) ∈ m.storage.carries := by simpa [Node.contents] using hcontent
        have hle := nodes_le_of_find? (h.sound.distinct.find?_of_branchAt? hb hchild)
        obtain ⟨a, -, -, ha, -⟩ := h.placed m (Multiset.mem_of_le hle hm) z e hz
        obtain ⟨w, hw⟩ := exists_leads_of_mem_nodes hle hm a
        have hchildren := Forest.mem_entries_of_branchAt? hchild
        exact Or.inl (Leads.stands (.inside (node_mem_of_find? hb) hchildren hw) ha)
    · simp only [List.mem_map, Removal.edge.injEq, exists_eq_right] at hgone
      rcases List.mem_append.mp hgone with hhere | habove
      · rw [Storage.carriedAt_eq] at hhere
        obtain ⟨-, z, hv, hz⟩ := Storage.of_mem_matchingAt 
          (h.sound.nodes _ (node_mem_of_find? hb)).storage hhere
        exact (h.placed b.node (node_mem_of_find? hb) z e hz).ends hv
      · -- Stored above, it is known by an end that stands inside.
        obtain ⟨step, -, hstep⟩ := List.mem_flatMap.mp habove
        split at hstep
        case h_2 => exact absurd hstep List.not_mem_nil
        case h_1 s hs =>
          obtain ⟨n, hn, -, rfl⟩ := exists_node_of_storage? hs
          obtain ⟨htouch, z, -, hz⟩ := Storage.of_mem_matchingAt (h.sound.nodes n hn).storage hstep
          obtain ⟨a, a', -, ha, ha'⟩ := h.placed n hn z e hz
          rcases GlobalEdge.touches_eq_true.mp htouch with hsource | htarget
          · exact Or.inl (h.stands_of_mem_travelling ha hb hsource)
          · exact Or.inr (h.stands_of_mem_travelling ha' hb htarget)

theorem Orderly.ends_of_discardAll (h : t.Orderly count) {vs : List LocalVertex} {e : GlobalEdge}
    (he : .edge e ∈ (t.discardAll c vs).2) : ∃ v ∈ vs, t.Ends c v e := by
  induction vs generalizing t with
  | nil => exact absurd he List.not_mem_nil
  | cons v rest ih =>
      rcases List.mem_append.mp he with hfirst | hothers
      · exact ⟨v, List.mem_cons_self .., h.ends_of_discard hfirst⟩
      · obtain ⟨w, hw, hends⟩ := ih (h.discard c v) hothers
        have htrim := h.sound.trimmed_discard c v
        have hthin := h.sound.thinned_discard c v
        exact ⟨w, List.mem_cons_of_mem _ hw, hends.imp
          (htrim.stands hthin h.sound.distinct) (htrim.stands hthin h.sound.distinct)⟩

/-! ## Reports -/

/-- The cluster hangs, directly or further down, on a vertex that departs. -/
def Sheds (t : Tree) (gone : ClusterId → LocalVertex → Prop) (d : ClusterId) : Prop :=
  ∃ step ∈ t.path d, gone step.1 step.2

/-- The ordinary vertex departs, or is in a cluster that is shed. -/
def Loses (t : Tree) (gone : ClusterId → LocalVertex → Prop) (g : GlobalVertex) : Prop :=
  ∃ c v, t.global? c v = some g ∧ t.isClusterVertex c v = false ∧ (gone c v ∨ t.Sheds gone c)

/-- When vertices departed from a tree, this was reported, and this is left. -/
structure Removes (t t' : Tree) (gone : ClusterId → LocalVertex → Prop)
    (reported : List Removal) : Prop where
  /-- Nothing is reported twice. -/
  once : reported.Nodup
  /-- An edge is reported if an end of it is lost, wherever it was stored. -/
  edges : ∀ e, .edge e ∈ reported
    ↔ (∃ c k, e ∈ t.carried c k) ∧ (t.Loses gone e.source ∨ t.Loses gone e.target)
  /-- A vertex is reported if its cluster is shed, but not if it was itself
      removed. -/
  vertices : ∀ g, .vertex g ∈ reported
    ↔ ∃ c v, t.global? c v = some g ∧ t.isClusterVertex c v = false ∧ t.Sheds gone c
  clusters : ∀ d, .cluster d ∈ reported ↔ t.Sheds gone d
  edgesLeft : ∀ c k e, e ∈ t'.carried c k ↔ e ∈ t.carried c k ∧ .edge e ∉ reported
  verticesLeft : ∀ c v g, t'.global? c v = some g ∧ t'.isClusterVertex c v = false
    ↔ (t.global? c v = some g ∧ t.isClusterVertex c v = false) ∧ ¬ t.Loses gone g
  clustersLeft : ∀ d, t'.isLive d = true ↔ t.isLive d = true ∧ .cluster d ∉ reported
  /-- An edge with global edges left joins the same vertices and has the same
      properties, and those edges have their objects. -/
  linksLeft : ∀ c k r', t'.edgeRecord c k = .ok r' → ∃ r, t.edgeRecord c k = .ok r
    ∧ t'.endpoints? c k = t.endpoints? c k ∧ r'.properties = r.properties
    ∧ ∀ x ∈ r'.carried, x ∈ r.carried

/-- A name is that of one vertex, so it is lost if that vertex is. -/
theorem Orderly.loses_iff (h : t.Orderly count) {g : GlobalVertex} (hg : t.global? c v = some g)
    (hplain : t.isClusterVertex c v = false) : t.Loses gone g ↔ gone c v ∨ t.Sheds gone c := by
  constructor
  · rintro ⟨o, u, hu, -, hlost⟩
    obtain ⟨rfl, rfl⟩ := h.eq_of_vertices hg hu
    exact hlost
  · exact fun hlost => ⟨c, v, hg, hplain, hlost⟩

theorem Orderly.loses_of_ends (h : t.Orderly count) {e : GlobalEdge} (hgone : gone c v)
    (he : t.Ends c v e) : t.Loses gone e.source ∨ t.Loses gone e.target := by
  have hstands : ∀ {g : GlobalVertex}, t.Stands c v g → t.Loses gone g := by
    rintro g ⟨n, hn, u, hlead, ho⟩
    obtain ⟨hglobal, hplain⟩ := (h.sound.distinct.ordinary_iff hn).mp ho
    refine ⟨n.id, u, hglobal, hplain, ?_⟩
    rcases hlead.mem_path h.sound.distinct with heq | hmem
    · obtain ⟨rfl, rfl⟩ := Prod.mk.inj heq
      exact Or.inl hgone
    · exact Or.inr ⟨(c, v), hmem, hgone⟩
  exact he.imp hstands hstands

/-- The ordinary vertices that are left are those that were not lost. -/
theorem Trimmed.global?_iff (h : t.Trimmed t' gone) (hthin : t.Thinned t' gone)
    (ho : t.Orderly count) (hs' : t'.Sound) {g : GlobalVertex} :
    t'.global? c v = some g ∧ t'.isClusterVertex c v = false
      ↔ (t.global? c v = some g ∧ t.isClusterVertex c v = false) ∧ ¬ t.Loses gone g := by
  have hlive := h.mem_ids_iff ho.sound hs' (d := c)
  constructor
  · rintro hg
    obtain ⟨n', hn', rfl, -⟩ := exists_node_of_global? hg.1
    obtain ⟨n, hn, hid⟩ := Multiset.mem_map.mp (hlive.mp (Multiset.mem_map_of_mem Node.id hn')).1
    have hordinary := (hs'.distinct.ordinary_iff hn').mpr hg
    obtain ⟨hold, hstays⟩ := (h.ordinary_iff hthin ho.sound.distinct hn hn' hid.symm).mp hordinary
    have hwas := (ho.sound.distinct.ordinary_iff hn).mp hold
    rw [hid] at hwas hstays
    refine ⟨hwas, fun hlost => ?_⟩
    rcases (ho.loses_iff hwas.1 hwas.2).mp hlost with hgone | ⟨step, hstep, hgone⟩
    · exact hstays hgone
    · exact (hlive.mp (Multiset.mem_map_of_mem Node.id hn')).2 step hstep hgone
  · rintro ⟨hg, hlost⟩
    rw [ho.loses_iff hg.1 hg.2, not_or] at hlost
    obtain ⟨n, hn, rfl, -⟩ := exists_node_of_global? hg.1
    obtain ⟨n', hn', hid⟩ := Multiset.mem_map.mp (hlive.mpr
      ⟨Multiset.mem_map_of_mem Node.id hn, fun step hstep hgone => hlost.2 ⟨step, hstep, hgone⟩⟩)
    have hordinary := (h.ordinary_iff hthin ho.sound.distinct hn hn' hid).mpr
      ⟨(ho.sound.distinct.ordinary_iff hn).mpr hg, hlost.1⟩
    rw [← hid]
    exact (hs'.distinct.ordinary_iff hn').mp hordinary

/-- An edge that is left was there under its handle, with all that it still
    has. -/
theorem Thinned.exists_edgeRecord (h : t.Thinned t' gone) (hd : t.Distinct) (hd' : t'.Distinct)
    {k : LocalEdge} {r' : EdgeRecord} (hr : t'.edgeRecord c k = .ok r') :
    ∃ r, t.edgeRecord c k = .ok r ∧ t'.endpoints? c k = t.endpoints? c k
      ∧ r'.properties = r.properties ∧ ∀ x ∈ r'.carried, x ∈ r.carried := by
  obtain ⟨n', hn', rfl, l', hl', rfl⟩ := exists_node_of_edgeRecord hr
  obtain ⟨n, hn, hthin⟩ := h n' hn'
  obtain ⟨l, hl, hfirst, hsecond, hproperties, hcarried⟩ := hthin.edges.back k l' hl'
  obtain ⟨b, hb, rfl⟩ := hd.find?_of_mem hn
  have hid := hthin.id
  rw [hd'.endpoints?_of_mem hn', hid, hd.endpoints?_of_mem hn, Storage.endpoints?,
    Storage.endpoints?, hl, hl', Option.map_some, Option.map_some, hfirst, hsecond]
  exact ⟨l.record, edgeRecord_of_find? hb hl, rfl, hproperties, hcarried⟩

theorem Thinned.carried (h : t.Thinned t' gone) (hd : t.Distinct) {k : LocalEdge} {e : GlobalEdge}
    (he : e ∈ t'.carried c k) : e ∈ t.carried c k := by
  obtain ⟨n', hn', rfl, hcarried⟩ := exists_node_of_carried he
  obtain ⟨n, hn, hthin⟩ := h n' hn'
  obtain ⟨l', hl', hmem⟩ := Storage.mem_carried.mp hcarried
  obtain ⟨x, hx, rfl⟩ := List.mem_map.mp hmem
  obtain ⟨l, hl, -, -, -, hback⟩ := hthin.edges.back k l' hl'
  rw [hthin.id, hd.carried_of_mem hn]
  exact Storage.mem_carried.mpr ⟨l, hl, List.mem_map_of_mem (hback x hx)⟩

/-! ## Reports from what is left -/

/-- Vertices of one cluster departed.  What is left, what is reported and the
    ordinary vertices that were themselves removed make up what there was. -/
structure Departed (t t' : Tree) (gone : ClusterId → LocalVertex → Prop) (reported : List Removal)
    (removed : List GlobalVertex) : Prop where
  before : ∃ count, t.Orderly count
  after : ∃ count, t'.Orderly count
  thinned : t.Thinned t' gone
  trimmed : t.Trimmed t' gone
  together : ∀ c v d w, gone c v → gone d w → c = d
  balance : t'.contents + ((reported ++ removed.map Removal.vertex : List Removal) : Multiset Removal)
    = t.contents
  ends : ∀ e, .edge e ∈ reported → ∃ c v, gone c v ∧ t.Ends c v e
  removed : ∀ g, g ∈ removed
    ↔ ∃ c v, t.global? c v = some g ∧ t.isClusterVertex c v = false ∧ gone c v

namespace Departed

variable {reported : List Removal} {removed : List GlobalVertex}

theorem mem_contents (h : t.Departed t' gone reported removed) (x : Removal) :
    x ∈ t.contents ↔ x ∈ t'.contents ∨ x ∈ reported ∨ x ∈ removed.map Removal.vertex := by
  rw [← h.balance, Multiset.mem_add, Multiset.mem_coe, List.mem_append]

/-- As nothing was there twice, it is reported once, and only if it is gone. -/
theorem apart (h : t.Departed t' gone reported removed) :
    reported.Nodup ∧ (∀ x ∈ reported, x ∉ t'.contents)
      ∧ ∀ x ∈ reported, x ∉ removed.map Removal.vertex := by
  obtain ⟨count, ho⟩ := h.before
  have hnodup := ho.nodup_contents
  rw [← h.balance, Multiset.nodup_add, Multiset.coe_nodup, List.nodup_append'] at hnodup
  obtain ⟨-, ⟨hreported, -, hremoved⟩, hleft⟩ := hnodup
  refine ⟨hreported, fun x hx hstay => ?_, fun x hx hx' => hremoved hx hx'⟩
  exact Multiset.disjoint_left.mp hleft hstay (Multiset.mem_coe.mpr (List.mem_append_left _ hx))

theorem global?_iff (h : t.Departed t' gone reported removed) {g : GlobalVertex} :
    t'.global? c v = some g ∧ t'.isClusterVertex c v = false
      ↔ (t.global? c v = some g ∧ t.isClusterVertex c v = false) ∧ ¬ t.Loses gone g := by
  obtain ⟨count, ho⟩ := h.before
  obtain ⟨count', ho'⟩ := h.after
  exact h.trimmed.global?_iff h.thinned ho ho'.sound

theorem isLive_iff (h : t.Departed t' gone reported removed) :
    t'.isLive d = true ↔ t.isLive d = true ∧ ¬ t.Sheds gone d := by
  obtain ⟨count, ho⟩ := h.before
  obtain ⟨count', ho'⟩ := h.after
  rw [Tree.isLive_iff, Tree.isLive_iff, h.trimmed.mem_ids_iff ho.sound ho'.sound, Sheds]
  simp only [not_exists, not_and]

theorem cluster_mem_iff (h : t.Departed t' gone reported removed) :
    .cluster d ∈ reported ↔ t.Sheds gone d := by
  have hwhole := h.mem_contents (.cluster d)
  rw [cluster_mem_contents, cluster_mem_contents, h.isLive_iff] at hwhole
  have hnot : .cluster d ∉ removed.map Removal.vertex := by simp
  constructor
  · intro hd
    have hgone := h.apart.2.1 _ hd
    rw [cluster_mem_contents, h.isLive_iff] at hgone
    by_contra hkept
    exact hgone ⟨hwhole.mpr (Or.inr (Or.inl hd)), hkept⟩
  · intro hshed
    have hlive : t.isLive d = true := by
      obtain ⟨step, hstep, -⟩ := hshed
      by_contra hdead
      rw [path_of_dead (fun hmem => hdead (Tree.isLive_iff.mpr hmem))] at hstep
      exact absurd hstep List.not_mem_nil
    rcases hwhole.mp hlive with hleft | hd | hd
    · exact absurd hshed hleft.2
    · exact hd
    · exact absurd hd hnot

theorem edge_mem_iff (h : t.Departed t' gone reported removed) {e : GlobalEdge} :
    .edge e ∈ reported
      ↔ (∃ c k, e ∈ t.carried c k) ∧ (t.Loses gone e.source ∨ t.Loses gone e.target) := by
  obtain ⟨count, ho⟩ := h.before
  obtain ⟨count', ho'⟩ := h.after
  rw [← ho.sound.distinct.edge_mem_contents, h.mem_contents]
  constructor
  · intro he
    obtain ⟨c, v, hgone, hends⟩ := h.ends e he
    exact ⟨Or.inr (Or.inl he), ho.loses_of_ends hgone hends⟩
  · rintro ⟨hleft | he | he, hlost⟩
    · -- An edge that is left ends at vertices that are left.
      obtain ⟨n, hn, z, hz⟩ : ∃ n ∈ t'.nodes, ∃ z, (z, e) ∈ n.storage.carries := by
        simpa [contents, Node.contents] using hleft
      obtain ⟨a, b, -, ha, hb⟩ := ho'.placed n hn z e hz
      obtain ⟨_, _, -, hsource⟩ := ha.stored ho'.sound.distinct
      obtain ⟨_, _, -, htarget⟩ := hb.stored ho'.sound.distinct
      exact absurd hlost (not_or.mpr ⟨(h.global?_iff.mp hsource).2, (h.global?_iff.mp htarget).2⟩)
    · exact he
    · exact absurd he (by simp)

/-- Vertices that depart are not in a cluster that is shed. -/
theorem not_sheds (h : t.Departed t' gone reported removed) (hgone : gone c v) :
    ¬ t.Sheds gone c := by
  obtain ⟨count, ho⟩ := h.before
  rintro ⟨⟨d, w⟩, hstep, hgone'⟩
  obtain rfl := h.together c v d w hgone hgone'
  exact absurd (ho.sound.distinct.length_path_lt hstep) (Nat.lt_irrefl _)

theorem vertex_mem_iff (h : t.Departed t' gone reported removed) {g : GlobalVertex} :
    .vertex g ∈ reported
      ↔ ∃ c v, t.global? c v = some g ∧ t.isClusterVertex c v = false ∧ t.Sheds gone c := by
  obtain ⟨count, ho⟩ := h.before
  obtain ⟨count', ho'⟩ := h.after
  have hremoved : .vertex g ∈ removed.map Removal.vertex
      ↔ ∃ c v, t.global? c v = some g ∧ t.isClusterVertex c v = false ∧ gone c v := by
    rw [← h.removed]
    simp
  constructor
  · intro hg
    obtain ⟨c, v, hglobal, hplain⟩ := ho.sound.distinct.vertex_mem_contents.mp
      ((h.mem_contents _).mpr (Or.inr (Or.inl hg)))
    refine ⟨c, v, hglobal, hplain, ?_⟩
    by_contra hshed
    by_cases hgone : gone c v
    · exact h.apart.2.2 _ hg (hremoved.mpr ⟨c, v, hglobal, hplain, hgone⟩)
    · have hleft := h.global?_iff.mpr ⟨⟨hglobal, hplain⟩,
        fun hlost => ((ho.loses_iff hglobal hplain).mp hlost).elim hgone hshed⟩
      exact h.apart.2.1 _ hg (ho'.sound.distinct.vertex_mem_contents.mpr ⟨c, v, hleft⟩)
  · rintro ⟨c, v, hglobal, hplain, hshed⟩
    have hlost : t.Loses gone g := ⟨c, v, hglobal, hplain, Or.inr hshed⟩
    have hmem := (h.mem_contents _).mp
      (ho.sound.distinct.vertex_mem_contents.mpr ⟨c, v, hglobal, hplain⟩)
    rcases hmem with hleft | hg | hg
    · obtain ⟨c', v', hleft⟩ := ho'.sound.distinct.vertex_mem_contents.mp hleft
      exact absurd hlost (h.global?_iff.mp hleft).2
    · exact hg
    · obtain ⟨c', v', hglobal', -, hgone⟩ := hremoved.mp hg
      obtain ⟨rfl, rfl⟩ := ho.eq_of_vertices hglobal hglobal'
      exact absurd hshed (h.not_sheds hgone)

theorem carried_iff (h : t.Departed t' gone reported removed) {k : LocalEdge} {e : GlobalEdge} :
    e ∈ t'.carried c k ↔ e ∈ t.carried c k ∧ .edge e ∉ reported := by
  obtain ⟨count, ho⟩ := h.before
  obtain ⟨count', ho'⟩ := h.after
  have hback : ∀ {c k}, e ∈ t'.carried c k → e ∈ t.carried c k :=
    h.thinned.carried ho.sound.distinct
  constructor
  · intro he
    have hleft := ho'.sound.distinct.edge_mem_contents.mpr ⟨c, k, he⟩
    exact ⟨hback he, fun hreported => h.apart.2.1 _ hreported hleft⟩
  · rintro ⟨he, hnot⟩
    rcases (h.mem_contents _).mp (ho.sound.distinct.edge_mem_contents.mpr ⟨c, k, he⟩)
      with hleft | hreported | hremoved
    · obtain ⟨c', k', he'⟩ := ho'.sound.distinct.edge_mem_contents.mp hleft
      obtain ⟨rfl, rfl, -⟩ := ho.eq_of_carried he (hback he') rfl
      exact he'
    · exact absurd hreported hnot
    · exact absurd hremoved (by simp)

/-- The report is exact, and so is what is left. -/
theorem removes (h : t.Departed t' gone reported removed) : t.Removes t' gone reported := by
  constructor
  case once => exact h.apart.1
  case edges => exact fun e => h.edge_mem_iff
  case vertices => exact fun g => h.vertex_mem_iff
  case clusters => exact fun d => h.cluster_mem_iff
  case edgesLeft => exact fun c k e => h.carried_iff
  case verticesLeft => exact fun c v g => h.global?_iff
  case clustersLeft =>
    intro d
    rw [h.isLive_iff, h.cluster_mem_iff]
  case linksLeft =>
    obtain ⟨count, ho⟩ := h.before
    obtain ⟨count', ho'⟩ := h.after
    exact fun c k r' hr' => h.thinned.exists_edgeRecord ho.sound.distinct ho'.sound.distinct hr'

end Departed

end Tree

/-! ## Commands -/

/-- The command removes vertices, with all that hangs on them. -/
def Command.discards : Command → Bool
  | .removeCluster .. => true
  | .removeClusterOn .. => true
  | .removeClusters _ => true
  | .removeVertex .. => true
  | .removeGlobalVertex .. => true
  | _ => false

namespace Tree

variable {t : Tree} {c child : ClusterId} {v : LocalVertex} {result : Tree × List Removal}

/-- A tree from which vertices of a cluster were taken, one after the other, and
    what was reported of it. -/
def Discarded (t t' : Tree) (gone : ClusterId → LocalVertex → Prop) (reported : List Removal) :
    Prop :=
  ∃ c vs, (t.discardAll c vs).1.Restyled t' ∧ reported = (t.discardAll c vs).2
    ∧ ∀ d w, gone d w ↔ d = c ∧ w ∈ vs

theorem discarded_single {t' : Tree} {gone : ClusterId → LocalVertex → Prop}
    (h : (t.discard c v).1.Restyled t') (hgone : ∀ d w, gone d w ↔ d = c ∧ w = v) :
    t.Discarded t' gone (t.discard c v).2 := by
  have hsingle : t.discardAll c [v] = t.discard c v := by
    show ((t.discard c v).1, (t.discard c v).2 ++ []) = _
    rw [List.append_nil]
  refine ⟨c, [v], ?_, ?_, fun d w => ?_⟩
  · rwa [hsingle]
  · rw [hsingle]
  · rw [hgone, List.mem_singleton]

theorem Sound.isClusterVertex_of_child (hs : t.Sound) (h : (v, child) ∈ t.children c) :
    t.isClusterVertex c v = true := by
  obtain ⟨n, hn, rfl, he⟩ := exists_node_of_children h
  exact (hs.distinct.isClusterVertex_iff hn v).mpr (List.mem_map_of_mem he)

/-- A child hangs on one vertex. -/
theorem Sound.eq_of_children (hs : t.Sound) {w : LocalVertex} (hv : (v, child) ∈ t.children c)
    (hw : (w, child) ∈ t.children c) : w = v := by
  have hplace := (hs.distinct.place?_eq_some_iff.mpr hw).symm.trans
    (hs.distinct.place?_eq_some_iff.mpr hv)
  exact (Prod.mk.inj (Option.some.inj hplace)).2

theorem Sound.of_removeCluster (hs : t.Sound) (h : t.removeCluster c child = .ok result) :
    ∃ v, result = t.discard c v ∧ (v, child) ∈ t.children c := by
  obtain ⟨v, hv, h⟩ := of_bind_eq_ok h
  exact ⟨v, (Except.ok.inj h).symm, of_vertexOfChild hs.distinct hv⟩

theorem Sound.of_removeClusterOn (hs : t.Sound) (h : t.removeClusterOn c v = .ok result) :
    result = t.discard c v ∧ t.isClusterVertex c v = true := by
  obtain ⟨child, hchild, h⟩ := of_bind_eq_ok h
  obtain ⟨w, rfl, hw⟩ := hs.of_removeCluster h
  have hv := mem_children_of_childAt? (of_requireChildAt hchild)
  obtain rfl := hs.eq_of_children hw hv
  exact ⟨rfl, hs.isClusterVertex_of_child hv⟩

theorem mem_ordinaryAt {g : GlobalVertex} :
    g ∈ t.ordinaryAt c v ↔ t.global? c v = some g ∧ t.isClusterVertex c v = false := by
  rw [ordinaryAt]
  cases t.isClusterVertex c v <;> simp

end Tree

namespace Graph

variable {g h : Graph} {command : Command} {reply : Reply}

/-- Whatever the command, it takes some vertices of one cluster out. -/
theorem discarded_perform (hs : g.tree.Sound) (hc : command.discards = true)
    (hp : g.perform command = .ok (h, reply)) :
    ∃ reported, reply = .removed reported
      ∧ g.tree.Discarded h.tree (g.tree.Departs command) reported := by
  cases command with
  | removeCluster c child =>
      obtain ⟨r, hr, rfl, rfl⟩ := of_reporting hp
      obtain ⟨v, rfl, hv⟩ := hs.of_removeCluster hr
      refine ⟨_, rfl, Tree.discarded_single (.refl _) (fun d w => and_congr_right (fun _ => ?_))⟩
      exact ⟨hs.eq_of_children hv, fun heq => heq ▸ hv⟩
  | removeClusterOn c v =>
      obtain ⟨r, hr, rfl, rfl⟩ := of_reporting hp
      obtain ⟨rfl, -⟩ := hs.of_removeClusterOn hr
      exact ⟨_, rfl, Tree.discarded_single (.refl _) (fun d w => Iff.rfl)⟩
  | removeClusters c =>
      obtain ⟨r, hr, rfl, rfl⟩ := of_reporting hp
      obtain ⟨b, hb, hr⟩ := of_bind_eq_ok hr
      obtain rfl := Except.ok.inj hr
      obtain rfl := Tree.id_of_find? (Tree.of_require hb)
      have hn := Tree.node_mem_of_find? (Tree.of_require hb)
      exact ⟨_, rfl, b.cluster.id, _, .refl _, rfl, fun d w =>
        and_congr_right (fun _ => hs.distinct.isClusterVertex_iff hn w)⟩
  | removeVertex c v =>
      obtain ⟨r, hr, rfl, rfl⟩ := of_reporting hp
      obtain ⟨-, -, hr⟩ := of_bind_eq_ok hr
      obtain rfl := Except.ok.inj hr
      exact ⟨_, rfl, Tree.discarded_single (.refl _) (fun d w => Iff.rfl)⟩
  | removeGlobalVertex c global =>
      obtain ⟨r, hr, rfl, rfl⟩ := of_reporting hp
      cases howner : g.tree.vertexOwner? c global with
      | none =>
          rw [Tree.removeGlobalVertex, howner] at hr
          cases hr
      | some place =>
          obtain ⟨owner, v⟩ := place
          rw [Tree.removeGlobalVertex, howner] at hr
          obtain rfl := Except.ok.inj hr
          refine ⟨_, rfl, Tree.discarded_single
            ((hs.becomes_discard owner v).sound.distinct.restyled_markUpTo owner c) (fun d w => ?_)⟩
          rw [Tree.Departs, howner, Option.some.injEq, Prod.mk.injEq, eq_comm, eq_comm (a := v)]
  | _ => exact absurd hc Bool.false_ne_true

/-- The ordinary vertices that a command removes are those that depart
    themselves. -/
theorem mem_removed_iff (hs : g.tree.Sound) (hc : command.discards = true)
    (hp : g.perform command = .ok (h, reply)) {name : GlobalVertex} :
    name ∈ command.removed g.tree
      ↔ ∃ c v, g.tree.global? c v = some name ∧ g.tree.isClusterVertex c v = false
        ∧ g.tree.Departs command c v := by
  -- Of clusters that are removed no vertex that departs is an ordinary one.
  have hnone : (∀ c v, g.tree.Departs command c v → g.tree.isClusterVertex c v = true) →
      ¬ ∃ c v, g.tree.global? c v = some name ∧ g.tree.isClusterVertex c v = false
        ∧ g.tree.Departs command c v := by
    rintro hall ⟨c, v, -, hplain, hgone⟩
    exact absurd (hall c v hgone) (by simp [hplain])
  cases command with
  | removeCluster c child =>
      refine iff_of_false List.not_mem_nil (hnone ?_)
      rintro _ v ⟨rfl, hv⟩
      exact hs.isClusterVertex_of_child hv
  | removeClusterOn c v =>
      obtain ⟨r, hr, -, -⟩ := of_reporting hp
      refine iff_of_false List.not_mem_nil (hnone ?_)
      rintro _ _ ⟨rfl, rfl⟩
      exact (hs.of_removeClusterOn hr).2
  | removeClusters c =>
      refine iff_of_false List.not_mem_nil (hnone ?_)
      rintro _ v ⟨rfl, hv⟩
      exact hv
  | removeVertex c v =>
      show name ∈ g.tree.ordinaryAt c v ↔ _
      rw [Tree.mem_ordinaryAt]
      constructor
      · exact fun hv => ⟨c, v, hv.1, hv.2, rfl, rfl⟩
      · rintro ⟨_, _, hglobal, hplain, rfl, rfl⟩
        exact ⟨hglobal, hplain⟩
  | removeGlobalVertex c global =>
      simp only [Command.removed, Tree.Departs]
      cases g.tree.vertexOwner? c global with
      | none => simp
      | some place =>
          obtain ⟨owner, v⟩ := place
          show name ∈ g.tree.ordinaryAt owner v ↔ _
          rw [Tree.mem_ordinaryAt]
          constructor
          · exact fun hv => ⟨owner, v, hv.1, hv.2, rfl⟩
          · rintro ⟨_, _, hglobal, hplain, heq⟩
            obtain ⟨rfl, rfl⟩ := Prod.mk.inj (Option.some.inj heq)
            exact ⟨hglobal, hplain⟩
  | _ => exact absurd hc Bool.false_ne_true

/-- Nothing is created, and no edge is dropped without a word. -/
theorem entry_of_discards {t : Tree} {reported : List Removal} (hc : command.discards = true) :
    command.entry t (.removed reported) = ⟨[], reported, command.removed t, []⟩ := by
  cases command <;> first | rfl | exact absurd hc Bool.false_ne_true

/-- After a command that removes vertices, all is as it was told. -/
theorem removes_perform {count : UInt64} (ho : g.tree.Orderly count)
    (hc : command.discards = true) (hp : g.perform command = .ok (h, reply)) :
    ∃ reported, reply = .removed reported
      ∧ g.tree.Removes h.tree (g.tree.Departs command) reported := by
  obtain ⟨reported, rfl, c, vs, hstyle, hreported, hgone⟩ := discarded_perform ho.sound hc hp
  have hs := (becomes_perform ho.sound hp).sound
  have hremoves : command.removes = true := by
    cases command <;> first | rfl | exact absurd hc Bool.false_ne_true
  have hdeparted : g.tree.Departed h.tree (g.tree.Departs command) reported
      (command.removed g.tree) := by
    constructor
    case before => exact ⟨count, ho⟩
    case after => exact ⟨count, (ho.discardAll c vs).restyled hs hstyle⟩
    case thinned => exact thinned_perform ho.sound hremoves hp
    case trimmed =>
      have htrim := (ho.sound.trimmed_discardAll c vs).trans hstyle.lighter.trimmed
      exact htrim.congr (fun d _ w => by simp [hgone])
    case together =>
      intro c v d w hv hw
      rw [hgone] at hv hw
      exact hv.1.trans hw.1.symm
    case balance =>
      have hturn := turnover_perform ho.sound hp
      rw [Tree.Turnover, entry_of_discards hc, Ledger.gone, List.map_nil, List.append_nil] at hturn
      exact hturn.trans (add_zero _)
    case ends =>
      intro e he
      rw [hreported] at he
      obtain ⟨v, hv, hends⟩ := ho.ends_of_discardAll he
      exact ⟨c, v, (hgone c v).mpr ⟨rfl, hv⟩, hends⟩
    case removed => exact fun name => mem_removed_iff ho.sound hc hp
  exact ⟨reported, rfl, hdeparted.removes⟩

end Graph

/-! ## Runs -/

namespace Workspace

/-- **REMOVALS ARE EXACT**: after a well-behaved run, a command that removes a
    vertex, a cluster or all children of a cluster reports each cluster that
    hangs on what departs, each ordinary vertex in those clusters and each
    global edge, stored anywhere, with an end that is lost; it reports nothing
    else and nothing twice.  What is left is all the rest, and every edge that is
    left is where it was. -/
theorem removes_run {operations : List Operation} (h : empty.WellBehaved operations)
    {number : Nat} {command : Command} {reply : Reply} {w' : Workspace} {m m' : Member}
    (hc : command.discards = true)
    (hstep : (empty.run operations).step (.change number command) = (w', .ok reply))
    (hm : (empty.run operations).members[number]? = some m)
    (hm' : w'.members[number]? = some m') :
    ∃ reported, reply = .removed reported
      ∧ m.tree.Removes m'.tree (m.tree.Departs command) reported := by
  have hordered := ordered_empty.run h
  obtain ⟨k, ids, g', hk, hids, hp, rfl⟩ := exists_perform hordered.sound hstep hm'
  obtain rfl := Option.some.inj (hm.symm.trans hk)
  have ho := hordered.trees m (List.mem_of_getElem? hm) ids hids
  exact Graph.removes_perform (g := ⟨m.tree, ids⟩) ho hc hp

/-- Two clusters go from one that stays.  Edges run inside one of them, between
    them, to a vertex beside them, and from inside one to the root, there on
    an edge that also carries one that stays. -/
theorem removes_removeClusters :
    let operations := [Operation.newGraph (.declared []) .fresh,
      .change 0 (.addCluster Tree.rootId), .change 0 (.addVertex Tree.rootId),
      .change 0 (.addCluster ⟨1⟩), .change 0 (.addCluster ⟨1⟩), .change 0 (.addVertex ⟨2⟩),
      .change 0 (.addVertex ⟨2⟩), .change 0 (.addVertex ⟨3⟩), .change 0 (.addVertex ⟨1⟩),
      .change 0 (.connect ⟨2⟩ ⟨15⟩ ⟨16⟩), .change 0 (.connect ⟨1⟩ ⟨15⟩ ⟨17⟩),
      .change 0 (.connect Tree.rootId ⟨16⟩ ⟨12⟩), .change 0 (.connect ⟨1⟩ ⟨17⟩ ⟨18⟩),
      .change 0 (.connect Tree.rootId ⟨18⟩ ⟨12⟩)]
    let w := empty.run operations
    let command := Command.removeClusters ⟨1⟩
    let reported := [Removal.edge ⟨⟨15⟩, ⟨16⟩, 19⟩, .vertex ⟨15⟩, .vertex ⟨16⟩, .cluster ⟨2⟩,
      .edge ⟨⟨15⟩, ⟨17⟩, 20⟩, .edge ⟨⟨16⟩, ⟨12⟩, 21⟩, .vertex ⟨17⟩, .cluster ⟨3⟩,
      .edge ⟨⟨17⟩, ⟨18⟩, 22⟩]
    empty.WellBehaved operations
      ∧ ∃ m m', w.members[0]? = some m ∧ (w.step (.change 0 command)).1.members[0]? = some m'
        ∧ m.tree.carried Tree.rootId ⟨0, 0⟩ = [⟨⟨16⟩, ⟨12⟩, 21⟩, ⟨⟨18⟩, ⟨12⟩, 23⟩]
        ∧ m'.tree.carried Tree.rootId ⟨0, 0⟩ = [⟨⟨18⟩, ⟨12⟩, 23⟩]
        ∧ (w.step (.change 0 command)).2 = .ok (.removed reported)
        ∧ m.tree.Removes m'.tree (m.tree.Departs command) reported := by
  intro operations w command reported
  have hwell : empty.WellBehaved operations := by decide +kernel
  have hm : ∃ m ∈ w.members[0]?,
      m.tree.carried Tree.rootId ⟨0, 0⟩ = [⟨⟨16⟩, ⟨12⟩, 21⟩, ⟨⟨18⟩, ⟨12⟩, 23⟩] := by
    decide +kernel
  have hm' : ∃ m' ∈ (w.step (.change 0 command)).1.members[0]?,
      m'.tree.carried Tree.rootId ⟨0, 0⟩ = [⟨⟨18⟩, ⟨12⟩, 23⟩] := by decide +kernel
  have hreply : (w.step (.change 0 command)).2 = .ok (.removed reported) := by decide +kernel
  obtain ⟨m, hm, hbefore⟩ := hm
  obtain ⟨m', hm', hafter⟩ := hm'
  have hstep : w.step (.change 0 command)
      = ((w.step (.change 0 command)).1, .ok (.removed reported)) := Prod.ext rfl hreply
  obtain ⟨_, heq, hremoves⟩ := removes_run hwell rfl hstep hm hm'
  obtain rfl := Reply.removed.inj heq
  exact ⟨hwell, m, m', hm, hm', hbefore, hafter, hreply, hremoves⟩

end Workspace

end NestedGraph
