import NestedGraph.Proofs.Connection

/-! # Sequence — removals are reported from the inside out

    Each removal that is reported has a site: the cluster in which what went
    was stored.  Along the sites a report goes up.  Of a cluster that goes, all
    that was nested in it comes first, one child after the other, and then its
    own edges, its own vertices and the cluster.  The edges that connected it
    to the rest of the tree come last, those further up later. -/

namespace NestedGraph

/-! ## Notices -/

/-- A removal that is reported, and the cluster in which what went was
    stored. -/
structure Notice where
  site : ClusterId
  removal : Removal

namespace Notice

variable {first later first' later' : ClusterId → Prop} {log log' : List Notice} {d : ClusterId}

/-- What is reported of one site. -/
def about (d : ClusterId) (log : List Notice) : List Removal :=
  (log.filter (fun notice => decide (notice.site = d))).map Notice.removal

/-- Everything of the first sites is reported before anything of the later
    ones. -/
def Precede (first later : ClusterId → Prop) (log : List Notice) : Prop :=
  log.Pairwise (fun notice next => ¬ (later notice.site ∧ first next.site))

theorem about_append : about d (log ++ log') = about d log ++ about d log' := by
  rw [about, List.filter_append, List.map_append]
  rfl

theorem about_eq_nil (h : ∀ notice ∈ log, notice.site ≠ d) : about d log = [] := by
  rw [about, List.filter_eq_nil_iff.mpr (fun notice hn => by simpa using h notice hn)]
  rfl

theorem about_map_mk (d : ClusterId) (removals : List Removal) :
    about d (removals.map (Notice.mk d)) = removals := by
  induction removals with
  | nil => rfl
  | cons removal rest ih =>
      rw [List.map_cons, about, List.filter_cons_of_pos (by simp), List.map_cons]
      exact congrArg (removal :: ·) ih

theorem precede_append (h : ∀ notice ∈ log, ¬ later notice.site)
    (h' : ∀ notice ∈ log', ¬ first notice.site) : Precede first later (log ++ log') := by
  refine List.pairwise_append.mpr ⟨?_, ?_, fun notice hn _ _ hboth => h notice hn hboth.1⟩
  · exact List.pairwise_of_forall_mem_list (fun notice hn _ _ hboth => h notice hn hboth.1)
  · exact List.pairwise_of_forall_mem_list (fun _ _ next hn hboth => h' next hn hboth.2)

/-- What is reported of other sites does not matter. -/
theorem Precede.inset (h : Precede first later log) (before after : List Notice)
    (hout : ∀ notice ∈ before ++ after, ¬ first notice.site ∧ ¬ later notice.site) :
    Precede first later (before ++ log ++ after) := by
  have hbefore := fun notice hn => hout notice (List.mem_append_left after hn)
  have hafter := fun notice hn => hout notice (List.mem_append_right before hn)
  refine List.pairwise_append.mpr ⟨List.pairwise_append.mpr ⟨?_, h, ?_⟩, ?_, ?_⟩
  · exact List.pairwise_of_forall_mem_list (fun n hn _ _ hboth => (hbefore n hn).2 hboth.1)
  · exact fun n hn _ _ hboth => (hbefore n hn).2 hboth.1
  · exact List.pairwise_of_forall_mem_list (fun n hn _ _ hboth => (hafter n hn).2 hboth.1)
  · exact fun _ _ m hm hboth => (hafter m hm).1 hboth.2

theorem Precede.imp (h : Precede first later log) (hfirst : ∀ d, first' d → first d)
    (hlater : ∀ d, later' d → later d) : Precede first' later' log :=
  List.Pairwise.imp (fun hnot hboth => hnot ⟨hlater _ hboth.1, hfirst _ hboth.2⟩) h

/-! ### Edges by site -/

/-- Notices of the edges of one site. -/
def ofEdges (group : ClusterId × List GlobalEdge) : List Notice :=
  (group.2.map Removal.edge).map (Notice.mk group.1)

variable {groups : List (ClusterId × List GlobalEdge)} {group : ClusterId × List GlobalEdge}

theorem site_of_mem_ofEdges {notice : Notice} (h : notice ∈ ofEdges group) :
    notice.site = group.1 := by
  obtain ⟨_, -, rfl⟩ := List.mem_map.mp h
  rfl

theorem site_mem_of_mem_groups {notice : Notice} (h : notice ∈ groups.flatMap ofEdges) :
    notice.site ∈ groups.map Prod.fst := by
  obtain ⟨group, hg, hn⟩ := List.mem_flatMap.mp h
  exact site_of_mem_ofEdges hn ▸ List.mem_map_of_mem hg

theorem removal_groups (groups : List (ClusterId × List GlobalEdge)) :
    (groups.flatMap ofEdges).map Notice.removal = (groups.flatMap Prod.snd).map Removal.edge := by
  rw [List.map_flatMap, List.map_flatMap]
  exact List.flatMap_congr (fun group _ => by rw [ofEdges, List.map_map]; exact List.map_id _)

theorem about_groups (hd : (groups.map Prod.fst).Nodup) (h : group ∈ groups) :
    about group.1 (groups.flatMap ofEdges) = group.2.map Removal.edge := by
  induction groups with
  | nil => cases h
  | cons other rest ih =>
      rw [List.map_cons, List.nodup_cons] at hd
      rw [List.flatMap_cons, about_append]
      rcases List.mem_cons.mp h with rfl | h
      · rw [ofEdges, about_map_mk, about_eq_nil, List.append_nil]
        exact fun notice hn heq => hd.1 (heq ▸ site_mem_of_mem_groups hn)
      · rw [about_eq_nil, List.nil_append, ih hd.2 h]
        intro notice hn heq
        rw [site_of_mem_ofEdges hn] at heq
        exact hd.1 (heq ▸ List.mem_map_of_mem h)

/-- Groups are reported one after the other. -/
theorem precede_groups (hd : (groups.map Prod.fst).Nodup) :
    (groups.map Prod.fst).Pairwise (fun near far =>
      Precede (· = near) (· = far) (groups.flatMap ofEdges)) := by
  induction groups with
  | nil => exact List.Pairwise.nil
  | cons group rest ih =>
      rw [List.map_cons, List.nodup_cons] at hd
      rw [List.map_cons, List.pairwise_cons, List.flatMap_cons]
      constructor
      · intro far hfar
        refine precede_append (fun notice hn heq => hd.1 ?_) (fun notice hn heq => hd.1 ?_)
        · exact ((site_of_mem_ofEdges hn).symm.trans heq) ▸ hfar
        · exact heq ▸ site_mem_of_mem_groups hn
      · refine (ih hd.2).imp_of_mem (fun {near far} hnear hfar h => ?_)
        have hinset := h.inset (ofEdges group) [] (fun notice hn => ?_)
        · rwa [List.append_nil] at hinset
        · rw [List.append_nil] at hn
          rw [site_of_mem_ofEdges hn]
          exact ⟨fun heq => hd.1 (heq ▸ hnear), fun heq => hd.1 (heq ▸ hfar)⟩

end Notice

/-! ## What goes with a cluster -/

/-- The removals of a cluster itself, with their site. -/
def Cluster.notices (k : Cluster) (inside : Forest) : List Notice :=
  (k.removals inside).map (Notice.mk k.id)

/-- The removals of a forest, with their sites. -/
def Forest.notices : Forest → List Notice
  | nil => []
  | cons _ k inside rest => inside.notices ++ k.notices inside ++ rest.notices

/-- The removals of a branch, with their sites. -/
def Branch.notices (b : Branch) : List Notice := b.inside.notices ++ b.cluster.notices b.inside

theorem Cluster.removal_notices (k : Cluster) (inside : Forest) :
    (k.notices inside).map Notice.removal = k.removals inside := by
  rw [notices, List.map_map]
  exact List.map_id _

theorem Cluster.site_of_mem_notices {k : Cluster} {inside : Forest} {notice : Notice}
    (h : notice ∈ k.notices inside) : notice.site = k.id := by
  obtain ⟨_, -, rfl⟩ := List.mem_map.mp h
  rfl

namespace Forest

variable {f : Forest} {notice : Notice}

theorem removal_notices (f : Forest) : f.notices.map Notice.removal = f.removals := by
  induction f with
  | nil => rfl
  | cons v k inside rest ihInside ihRest =>
      rw [notices, removals, List.map_append, List.map_append, ihInside, ihRest,
        Cluster.removal_notices]

theorem site_mem_ids (h : notice ∈ f.notices) : notice.site ∈ f.ids := by
  induction f with
  | nil => cases h
  | cons v k inside rest ihInside ihRest =>
      rw [ids_cons, Multiset.mem_cons, Multiset.mem_add]
      rw [notices, List.mem_append, List.mem_append] at h
      rcases h with (h | h) | h
      · exact Or.inr (Or.inl (ihInside h))
      · exact Or.inl (Cluster.site_of_mem_notices h)
      · exact Or.inr (Or.inr (ihRest h))

end Forest

namespace Branch

variable {b : Branch} {notice : Notice}

theorem removal_notices (b : Branch) : b.notices.map Notice.removal = b.removals := by
  rw [notices, removals, List.map_append, Forest.removal_notices, Cluster.removal_notices]

theorem site_mem_ids (h : notice ∈ b.notices) : notice.site ∈ b.ids := by
  rw [ids_eq, Multiset.mem_cons]
  rcases List.mem_append.mp h with h | h
  · exact Or.inr (Forest.site_mem_ids h)
  · exact Or.inl (Cluster.site_of_mem_notices h)

end Branch

namespace Forest

/-- What goes with a cluster inside is reported in one piece. -/
theorem notices_split {f : Forest} (hd : f.ids.Nodup) {d : ClusterId} {x : Branch}
    (h : f.find? d = some x) :
    ∃ before after, f.notices = before ++ x.notices ++ after
      ∧ ∀ notice ∈ before ++ after, notice.site ∉ x.ids := by
  induction f with
  | nil => cases h
  | cons v k inside rest ihInside ihRest =>
      rw [ids_cons, Multiset.nodup_cons, Multiset.nodup_add] at hd
      obtain ⟨hk, hin, hrest, hdisj⟩ := hd
      rw [Multiset.mem_add, not_or] at hk
      rw [find?] at h
      split at h
      -- The cluster is the first one, is inside the first one, or comes later.
      · obtain rfl := Option.some.inj h
        refine ⟨[], rest.notices, rfl, fun notice hn hx => ?_⟩
        have hsite := site_mem_ids hn
        rw [Branch.ids_eq, Multiset.mem_cons] at hx
        rcases hx with heq | hx
        · exact hk.2 (heq ▸ hsite)
        · exact Multiset.disjoint_left.mp hdisj hx hsite
      · rcases Option.or_eq_some_iff.mp h with h | ⟨-, h⟩
        · obtain ⟨before, after, heq, hout⟩ := ihInside hin h
          have hle : ∀ d ∈ x.ids, d ∈ inside.ids := fun d hd =>
            Multiset.mem_of_le (Multiset.map_le_map (nodes_le_of_find? h)) hd
          refine ⟨before, after ++ k.notices inside ++ rest.notices, ?_, fun notice hn hx => ?_⟩
          · rw [notices, heq]
            simp
          · simp only [List.mem_append, ← or_assoc] at hn
            rcases hn with (hn | hn) | hn
            · exact hout notice (List.mem_append.mpr hn) hx
            · exact hk.1 (Cluster.site_of_mem_notices hn ▸ hle _ hx)
            · exact Multiset.disjoint_left.mp hdisj (hle _ hx) (site_mem_ids hn)
        · obtain ⟨before, after, heq, hout⟩ := ihRest hrest h
          have hle : ∀ d ∈ x.ids, d ∈ rest.ids := fun d hd =>
            Multiset.mem_of_le (Multiset.map_le_map (nodes_le_of_find? h)) hd
          refine ⟨inside.notices ++ k.notices inside ++ before, after, ?_, fun notice hn hx => ?_⟩
          · rw [notices, heq]
            simp
          · simp only [List.mem_append, or_assoc] at hn
            rcases hn with hn | hn | hn
            · exact Multiset.disjoint_left.mp hdisj (site_mem_ids hn) (hle _ hx)
            · exact hk.2 (Cluster.site_of_mem_notices hn ▸ hle _ hx)
            · exact hout notice (List.mem_append.mpr hn) hx

theorem ids_le_of_mem_branches {f : Forest} {entry : LocalVertex × Branch}
    (h : entry ∈ f.branches) : entry.2.ids ≤ f.ids :=
  Multiset.map_le_map (nodes_le_of_mem_branches h)

/-- The branches of a forest go one after the other. -/
theorem precede_branches {f : Forest} (hd : f.ids.Nodup) :
    f.branches.Pairwise (fun entry next =>
      Notice.Precede (· ∈ entry.2.ids) (· ∈ next.2.ids) f.notices) := by
  induction f with
  | nil => exact List.Pairwise.nil
  | cons v k inside rest _ ih =>
      have hids : (cons v k inside rest).ids = (Branch.mk k inside).ids + rest.ids := by
        rw [ids_cons, Branch.ids_eq, Multiset.cons_add]
      rw [hids, Multiset.nodup_add] at hd
      obtain ⟨-, hrest, hdisj⟩ := hd
      have hnot : ∀ {d}, d ∈ (Branch.mk k inside).ids → d ∉ rest.ids := fun hd =>
        Multiset.disjoint_left.mp hdisj hd
      have hle : ∀ {entry d}, entry ∈ rest.branches → d ∈ entry.2.ids → d ∈ rest.ids :=
        fun he hd => Multiset.mem_of_le (ids_le_of_mem_branches he) hd
      show ((v, ⟨k, inside⟩) :: rest.branches).Pairwise (fun entry next =>
        Notice.Precede (· ∈ entry.2.ids) (· ∈ next.2.ids) ((Branch.mk k inside).notices ++ rest.notices))
      refine List.pairwise_cons.mpr ⟨fun next hnext => ?_, ?_⟩
      · exact Notice.precede_append
          (fun notice hn hlater => hnot (Branch.site_mem_ids hn) (hle hnext hlater))
          (fun notice hn hfirst => hnot hfirst (site_mem_ids hn))
      · refine (ih hrest).imp_of_mem (fun {entry next} hentry hnext h => ?_)
        have hinset := h.inset (Branch.mk k inside).notices [] (fun notice hn => ?_)
        · rwa [List.append_nil] at hinset
        · rw [List.append_nil] at hn
          have hsite := Branch.site_mem_ids hn
          exact ⟨fun hx => hnot hsite (hle hentry hx), fun hx => hnot hsite (hle hnext hx)⟩

end Forest

theorem Branch.ids_le_of_find? {b x : Branch} {d : ClusterId} (h : b.find? d = some x) :
    x.ids ≤ b.ids := by
  rw [find?] at h
  split at h
  · obtain rfl := Option.some.inj h
    exact le_refl _
  · rw [ids_eq b]
    exact (Multiset.map_le_map (Forest.nodes_le_of_find? h)).trans (Multiset.le_cons_self ..)

theorem Branch.notices_split {b : Branch} (hd : b.ids.Nodup) {d : ClusterId} {x : Branch}
    (h : b.find? d = some x) :
    ∃ before after, b.notices = before ++ x.notices ++ after
      ∧ ∀ notice ∈ before ++ after, notice.site ∉ x.ids := by
  rw [ids_eq, Multiset.nodup_cons] at hd
  rw [find?] at h
  split at h
  · obtain rfl := Option.some.inj h
    exact ⟨[], [], by simp, fun _ hn => absurd hn List.not_mem_nil⟩
  · obtain ⟨before, after, heq, hout⟩ := Forest.notices_split hd.2 h
    refine ⟨before, after ++ b.cluster.notices b.inside, ?_, fun notice hn hx => ?_⟩
    · rw [notices, heq]
      simp
    · rw [← List.append_assoc, List.mem_append] at hn
      rcases hn with hn | hn
      · exact hout notice hn hx
      · rw [Cluster.site_of_mem_notices hn] at hx
        exact hd.1 (Multiset.mem_of_le (Multiset.map_le_map (Forest.nodes_le_of_find? h)) hx)

theorem Storage.globals_matching (s : Storage) (q : GlobalEdge → Bool) (e : LocalEdge) :
    (s.matching q e).map CarriedEdge.global = (s.carried e).filter q := by
  rw [matching, carried]
  cases s.edgeRecord? e with
  | none => rfl
  | some r => exact (List.filter_map ..).symm

namespace Tree

variable {t : Tree} {p child c d : ClusterId} {v : LocalVertex}

/-! ## A report in order -/

/-- What goes with a cluster before the cluster itself: the global edges on its
    edges, and its vertices that stand for no cluster. -/
def content (t : Tree) (d : ClusterId) : List Removal :=
  ((t.edges d).flatMap (t.carried d)).map .edge
    ++ (((t.vertices d).filter (fun v => !t.isClusterVertex d v)).filterMap (t.global? d)).map .vertex

/-- The removals of a child with everything inside it are reported in order. -/
structure Narrates (t : Tree) (p : ClusterId) (v : LocalVertex) (child : ClusterId)
    (log : List Notice) : Prop where
  sites : ∀ notice ∈ log, t.isAncestor child notice.site = true ∨ t.isAncestor notice.site p = true
  /-- Of a cluster that goes, its content is reported, and then the cluster. -/
  inside : ∀ d, t.isAncestor child d = true →
    Notice.about d log = t.content d ++ [.cluster d]
  /-- Of the cluster around the child, the edges on the child's vertex are. -/
  beside : Notice.about p log = ((t.incident p v).flatMap (t.carried p)).map .edge
  /-- Further up, the edges on the way down that touch what goes are. -/
  above : ∃ names, (∀ g, g ∈ names ↔ t.global? p v = some g
      ∨ ∃ d w, t.isAncestor child d = true ∧ t.global? d w = some g)
    ∧ ∀ step ∈ t.path p, Notice.about step.1 log = ((t.incident step.1 step.2).flatMap (fun e =>
        (t.carried step.1 e).filter (GlobalEdge.touches names))).map .edge
  nested : ∀ d, t.isAncestor child d = true →
    Notice.Precede (fun e => t.isAncestor d e = true ∧ e ≠ d) (· = d) log
  siblings : ∀ d, t.isAncestor child d = true → (t.children d).Pairwise (fun entry next =>
    Notice.Precede (fun e => t.isAncestor entry.2 e = true) (fun e => t.isAncestor next.2 e = true) log)
  outward : Notice.Precede (fun d => t.isAncestor child d = true)
    (fun q => t.isAncestor q p = true) log
  nearest : (p :: (t.path p).map Prod.fst).Pairwise (fun near far =>
    Notice.Precede (· = near) (· = far) log)

section Report

variable {b inner x : Branch}

/-- What goes with a cluster, by what is read of it. -/
theorem removals_of_find? (hb : t.find? d = some b) :
    b.cluster.removals b.inside = t.content d ++ [.cluster d] := by
  have hedges : b.cluster.storage.allCarried = (t.edges d).flatMap (t.carried d) := by
    rw [Storage.allCarried_eq, edges_of_find? hb]
    refine List.flatMap_congr (fun e _ => ?_)
    rw [carried, storage?_of_find? hb]
  have hplain : (fun entry : LocalVertex × VertexRecord => (b.inside.branchAt? entry.1).isNone)
      = (fun v => !t.isClusterVertex d v) ∘ Prod.fst := by
    funext entry
    rw [Function.comp_apply, isClusterVertex, childAt?, hb, Option.bind_some, Option.isSome_map]
    exact (Option.not_isSome _).symm
  have hglobal : ∀ entry ∈ b.cluster.storage.vertices.entries.filter
      ((fun v => !t.isClusterVertex d v) ∘ Prod.fst),
      t.global? d entry.1 = some entry.2.global := by
    intro entry hentry
    rw [global?, storage?_of_find? hb, Option.bind_some, Storage.global?]
    exact congrArg (Option.map VertexRecord.global)
      (SlotStore.mem_entries.mp (List.mem_filter.mp hentry).1)
  have hvertices : ((t.vertices d).filter (fun v => !t.isClusterVertex d v)).filterMap (t.global? d)
      = (b.cluster.storage.vertices.entries.filter
          (fun entry => (b.inside.branchAt? entry.1).isNone)).map (fun entry => entry.2.global) := by
    rw [vertices_of_find? hb, SlotStore.handles, List.filter_map, List.filterMap_map, hplain,
      ← List.filterMap_eq_map]
    exact List.filterMap_congr (fun entry hentry => hglobal entry hentry)
  rw [Cluster.removals, content, hedges, hvertices, List.map_map, id_of_find? hb]
  rfl

/-- The sites of the edges that go from around a child, nearest first, with the
    edges. -/
def groups (t : Tree) (p : ClusterId) (v : LocalVertex) (names : List GlobalVertex) :
    List (ClusterId × List GlobalEdge) :=
  (p, (t.incident p v).flatMap (t.carried p))
    :: (t.path p).map (fun step => (step.1, (t.incident step.1 step.2).flatMap (fun e =>
        (t.carried step.1 e).filter (GlobalEdge.touches names))))

theorem sites_groups (t : Tree) (p : ClusterId) (v : LocalVertex) (names : List GlobalVertex) :
    (t.groups p v names).map Prod.fst = p :: (t.path p).map Prod.fst := by
  rw [groups, List.map_cons, List.map_map]
  rfl

theorem Distinct.nodup_groups (hd : t.Distinct) (p : ClusterId) (v : LocalVertex)
    (names : List GlobalVertex) : ((t.groups p v names).map Prod.fst).Nodup := by
  rw [sites_groups, List.nodup_cons]
  refine ⟨fun hmem => ?_, hd.nodup_path p⟩
  obtain ⟨⟨q, w⟩, hstep, rfl⟩ := List.mem_map.mp hmem
  exact Nat.lt_irrefl _ (hd.length_path_lt hstep)

/-- The notices of a child that goes with its vertex. -/
def notices (t : Tree) (p : ClusterId) (v : LocalVertex) (b inner : Branch) : List Notice :=
  inner.notices ++ (t.groups p v (b.travelling v)).flatMap Notice.ofEdges

theorem edges_groups (hb : t.find? p = some b) (v : LocalVertex) (names : List GlobalVertex) :
    (t.groups p v names).flatMap Prod.snd
      = b.cluster.storage.carriedAt v ++ t.matchingAbove (GlobalEdge.touches names) p := by
  rw [groups, List.flatMap_cons, List.flatMap_map, matchingAbove, incident_of_find? hb]
  congr 1
  · refine List.flatMap_congr (fun e _ => ?_)
    rw [carried, storage?_of_find? hb]
  · refine List.flatMap_congr (fun step _ => ?_)
    dsimp only
    rw [incident]
    cases hstorage : t.storage? step.1 with
    | none => rfl
    | some s =>
        refine List.flatMap_congr (fun e _ => ?_)
        rw [Storage.globals_matching, carried, hstorage]

theorem removal_notices (hb : t.find? p = some b) (hv : b.inside.branchAt? v = some inner) :
    (t.notices p v b inner).map Notice.removal = (t.discard p v).2 := by
  rw [notices, List.map_append, Branch.removal_notices, Notice.removal_groups, edges_groups hb,
    discard, hb]
  dsimp only
  rw [hv]

/-- The names that go with a child are those in it, and that of its vertex. -/
theorem Sound.mem_travelling_iff (hs : t.Sound) (hb : t.find? p = some b)
    (hv : b.inside.branchAt? v = some inner) {g : GlobalVertex} :
    g ∈ b.travelling v ↔ t.global? p v = some g
      ∨ ∃ d w, t.isAncestor inner.cluster.id d = true ∧ t.global? d w = some g := by
  rw [hs.mem_travelling hb]
  obtain rfl := id_of_find? hb
  constructor
  · rintro ⟨o, u, hlead, hg⟩
    generalize hid : b.cluster.id = c at hlead
    cases hlead with
    | here => exact Or.inl hg
    | @inside n _ w _ d _ hn he hlead =>
        obtain rfl := hs.distinct.eq_of_id (node_mem_of_find? hb) hn hid
        obtain ⟨x, hx, rfl⟩ := Forest.branchAt?_of_mem_entries (hs.nodes _ hn).keys he
        obtain rfl := Option.some.inj (hv.symm.trans hx)
        exact Or.inr ⟨o, u, hlead.isAncestor hs.distinct, hg⟩
  · rintro (hg | ⟨d, w, hin, hg⟩)
    · exact ⟨_, v, .here .., hg⟩
    · obtain ⟨u, hlead⟩ := hs.distinct.exists_leads hin w
      exact ⟨d, w, .inside (node_mem_of_find? hb) (Forest.mem_entries_of_branchAt? hv) hlead, hg⟩

/-- A cluster around a child is not inside it. -/
theorem Distinct.notMem_inner (hd : t.Distinct) (hb : t.find? p = some b)
    (hv : b.inside.branchAt? v = some inner) (h : c ∈ p :: (t.path p).map Prod.fst) :
    c ∉ inner.ids := by
  obtain rfl := id_of_find? hb
  have hpath := hd.path_child (node_mem_of_find? hb) (Forest.mem_entries_of_branchAt? hv)
  have hmem : c ∈ (t.path inner.cluster.id).map Prod.fst := by
    rw [hpath]
    exact h
  obtain ⟨⟨q, w⟩, hstep, rfl⟩ := List.mem_map.mp hmem
  exact hd.notMem_of_mem_path hstep (hd.find?_of_branchAt? hb hv)

/-- Every cluster of a child that goes is reported in one piece, and nothing
    around the child is in it. -/
theorem Distinct.exists_piece (hd : t.Distinct) (hb : t.find? p = some b)
    (hv : b.inside.branchAt? v = some inner) (h : d ∈ inner.ids) :
    ∃ x before after, t.find? d = some x ∧ (∀ e ∈ x.ids, e ∈ inner.ids)
      ∧ t.notices p v b inner = before ++ x.notices ++ after
      ∧ ∀ notice ∈ before ++ after, notice.site ∉ x.ids := by
  have hinner := hd.find?_of_branchAt? hb hv
  obtain ⟨x, hx, hfind⟩ := hd.exists_find?_branch hinner h
  have hle : ∀ e ∈ x.ids, e ∈ inner.ids := fun e he =>
    Multiset.mem_of_le (Branch.ids_le_of_find? hx) he
  obtain ⟨before, after, heq, hout⟩ := Branch.notices_split (hd.nodup_branch hinner) hx
  refine ⟨x, before, after ++ (t.groups p v (b.travelling v)).flatMap Notice.ofEdges, hfind, hle, ?_, ?_⟩
  · rw [notices, heq, List.append_assoc]
  · intro notice hn hsite
    rw [← List.append_assoc, List.mem_append] at hn
    rcases hn with hn | hn
    · exact hout notice hn hsite
    · have hgroup := Notice.site_mem_of_mem_groups hn
      rw [sites_groups] at hgroup
      exact hd.notMem_inner hb hv hgroup (hle _ hsite)

/-- Of a cluster inside, its content is reported, and then the cluster. -/
theorem Distinct.about_inside (hd : t.Distinct) (hb : t.find? p = some b)
    (hv : b.inside.branchAt? v = some inner) (h : d ∈ inner.ids) :
    Notice.about d (t.notices p v b inner) = t.content d ++ [.cluster d] := by
  obtain ⟨x, before, after, hx, -, heq, hout⟩ := hd.exists_piece hb hv h
  obtain rfl := id_of_find? hx
  have hself : ∀ log : List Notice, (∀ notice ∈ log, notice.site ∉ x.ids) →
      Notice.about x.cluster.id log = [] := fun log hlog =>
    Notice.about_eq_nil (fun notice hn hid => hlog notice hn (hid ▸ x.mem_ids_self))
  -- Of its own piece, what is nested in the cluster has other sites.
  have hnested : Notice.about x.cluster.id x.inside.notices = [] :=
    Notice.about_eq_nil (fun notice hn hid =>
      (hd.nodup_inside hx).1 (hid ▸ Forest.site_mem_ids hn))
  rw [heq, Notice.about_append, Notice.about_append,
    hself before (fun notice hn => hout notice (List.mem_append_left _ hn)),
    hself after (fun notice hn => hout notice (List.mem_append_right _ hn)), Branch.notices,
    Notice.about_append, hnested, Cluster.notices, Notice.about_map_mk, ← removals_of_find? hx]
  simp

/-- Of a cluster around, the edges that go from there are reported. -/
theorem Distinct.about_around (hd : t.Distinct) (hb : t.find? p = some b)
    (hv : b.inside.branchAt? v = some inner) {group : ClusterId × List GlobalEdge}
    (h : group ∈ t.groups p v (b.travelling v)) :
    Notice.about group.1 (t.notices p v b inner) = group.2.map .edge := by
  have haround : group.1 ∈ p :: (t.path p).map Prod.fst :=
    sites_groups .. ▸ List.mem_map_of_mem h
  rw [notices, Notice.about_append, Notice.about_groups (hd.nodup_groups ..) h, Notice.about_eq_nil]
  · rfl
  · exact fun notice hn heq => hd.notMem_inner hb hv haround (heq ▸ Branch.site_mem_ids hn)

/-- What is nested in a cluster is reported before what is in the cluster
    itself. -/
theorem Sound.precede_nested (hs : t.Sound) (hb : t.find? p = some b)
    (hv : b.inside.branchAt? v = some inner) (h : d ∈ inner.ids) :
    Notice.Precede (fun e => t.isAncestor d e = true ∧ e ≠ d) (· = d) (t.notices p v b inner) := by
  have hd := hs.distinct
  obtain ⟨x, before, after, hx, -, heq, hout⟩ := hd.exists_piece hb hv h
  obtain rfl := id_of_find? hx
  have hpiece : Notice.Precede (fun e => t.isAncestor x.cluster.id e = true ∧ e ≠ x.cluster.id)
      (· = x.cluster.id) x.notices :=
    Notice.precede_append
      (fun notice hn hid => (hd.nodup_inside hx).1 (hid ▸ Forest.site_mem_ids hn))
      (fun notice hn hin => hin.2 (Cluster.site_of_mem_notices hn))
  rw [heq]
  refine hpiece.inset before after (fun notice hn => ⟨fun hin => ?_, fun hid => ?_⟩)
  · exact hout notice hn ((hs.isAncestor_iff_mem_ids hx).mp hin.1)
  · exact hout notice hn (hid ▸ x.mem_ids_self)

/-- The children of a cluster are reported one after the other, each with all
    that is nested in it. -/
theorem Sound.precede_children (hs : t.Sound) (hb : t.find? p = some b)
    (hv : b.inside.branchAt? v = some inner) (h : d ∈ inner.ids) :
    (t.children d).Pairwise (fun entry next => Notice.Precede
      (fun e => t.isAncestor entry.2 e = true) (fun e => t.isAncestor next.2 e = true)
      (t.notices p v b inner)) := by
  have hd := hs.distinct
  obtain ⟨x, before, after, hx, -, heq, hout⟩ := hd.exists_piece hb hv h
  obtain rfl := id_of_find? hx
  have hin : ∀ entry ∈ x.inside.branches, ∀ e,
      t.isAncestor entry.2.cluster.id e = true → e ∈ entry.2.ids := fun entry he e =>
    (hs.isAncestor_iff_mem_ids (hs.find?_of_mem_inside hx entry he)).mp
  -- The children stand side by side in the piece of the cluster, before its own notices.
  have hsplit : t.notices p v b inner
      = before ++ x.inside.notices ++ (x.cluster.notices x.inside ++ after) := by
    rw [heq, Branch.notices]
    simp
  have hother : ∀ entry ∈ x.inside.branches,
      ∀ notice ∈ before ++ (x.cluster.notices x.inside ++ after), notice.site ∉ entry.2.ids := by
    intro entry he notice hn hsite
    have hmem := Multiset.mem_of_le (Forest.ids_le_of_mem_branches he) hsite
    have hmem' : notice.site ∈ x.ids := by
      rw [Branch.ids_eq]
      exact Multiset.mem_cons_of_mem hmem
    simp only [List.mem_append] at hn
    rcases hn with hn | hn | hn
    · exact hout notice (List.mem_append_left _ hn) hmem'
    · exact (hd.nodup_inside hx).1 (Cluster.site_of_mem_notices hn ▸ hmem)
    · exact hout notice (List.mem_append_right _ hn) hmem'
  rw [children_of_find? hx, hsplit]
  refine List.pairwise_map.mpr
    ((Forest.precede_branches (hd.nodup_inside hx).2).imp_of_mem (fun {entry next} he hn h => ?_))
  exact (h.inset before _ (fun notice hnotice =>
    ⟨hother entry he notice hnotice, hother next hn notice hnotice⟩)).imp (hin entry he) (hin next hn)

/-- The clusters around are reported one after the other, nearest first. -/
theorem Distinct.precede_around (hd : t.Distinct) (hb : t.find? p = some b)
    (hv : b.inside.branchAt? v = some inner) :
    (p :: (t.path p).map Prod.fst).Pairwise (fun near far =>
      Notice.Precede (· = near) (· = far) (t.notices p v b inner)) := by
  rw [← sites_groups t p v (b.travelling v)]
  refine (Notice.precede_groups (hd.nodup_groups ..)).imp_of_mem (fun {near far} hnear hfar h => ?_)
  rw [sites_groups] at hnear hfar
  have hinset := h.inset inner.notices [] (fun notice hn => ?_)
  · rwa [List.append_nil] at hinset
  · rw [List.append_nil] at hn
    have hsite := Branch.site_mem_ids hn
    exact ⟨fun hid => hd.notMem_inner hb hv hnear (hid ▸ hsite),
      fun hid => hd.notMem_inner hb hv hfar (hid ▸ hsite)⟩

theorem Sound.narrates (hs : t.Sound) (hb : t.find? p = some b)
    (hv : b.inside.branchAt? v = some inner) :
    t.Narrates p v inner.cluster.id (t.notices p v b inner) := by
  have hd := hs.distinct
  have hinside : ∀ d, t.isAncestor inner.cluster.id d = true ↔ d ∈ inner.ids := fun d =>
    hs.isAncestor_iff_mem_ids (hd.find?_of_branchAt? hb hv)
  have haround : ∀ q, t.isAncestor q p = true ↔ q ∈ p :: (t.path p).map Prod.fst := fun q =>
    decide_eq_true_iff
  have hapart : ∀ q, t.isAncestor q p = true → q ∉ inner.ids := fun q hq =>
    hd.notMem_inner hb hv ((haround q).mp hq)
  have hgroups : ∀ notice ∈ (t.groups p v (b.travelling v)).flatMap Notice.ofEdges,
      t.isAncestor notice.site p = true := fun notice hn =>
    (haround _).mpr (sites_groups .. ▸ Notice.site_mem_of_mem_groups hn)
  constructor
  case sites =>
    intro notice hn
    rcases List.mem_append.mp hn with hn | hn
    · exact Or.inl ((hinside _).mpr (Branch.site_mem_ids hn))
    · exact Or.inr (hgroups notice hn)
  case inside => exact fun d hin => hd.about_inside hb hv ((hinside d).mp hin)
  case beside => exact hd.about_around hb hv (List.mem_cons_self ..)
  case above =>
    exact ⟨b.travelling v, fun g => hs.mem_travelling_iff hb hv, fun step hstep =>
      hd.about_around hb hv (List.mem_cons_of_mem _ (List.mem_map_of_mem hstep))⟩
  case nested => exact fun d hin => hs.precede_nested hb hv ((hinside d).mp hin)
  case siblings => exact fun d hin => hs.precede_children hb hv ((hinside d).mp hin)
  case outward =>
    exact Notice.precede_append (fun notice hn hq => hapart _ hq (Branch.site_mem_ids hn))
      (fun notice hn hin => hapart _ (hgroups notice hn) ((hinside _).mp hin))
  case nearest => exact hd.precede_around hb hv

end Report

/-! ## Commands -/

/-- The command removes a child of a cluster: by its name, or by the vertex that
    stands for it. -/
def Detaches (t : Tree) (p child : ClusterId) : Command → Prop
  | .removeCluster parent c => parent = p ∧ c = child
  | .removeClusterOn parent v => parent = p ∧ (v, child) ∈ t.children p
  | .removeVertex c v => c = p ∧ (v, child) ∈ t.children p
  | .removeGlobalVertex c global => ∃ v, t.vertexOwner? c global = some (p, v)
      ∧ (v, child) ∈ t.children p
  | _ => False

end Tree

namespace Graph

variable {g h : Graph} {command : Command} {reply : Reply} {p child : ClusterId}

/-- Whatever the command, it takes the child's vertex out. -/
theorem exists_discard_of_detaches (hs : g.tree.Sound) (hc : g.tree.Detaches p child command)
    (hp : g.perform command = .ok (h, reply)) :
    ∃ v, (v, child) ∈ g.tree.children p ∧ reply = .removed (g.tree.discard p v).2 := by
  cases command with
  | removeCluster parent c =>
      obtain ⟨rfl, rfl⟩ := hc
      obtain ⟨r, hr, rfl, rfl⟩ := of_reporting hp
      obtain ⟨v, rfl, hv⟩ := hs.of_removeCluster hr
      exact ⟨v, hv, rfl⟩
  | removeClusterOn parent v =>
      obtain ⟨rfl, hv⟩ := hc
      obtain ⟨r, hr, rfl, rfl⟩ := of_reporting hp
      obtain ⟨rfl, -⟩ := hs.of_removeClusterOn hr
      exact ⟨v, hv, rfl⟩
  | removeVertex c v =>
      obtain ⟨rfl, hv⟩ := hc
      obtain ⟨r, hr, rfl, rfl⟩ := of_reporting hp
      obtain ⟨-, -, hr⟩ := of_bind_eq_ok hr
      obtain rfl := Except.ok.inj hr
      exact ⟨v, hv, rfl⟩
  | removeGlobalVertex c global =>
      obtain ⟨v, howner, hv⟩ := hc
      obtain ⟨r, hr, rfl, rfl⟩ := of_reporting hp
      rw [Tree.removeGlobalVertex, howner] at hr
      obtain rfl := Except.ok.inj hr
      exact ⟨v, hv, rfl⟩
  | _ => exact hc.elim

/-- The removal of a child is reported in order. -/
theorem narrates_perform (hs : g.tree.Sound) (hc : g.tree.Detaches p child command)
    (hp : g.perform command = .ok (h, reply)) :
    ∃ v log, (v, child) ∈ g.tree.children p ∧ reply = .removed (log.map Notice.removal)
      ∧ g.tree.Narrates p v child log := by
  obtain ⟨v, hv, rfl⟩ := exists_discard_of_detaches hs hc hp
  obtain ⟨n, hn, rfl, he⟩ := Tree.exists_node_of_children hv
  obtain ⟨b, hb, rfl⟩ := hs.distinct.find?_of_mem hn
  obtain ⟨inner, hinner, rfl⟩ := Forest.branchAt?_of_mem_entries (hs.nodes _ hn).keys he
  exact ⟨v, _, hv, by rw [Tree.removal_notices hb hinner], hs.narrates hb hinner⟩

end Graph

/-! ## Runs -/

namespace Workspace

/-- **REMOVALS GO INSIDE OUT**: whatever callers did, the removal of a child is
    reported in this order.  Of each cluster that goes, what was nested in it
    comes first, one child after the other, then its edges and its vertices,
    then the cluster.  The edges that connected the child to the rest of the
    tree come after all of that: those stored beside it, and then those stored
    further up, nearest first. -/
theorem narrates_run (operations : List Operation) {number : Nat} {command : Command} {reply : Reply}
    {w' : Workspace} {m : Member} (hm : (empty.run operations).members[number]? = some m)
    {p child : ClusterId} (hc : m.tree.Detaches p child command)
    (hstep : (empty.run operations).step (.change number command) = (w', .ok reply)) :
    ∃ v log, (v, child) ∈ m.tree.children p ∧ reply = .removed (log.map Notice.removal)
      ∧ m.tree.Narrates p v child log := by
  have hw := sound_run operations
  obtain ⟨ids, g', hg, hp⟩ := exists_perform_of_member hw hm hstep
  exact Graph.narrates_perform (hw.tree hg) hc hp

/-- A cluster with two others in it goes from one inside the root.  An edge
    runs between the two, one goes to a vertex beside the cluster, and one to a
    vertex of the root. -/
theorem narrates_removeCluster :
    let operations := [Operation.newGraph (.declared []) .fresh,
      .change 0 (.addCluster Tree.rootId), .change 0 (.addCluster ⟨1⟩), .change 0 (.addCluster ⟨2⟩),
      .change 0 (.addCluster ⟨2⟩), .change 0 (.addVertex ⟨3⟩), .change 0 (.addVertex ⟨4⟩),
      .change 0 (.addVertex ⟨2⟩), .change 0 (.addVertex ⟨1⟩), .change 0 (.addVertex Tree.rootId),
      .change 0 (.connect ⟨2⟩ ⟨15⟩ ⟨16⟩), .change 0 (.connect Tree.rootId ⟨19⟩ ⟨17⟩),
      .change 0 (.connect ⟨1⟩ ⟨15⟩ ⟨18⟩), .change 0 (.connect Tree.rootId ⟨19⟩ ⟨18⟩)]
    ∃ m v log, (empty.run operations).members[0]? = some m ∧ (v, ⟨2⟩) ∈ m.tree.children ⟨1⟩
      ∧ log.map Notice.removal = [.vertex ⟨15⟩, .cluster ⟨3⟩, .vertex ⟨16⟩, .cluster ⟨4⟩,
        .edge ⟨⟨15⟩, ⟨16⟩, 20⟩, .vertex ⟨17⟩, .cluster ⟨2⟩, .edge ⟨⟨15⟩, ⟨18⟩, 22⟩,
        .edge ⟨⟨19⟩, ⟨17⟩, 21⟩]
      ∧ m.tree.Narrates ⟨1⟩ v ⟨2⟩ log := by
  intro operations
  let operation := Operation.change 0 (.removeCluster ⟨1⟩ ⟨2⟩)
  let reported : List Removal := [.vertex ⟨15⟩, .cluster ⟨3⟩, .vertex ⟨16⟩, .cluster ⟨4⟩,
    .edge ⟨⟨15⟩, ⟨16⟩, 20⟩, .vertex ⟨17⟩, .cluster ⟨2⟩, .edge ⟨⟨15⟩, ⟨18⟩, 22⟩,
    .edge ⟨⟨19⟩, ⟨17⟩, 21⟩]
  have hreply : ((empty.run operations).step operation).2 = .ok (.removed reported) := by decide +kernel
  have hstep : (empty.run operations).step operation
      = (((empty.run operations).step operation).1, .ok (.removed reported)) := by
    rw [← hreply]
  obtain ⟨m, hm⟩ : ∃ m, (empty.run operations).members[0]? = some m :=
    Option.isSome_iff_exists.mp (by decide +kernel)
  have hc : m.tree.Detaches ⟨1⟩ ⟨2⟩ (.removeCluster ⟨1⟩ ⟨2⟩) := ⟨rfl, rfl⟩
  obtain ⟨v, log, hv, heq, hnarrates⟩ := narrates_run operations hm hc hstep
  exact ⟨m, v, log, hm, hv, (Reply.removed.inj heq).symm, hnarrates⟩

end Workspace

end NestedGraph
