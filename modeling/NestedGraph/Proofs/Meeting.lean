import NestedGraph.Proofs.Departures
import NestedGraph.Proofs.Slots

/-! # Meeting — where the ways to two vertices part

    Two vertices MEET in the lowest cluster that both of them are in.  Seen
    from there they are, or are represented by, different vertices; from
    any cluster further up one vertex leads to both.  An edge between two
    vertices that a caller names from a cluster has a place exactly when
    they meet there or in one of its children; otherwise the answer is the
    first of the causes against it. -/

namespace NestedGraph

/-! ## Checks in a row -/

/-- The first cause of a list that applies. -/
def FirstApplicable (applies : Error → Prop) : List Error → Error → Prop
  | [], _ => False
  | cause :: rest, e => applies cause ∧ e = cause ∨ ¬ applies cause ∧ FirstApplicable applies rest e

/-- What comes of checks for some causes: an error is the first that applies, and
    a result is as `P` says. -/
def Screened {α : Type} (applies : Error → Prop) (causes : List Error) (P : α → Prop) :
    Except Error α → Prop
  | .ok a => P a
  | .error e => FirstApplicable applies causes e

section Checks

variable {α β : Type} {A : Error → Prop} {cause e e' : Error} {causes : List Error} {P : α → Prop}

theorem FirstApplicable.applies (h : FirstApplicable A causes e) : A e := by
  induction causes with
  | nil => exact h.elim
  | cons cause rest ih =>
      rcases h with ⟨hcause, rfl⟩ | ⟨-, hrest⟩
      · exact hcause
      · exact ih hrest

theorem FirstApplicable.unique (h : FirstApplicable A causes e)
    (h' : FirstApplicable A causes e') : e = e' := by
  induction causes with
  | nil => exact h.elim
  | cons cause rest ih =>
      rcases h with ⟨hcause, rfl⟩ | ⟨hnot, hrest⟩
      · rcases h' with ⟨-, rfl⟩ | ⟨hnot', -⟩
        · rfl
        · exact absurd hcause hnot'
      · rcases h' with ⟨hcause', -⟩ | ⟨-, hrest'⟩
        · exact absurd hcause' hnot
        · exact ih hrest hrest'

/-- A check for the first cause, and what follows it. -/
theorem screened_check {x : Except Error β} {f : β → Except Error α}
    (hfails : A cause → x = .error cause)
    (hpasses : ¬ A cause → ∃ b, x = .ok b ∧ Screened A causes P (f b)) :
    Screened A (cause :: causes) P (x >>= f) := by
  by_cases hcause : A cause
  · rw [hfails hcause]
    exact Or.inl ⟨hcause, rfl⟩
  · obtain ⟨b, rfl, hrest⟩ := hpasses hcause
    show Screened A (cause :: causes) P (f b)
    cases hf : f b with
    | ok a =>
        rw [hf] at hrest
        exact hrest
    | error e =>
        rw [hf] at hrest
        exact Or.inr ⟨hcause, hrest⟩

end Checks

namespace Tree

variable {t : Tree} {count : UInt64} {c d l o o' : ClusterId} {a b v : LocalVertex}
  {x y z : GlobalVertex} {branch : Branch}

/-! ## Where two vertices meet -/

/-- The lowest of the clusters that are around two clusters. -/
structure Lowest (t : Tree) (o o' l : ClusterId) : Prop where
  left : t.isAncestor l o = true
  right : t.isAncestor l o' = true
  least : ∀ d, t.isAncestor d o = true → t.isAncestor d o' = true → t.isAncestor d l = true

/-- Two vertices meet in the lowest cluster around those that store them. -/
def MeetIn (t : Tree) (x y : GlobalVertex) (l : ClusterId) : Prop :=
  ∃ o u o' u', t.global? o u = some x ∧ t.global? o' u' = some y ∧ t.Lowest o o' l

/-- Two vertices meet in the cluster, or in one of its children. -/
def MeetWithin (t : Tree) (c : ClusterId) (x y : GlobalVertex) (l : ClusterId) : Prop :=
  t.MeetIn x y l ∧ (l = c ∨ t.parent? l = some c)

/-- The name is that of a vertex that stands for a cluster. -/
def NamesCluster (t : Tree) (c : ClusterId) (x : GlobalVertex) : Prop :=
  ∃ o u, t.isAncestor c o = true ∧ t.global? o u = some x ∧ t.isClusterVertex o u = true

/-- An ordinary vertex is the one that represents it, or it lies inside the
    child that hangs there. -/
theorem Stands.here_or_inside (hd : t.Distinct) (h : t.Stands c v x) :
    (t.global? c v = some x ∧ t.isClusterVertex c v = false)
      ∨ ∃ d w, (v, d) ∈ t.children c ∧ t.Stands d w x := by
  obtain ⟨n, hn, u, hlead, hord⟩ := h
  generalize ho : n.id = o at hlead
  cases hlead with
  | here => exact Or.inl (ho ▸ (hd.ordinary_iff hn).mp hord)
  | @inside m v w u d o hm he hlead =>
      refine Or.inr ⟨d, w, ?_, n, hn, u, ho ▸ hlead, hord⟩
      rw [hd.children_of_mem hm]
      exact he

theorem Stands.owner (hd : t.Distinct) (h : t.Stands c v x) :
    ∃ o u, t.Leads c v o u ∧ t.global? o u = some x := by
  obtain ⟨n, hn, u, hlead, hord⟩ := h
  exact ⟨n.id, u, hlead, (hd.global?_of_mem hn u).trans hord.1⟩

/-- No cluster is around the one that it is a child of. -/
theorem Distinct.not_isAncestor_of_child (hd : t.Distinct) (hchild : (v, d) ∈ t.children c) :
    t.isAncestor d c = false := by
  obtain ⟨n, hn, rfl, he⟩ := exists_node_of_children hchild
  refine Bool.eq_false_iff.mpr (fun h => ?_)
  obtain ⟨w, hlead⟩ := hd.exists_leads h ⟨0, 0⟩
  exact hd.not_leads_back hn he w ⟨0, 0⟩ hlead

/-- A vertex that a cluster lies on stands for that cluster alone. -/
theorem Sound.child_unique (hs : t.Sound) {d' : ClusterId} (h : (v, d) ∈ t.children c)
    (h' : (v, d') ∈ t.children c) : d = d' := by
  obtain ⟨n, hn, rfl, he⟩ := exists_node_of_children h
  rw [hs.distinct.children_of_mem hn] at h'
  exact congrArg Prod.snd (List.inj_on_of_nodup_map (hs.nodes n hn).keys he h' rfl)

/-- What a child's vertex represents is inside the child. -/
theorem Sound.stands_in_child (hs : t.Sound) (hchild : (a, d) ∈ t.children c)
    (hx : t.Stands c a x) : ∃ w, t.Stands d w x := by
  rcases hx.here_or_inside hs.distinct with ⟨-, hord⟩ | ⟨d', w, hchild', hin⟩
  · have hcluster := hs.isClusterVertex_of_child hchild
    exact absurd (hord.symm.trans hcluster) Bool.false_ne_true
  · obtain rfl := hs.child_unique hchild hchild'
    exact ⟨w, hin⟩

/-- Two ordinary vertices that one vertex represents are the same, or inside the
    child that hangs on it. -/
theorem Sound.eq_or_inside (hs : t.Sound) (hx : t.Stands c a x) (hy : t.Stands c a y) :
    x = y ∨ ∃ d, (a, d) ∈ t.children c := by
  rcases hx.here_or_inside hs.distinct with ⟨hname, -⟩ | ⟨d, -, hchild, -⟩
  · rcases hy.here_or_inside hs.distinct with ⟨hname', -⟩ | ⟨d, -, hchild, -⟩
    · exact Or.inl (Option.some.inj (hname.symm.trans hname'))
    · exact Or.inr ⟨d, hchild⟩
  · exact Or.inr ⟨d, hchild⟩

/-- Two ordinary vertices are represented by different vertices exactly in the
    cluster where they meet. -/
theorem Orderly.ne_iff_meetIn (h : t.Orderly count) (hx : t.Stands c a x) (hy : t.Stands c b y) :
    a ≠ b ↔ x ≠ y ∧ t.MeetIn x y c := by
  have hd := h.sound.distinct
  constructor
  · intro hne
    refine ⟨fun heq => hne (h.stands_unique hx (heq ▸ hy)), ?_⟩
    obtain ⟨o, u, hlead, hu⟩ := hx.owner hd
    obtain ⟨o', u', hlead', hu'⟩ := hy.owner hd
    exact ⟨o, u, o', u', hu, hu', hlead.isAncestor hd, hlead'.isAncestor hd,
      fun d => hlead.isAncestor_of_ne hd hlead' hne⟩
  · rintro ⟨hne, o, u, o', u', hu, hu', hlow⟩ rfl
    rcases h.sound.eq_or_inside hx hy with heq | ⟨d, hchild⟩
    · exact hne heq
    · -- The child is around both, so it would have to be around the cluster.
      obtain ⟨w, hin⟩ := h.sound.stands_in_child hchild hx
      obtain ⟨w', hin'⟩ := h.sound.stands_in_child hchild hy
      obtain ⟨p, s, hlead, hs⟩ := hin.owner hd
      obtain ⟨p', s', hlead', hs'⟩ := hin'.owner hd
      obtain ⟨rfl, -⟩ := h.eq_of_vertices hu hs
      obtain ⟨rfl, -⟩ := h.eq_of_vertices hu' hs'
      have hback := hlow.least d (hlead.isAncestor hd) (hlead'.isAncestor hd)
      exact Bool.false_ne_true ((hd.not_isAncestor_of_child hchild).symm.trans hback)

/-- Two vertices that one child is the way to can only meet in that child. -/
theorem Orderly.meetIn_child (h : t.Orderly count) (hne : x ≠ y) (hx : t.Stands c a x)
    (hy : t.Stands c a y) (hchild : (a, d) ∈ t.children c) (hmeet : t.MeetWithin c x y l) :
    l = d := by
  have hd := h.sound.distinct
  obtain ⟨hmeet, rfl | hparent⟩ := hmeet
  · exact absurd rfl ((h.ne_iff_meetIn hx hy).mpr ⟨hne, hmeet⟩)
  · obtain ⟨⟨p, v⟩, hplace, rfl⟩ := Option.map_eq_some_iff.mp hparent
    have hl := hd.place?_eq_some_iff.mp hplace
    obtain ⟨o, u, o', u', hu, hu', hlow⟩ := hmeet
    obtain ⟨p', s, hlead, hs⟩ := hx.owner hd
    obtain ⟨rfl, rfl⟩ := h.eq_of_vertices hu hs
    -- Both children are on the way to the first vertex.
    obtain ⟨w, hw⟩ := hd.exists_leads hlow.left s
    obtain ⟨n, hn, rfl, he⟩ := exists_node_of_children hl
    obtain rfl := hlead.unique hd (.inside hn he hw)
    exact h.sound.child_unique hl hchild

/-! ## What stands against an edge -/

/-- The causes against an edge between two vertices, in the order in which they
    are looked for. -/
def causes (c : ClusterId) (x y : GlobalVertex) : List Error :=
  [.clusterNotFound c, .vertexNotFound x, .vertexNotFound y, .clusterEndpoint x,
    .clusterEndpoint y, .selfLoop]

/-- What each of these causes means. -/
inductive Bars (t : Tree) (c : ClusterId) (x y : GlobalVertex) : Error → Prop
  | dead (h : t.isLive c = false) : Bars t c x y (.clusterNotFound c)
  | absent {z : GlobalVertex} (hz : z = x ∨ z = y) (h : ¬ t.Names c (.globalVertex z)) :
      Bars t c x y (.vertexNotFound z)
  | standing {z : GlobalVertex} (hz : z = x ∨ z = y) (h : t.NamesCluster c z) :
      Bars t c x y (.clusterEndpoint z)
  | together (h : x ≠ y → ∀ l, ¬ t.MeetWithin c x y l) : Bars t c x y .selfLoop

/-- There may be an edge between the two vertices in `l`. -/
structure MayConnect (t : Tree) (c : ClusterId) (x y : GlobalVertex) (l : ClusterId) : Prop where
  live : t.isLive c = true
  source : t.Stores c x
  target : t.Stores c y
  ne : x ≠ y
  meet : t.MeetWithin c x y l

theorem Orderly.not_namesCluster (h : t.Orderly count) (hx : t.Stores c x) :
    ¬ t.NamesCluster c x := by
  rintro ⟨o, u, -, hu, hcluster⟩
  obtain ⟨o', u', -, hu', hord⟩ := hx
  obtain ⟨rfl, rfl⟩ := h.eq_of_vertices hu hu'
  exact Bool.false_ne_true (hord.symm.trans hcluster)

theorem MayConnect.not_bars (h : t.MayConnect c x y l) (ho : t.Orderly count) (e : Error) :
    ¬ t.Bars c x y e := by
  have hstores : ∀ {z}, z = x ∨ z = y → t.Stores c z := by
    rintro z (rfl | rfl)
    · exact h.source
    · exact h.target
  intro hbars
  cases hbars with
  | dead hdead => exact Bool.false_ne_true (hdead.symm.trans h.live)
  | absent hz habsent =>
      obtain ⟨o, u, hin, hu, -⟩ := hstores hz
      exact habsent ⟨o, u, hin, hu⟩
  | standing hz hstanding => exact ho.not_namesCluster (hstores hz) hstanding
  | together hnot => exact hnot h.ne l h.meet

/-- A name that is there is represented. -/
theorem Orderly.names_iff (h : t.Orderly count) (hb : t.find? c = some branch) :
    t.Names c (.globalVertex x) ↔ ∃ v, branch.representative? x = some v := by
  have hc : c ∈ t.ids := mem_ids_iff.mpr ⟨branch, hb⟩
  have hlook : t.localVertex? c x true = branch.representative? x := by
    rw [localVertex?, hb]
    rfl
  constructor
  · rintro ⟨o, u, hin, hu⟩
    obtain ⟨v, hlead⟩ := h.sound.distinct.exists_leads hin u
    exact ⟨v, hlook ▸ h.localVertex?_recursive.mpr ⟨hc, o, u, hlead, hu⟩⟩
  · rintro ⟨v, hv⟩
    obtain ⟨-, o, u, hlead, hu⟩ := h.localVertex?_recursive.mp (hlook.trans hv)
    exact ⟨o, u, hlead.isAncestor h.sound.distinct, hu⟩

end Tree

namespace Graph

variable {g : Graph} {c : ClusterId} {a b v : LocalVertex} {x y z : GlobalVertex}
  {branch holder : Branch}

theorem requireRepresentative_of_none (hv : branch.representative? z = none) :
    requireRepresentative branch z = .error (.vertexNotFound z) := by
  rw [requireRepresentative, hv]

theorem requireRepresentative_of_some (hv : branch.representative? z = some v) :
    requireRepresentative branch z = .ok v := by
  rw [requireRepresentative, hv]

/-- An edge is placed in `holder` between `a` and `b`, where its endpoints meet. -/
structure Places (g : Graph) (c : ClusterId) (x y : GlobalVertex)
    (place : Branch × LocalVertex × LocalVertex) : Prop where
  may : g.tree.MayConnect c x y place.1.cluster.id
  source : g.tree.Stands place.1.cluster.id place.2.1 x
  target : g.tree.Stands place.1.cluster.id place.2.2 y

/-- What is left when all names are in order: the vertices must be apart in the
    cluster, or in the child that both of them are in. -/
theorem screened_level (ho : g.tree.Orderly g.ids.count) (hb : g.tree.find? c = some branch)
    (hx : g.tree.Stands c a x) (hy : g.tree.Stands c b y) :
    Screened (g.tree.Bars c x y) [.selfLoop] (g.Places c x y)
      (if a ≠ b then .ok (branch, a, b)
       else match branch.inside.branchAt? a with
        | none => .error .selfLoop
        | some child => do
            let a ← requireRepresentative child x
            let b ← requireRepresentative child y
            if a = b then .error .selfLoop else return (child, a, b)) := by
  have hd := ho.sound.distinct
  have hlive := Tree.isLive_iff.mpr (Tree.mem_ids_iff.mpr ⟨branch, hb⟩)
  obtain rfl := Tree.id_of_find? hb
  have hmay : ∀ {l}, x ≠ y → g.tree.MeetWithin branch.cluster.id x y l →
      g.tree.MayConnect branch.cluster.id x y l :=
    fun hne hmeet => ⟨hlive, hx.stored hd, hy.stored hd, hne, hmeet⟩
  -- Two names that one vertex represents are of the same vertex, or are both in
  -- the child on it; there is no third level to ask.
  by_cases hab : a = b
  · subst hab
    rw [if_neg (not_not.mpr rfl)]
    cases hchild : branch.inside.branchAt? a with
    | none =>
        refine Or.inl ⟨.together (fun hne => ?_), rfl⟩
        rcases ho.sound.eq_or_inside hx hy with heq | ⟨d, hentry⟩
        · exact absurd heq hne
        · rw [Tree.children_of_find? hb] at hentry
          exact absurd (List.mem_map.mpr ⟨_, hentry, rfl⟩) (Forest.branchAt?_eq_none_iff.mp hchild)
    | some child =>
        have hfind := hd.find?_of_branchAt? hb hchild
        have hentry : (a, child.cluster.id) ∈ g.tree.children branch.cluster.id := by
          rw [Tree.children_of_find? hb]
          exact Forest.mem_entries_of_branchAt? hchild
        obtain ⟨p, hxp⟩ := ho.sound.stands_in_child hentry hx
        obtain ⟨q, hyq⟩ := ho.sound.stands_in_child hentry hy
        have hp := requireRepresentative_of_some (ho.representative?_eq hfind hxp)
        have hq := requireRepresentative_of_some (ho.representative?_eq hfind hyq)
        show Screened _ _ _ (requireRepresentative child x >>= _)
        rw [hp, ok_bind, hq, ok_bind]
        by_cases hpq : p = q
        · rw [if_pos hpq]
          refine Or.inl ⟨.together (fun hne l hmeet => ?_), rfl⟩
          obtain rfl := ho.meetIn_child hne hx hy hentry hmeet
          exact (ho.ne_iff_meetIn hxp hyq).mpr ⟨hne, hmeet.1⟩ hpq
        · rw [if_neg hpq]
          obtain ⟨hne, hmeet⟩ := (ho.ne_iff_meetIn hxp hyq).mp hpq
          have hparent : g.tree.parent? child.cluster.id = some branch.cluster.id :=
            congrArg (Option.map Prod.fst) (hd.place?_eq_some_iff.mpr hentry)
          exact ⟨hmay hne ⟨hmeet, Or.inr hparent⟩, hxp, hyq⟩
  · rw [if_pos hab]
    obtain ⟨hne, hmeet⟩ := (ho.ne_iff_meetIn hx hy).mp hab
    exact ⟨hmay hne ⟨hmeet, Or.inl rfl⟩, hx, hy⟩

/-- A name that a cluster must have, as the cause against it tells. -/
theorem requireRepresentative_absent (ho : g.tree.Orderly g.ids.count)
    (hb : g.tree.find? c = some branch) (h : g.tree.Bars c x y (.vertexNotFound z)) :
    requireRepresentative branch z = .error (.vertexNotFound z) := by
  cases h with
  | absent _ habsent =>
      cases hv : branch.representative? z with
      | none => exact requireRepresentative_of_none hv
      | some v => exact absurd ((ho.names_iff hb).mpr ⟨v, hv⟩) habsent

theorem exists_requireRepresentative (ho : g.tree.Orderly g.ids.count)
    (hb : g.tree.find? c = some branch) (hz : z = x ∨ z = y)
    (h : ¬ g.tree.Bars c x y (.vertexNotFound z)) :
    ∃ v, requireRepresentative branch z = .ok v ∧ branch.representative? z = some v := by
  have hnames : g.tree.Names c (.globalVertex z) := by
    by_contra habsent
    exact h (.absent hz habsent)
  obtain ⟨v, hv⟩ := (ho.names_iff hb).mp hnames
  exact ⟨v, requireRepresentative_of_some hv, hv⟩

theorem requireOrdinaryGlobal_standing (ho : g.tree.Orderly g.ids.count)
    (hc : c ∈ g.tree.ids) (h : g.tree.Bars c x y (.clusterEndpoint z)) :
    g.requireOrdinaryGlobal c z = .error (.clusterEndpoint z) := by
  cases h with
  | standing _ hz =>
      obtain ⟨o, u, hin, hu, hcluster⟩ := hz
      rw [requireOrdinaryGlobal, ho.vertexOwner?_eq_some.mpr ⟨hc, hin, hu⟩]
      exact if_pos hcluster

theorem requireOrdinaryGlobal_ordinary (ho : g.tree.Orderly g.ids.count) (hz : z = x ∨ z = y)
    (h : ¬ g.tree.Bars c x y (.clusterEndpoint z)) : g.requireOrdinaryGlobal c z = .ok () := by
  rw [requireOrdinaryGlobal]
  split
  · rename_i o u howner
    obtain ⟨-, hin, hu⟩ := ho.vertexOwner?_eq_some.mp howner
    exact if_neg (fun hcluster => h (.standing hz ⟨o, u, hin, hu, hcluster⟩))
  · rfl

/-- The first cause against an edge is the answer, and if there is none the place
    where its endpoints meet. -/
theorem screened_edgePlace (ho : g.tree.Orderly g.ids.count) (c : ClusterId) (x y : GlobalVertex) :
    Screened (g.tree.Bars c x y) (Tree.causes c x y) (g.Places c x y) (g.edgePlace c x y) := by
  unfold edgePlace
  refine screened_check (fun hdead => ?_) (fun hlive => ?_)
  · cases hdead with
    | dead hdead => exact Tree.require_of_dead hdead
  have hlive : g.tree.isLive c = true := by
    by_contra hdead
    exact hlive (.dead (Bool.not_eq_true _ ▸ hdead))
  obtain ⟨branch, hb⟩ := Tree.exists_find?_of_isLive hlive
  refine ⟨branch, Tree.require_of_find? hb, ?_⟩
  refine screened_check (requireRepresentative_absent ho hb) (fun hx => ?_)
  obtain ⟨a, hcheck, ha⟩ := exists_requireRepresentative ho hb (Or.inl rfl) hx
  refine ⟨a, hcheck, ?_⟩
  refine screened_check (requireRepresentative_absent ho hb) (fun hy => ?_)
  obtain ⟨b, hcheck', hb'⟩ := exists_requireRepresentative ho hb (Or.inr rfl) hy
  refine ⟨b, hcheck', ?_⟩
  have hc : c ∈ g.tree.ids := Tree.mem_ids_iff.mpr ⟨branch, hb⟩
  refine screened_check (requireOrdinaryGlobal_standing ho hc) (fun hx => ?_)
  have hordx := requireOrdinaryGlobal_ordinary ho (Or.inl rfl) hx
  refine ⟨(), hordx, ?_⟩
  refine screened_check (requireOrdinaryGlobal_standing ho hc) (fun hy => ?_)
  have hordy := requireOrdinaryGlobal_ordinary ho (Or.inr rfl) hy
  refine ⟨(), hordy, ?_⟩
  obtain rfl := Tree.id_of_find? hb
  exact screened_level ho hb (stands_of_representative? ho hb hb (le_refl _) ha hordx)
    (stands_of_representative? ho hb hb (le_refl _) hb' hordy)

end Graph

end NestedGraph
