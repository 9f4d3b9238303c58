import NestedGraph.Proofs.Replica

/-! # Transplants — content in place of other content

    A copy of a branch takes the place of what was in a cluster.  The
    cluster itself stays, everything inside it goes, and around it only
    the edges go that reached into it.  The copy corresponds to its source
    cluster by cluster, and its clusters have ids that were not given out
    before, so the tree stays sound. -/

namespace NestedGraph

/-! ## Compatible configurations -/

theorem Config.compatible_iff {a b : Config} : a.compatible b = true
    ↔ a.vertex.types = b.vertex.types ∧ a.edge.types = b.edge.types
      ∧ a.cluster.types = b.cluster.types ∧ a.objects.types = b.objects.types := by
  simp [compatible, and_assoc]

/-- What fits one of two compatible configurations fits the other. -/
theorem Node.Sound.of_compatible {a b : Config} (h : a.compatible b = true) {n : Node}
    (hn : n.Sound a) : n.Sound b := by
  obtain ⟨hv, he, hc, ho⟩ := Config.compatible_iff.mp h
  have hlayout : ∀ {l m : Layout}, l.types = m.types → ∀ slots, l.Fits slots → m.Fits slots := by
    intro l m hlm slots hfit
    rw [Layout.Fits, ← hlm]
    exact hfit
  refine ⟨hn.storage, ⟨fun v r hr => ?_, fun e l hl => ?_⟩, hlayout hc _ hn.properties, hn.keys,
    hn.held⟩
  · obtain ⟨h1, h2⟩ := hn.fits.vertex v r hr
    exact ⟨hlayout hv _ h1, ho ▸ h2⟩
  · obtain ⟨h1, h2⟩ := hn.fits.edge e l hl
    exact ⟨hlayout he _ h1, fun x hx => ho ▸ h2 x hx⟩

/-! ## Copies of forests -/

section Copying

variable {σ : Type} (cloner : Cloner σ)

/-- The second forest is a copy of the first, on the new handles of its
    vertices. -/
inductive Forest.Copies : Renaming → Forest → Forest → Prop where
  | nil (names : Renaming) : Copies names .nil .nil
  | cons {names inner : Renaming} {v w : LocalVertex} {k k' : Cluster}
      {inside inside' rest rest' : Forest} (hv : names.handle? v = some w)
      (hk : k.storage.Copies cloner inner k'.storage) (hp : k'.properties = k.properties)
      (hin : Copies inner inside inside') (hrest : Copies names rest rest') :
      Copies names (.cons v k inside rest) (.cons w k' inside' rest')

/-- The second branch is a copy of the first. -/
structure Branch.Copies (names : Renaming) (b b' : Branch) : Prop where
  storage : b.cluster.storage.Copies cloner names b'.cluster.storage
  properties : b'.cluster.properties = b.cluster.properties
  inside : b.inside.Copies cloner names b'.inside

variable {cloner}

/-- The entries of a copy are those of its source, on new handles. -/
theorem Forest.Copies.entries {names : Renaming} {f f' : Forest} (h : f.Copies cloner names f') :
    List.Forall₂ (fun e e' => names.handle? e.1 = some e'.1) f.entries f'.entries := by
  induction h with
  | nil => exact .nil
  | cons hv _ _ _ _ _ ih => exact .cons hv ih

/-- A cluster copied with what is inside it is sound if its source is. -/
theorem Branch.Copies.sound {names : Renaming} {b b' : Branch} (h : b.Copies cloner names b')
    {config : Config} (hb : b.node.Sound config) (hs : b'.cluster.storage.Sound) :
    b'.node.Sound config := by
  refine ⟨hs, h.storage.fits hb.fits, h.properties ▸ hb.properties, ?_, ?_⟩
  · have hmap : List.Forall₂ (fun v w => names.handle? v = some w)
        (b.inside.entries.map Prod.fst) (b'.inside.entries.map Prod.fst) :=
      List.forall₂_map_left_iff.mpr (List.forall₂_map_right_iff.mpr h.inside.entries)
    have hkeys : (b.inside.entries.map Prod.fst).Nodup := hb.keys
    have hnodup : ∀ {l l' : List LocalVertex},
        List.Forall₂ (fun v w => names.handle? v = some w) l l' → l.Nodup → l'.Nodup := by
      intro l l' hl
      induction hl with
      | nil => exact fun _ => List.nodup_nil
      | cons hv hrest ih =>
          intro hn
          rw [List.nodup_cons] at hn ⊢
          refine ⟨fun hmem => hn.1 ?_, ih hn.2⟩
          obtain ⟨u, hu, huw⟩ := exists_of_forall₂ hrest hmem
          exact h.storage.injective huw hv ▸ hu
    exact hnodup hmap hkeys
  · rintro ⟨w, d⟩ he
    obtain ⟨⟨v, _⟩, -, hv⟩ := exists_of_forall₂ h.inside.entries he
    obtain ⟨-, r, -, hr, -⟩ := h.storage.vertex hv
    exact Storage.hasVertex_iff.mpr ⟨r, hr⟩

variable (cloner)

theorem Forest.clone_cons {names inner : Renaming} {v w : LocalVertex} {k : Cluster}
    {inside rest inside' rest' : Forest} {storage : Storage} {next next' next'' : Nat}
    {state state1 state2 state3 : σ} (hw : names.handle? v = some w)
    (hstorage : cloneStorage cloner k.storage .empty state = ((storage, inner), state1))
    (hinside : inside.clone cloner inner (next + 1) state1 = ((inside', next'), state2))
    (hrest : rest.clone cloner names next' state2 = ((rest', next''), state3)) :
    (Forest.cons v k inside rest).clone cloner names next state
      = ((.cons w ⟨⟨next⟩, storage, k.properties, false⟩ inside' rest', next''), state3) := by
  rw [Forest.clone, hw]
  show (match cloneStorage cloner k.storage .empty state with
    | ((storage, inner), state1) =>
      match inside.clone cloner inner (next + 1) state1 with
      | ((inside', next'), state2) =>
        match rest.clone cloner names next' state2 with
        | ((rest', next''), state3) =>
          ((Forest.cons w ⟨⟨next⟩, storage, k.properties, false⟩ inside' rest', next''),
            state3)) = _
  rw [hstorage]
  dsimp only
  rw [hinside]
  dsimp only
  rw [hrest]

/-- What a copy of a forest comes to. -/
structure Forest.Grows (config : Config) (names : Renaming) (next : Nat) (f : Forest)
    (out : Forest × Nat) : Prop where
  copies : f.Copies cloner names out.1
  later : next ≤ out.2
  distinct : out.1.ids.Nodup
  bound : ∀ c ∈ out.1.ids, next ≤ c.id ∧ c.id < out.2
  nodes : ∀ n ∈ out.1.nodes, n.Sound config

/-- A cluster with the next id has it before those inside, and those have
    theirs before the rest. -/
theorem Forest.ids_cons_numbered {w : LocalVertex} {k : Cluster} {inside rest : Forest}
    {next next' next'' : Nat} (hk : k.id = ⟨next⟩) (hle : next + 1 ≤ next') (hle' : next' ≤ next'')
    (hin : inside.ids.Nodup) (hinside : ∀ c ∈ inside.ids, next + 1 ≤ c.id ∧ c.id < next')
    (hrest : rest.ids.Nodup) (hbeside : ∀ c ∈ rest.ids, next' ≤ c.id ∧ c.id < next'') :
    (Forest.cons w k inside rest).ids.Nodup
      ∧ ∀ c ∈ (Forest.cons w k inside rest).ids, next ≤ c.id ∧ c.id < next'' := by
  rw [Forest.ids_cons, hk]
  constructor
  · rw [Multiset.nodup_cons, Multiset.nodup_add]
    refine ⟨fun hmem => ?_, hin, hrest, Multiset.disjoint_left.mpr ?_⟩
    · rcases Multiset.mem_add.mp hmem with hmem | hmem
      · have h1 : next + 1 ≤ next := (hinside _ hmem).1
        omega
      · have h1 : next' ≤ next := (hbeside _ hmem).1
        omega
    · intro c hc hc'
      have h1 := (hinside c hc).2
      have h2 := (hbeside c hc').1
      omega
  · intro c hc
    rw [Multiset.mem_cons, Multiset.mem_add] at hc
    rcases hc with rfl | hc | hc
    · show next ≤ next ∧ next < next''
      omega
    · have h1 := hinside c hc
      omega
    · have h1 := hbeside c hc
      omega

/-- What holds of all clusters of a forest holds of the first, of those inside it,
    and of the rest. -/
theorem Forest.forall_nodes_cons {v : LocalVertex} {k : Cluster} {inside rest : Forest}
    {p : Node → Prop} : (∀ n ∈ (Forest.cons v k inside rest).nodes, p n)
      ↔ p (Branch.node ⟨k, inside⟩) ∧ (∀ n ∈ inside.nodes, p n) ∧ ∀ n ∈ rest.nodes, p n := by
  rw [Forest.nodes, Multiset.forall_mem_cons]
  refine and_congr_right (fun _ => ⟨fun h => ?_, fun h n hn => ?_⟩)
  · exact ⟨fun n hn => h n (Multiset.mem_add.mpr (Or.inl hn)),
      fun n hn => h n (Multiset.mem_add.mpr (Or.inr hn))⟩
  · exact (Multiset.mem_add.mp hn).elim (h.1 n) (h.2 n)

/-- A forest of sound clusters on vertices that have new handles is copied
    as a whole. -/
theorem Forest.clone_spec {config : Config} {f : Forest} (hs : ∀ n ∈ f.nodes, n.Sound config)
    {names : Renaming} (hnames : ∀ e ∈ f.entries, ∃ w, names.handle? e.1 = some w) (next : Nat)
    (state : σ) : f.Grows cloner config names next (f.clone cloner names next state).1 := by
  induction f generalizing names next state with
  | nil => exact ⟨.nil names, le_refl _, Multiset.nodup_zero, fun c hc => absurd hc
      (Multiset.notMem_zero c), fun n hn => absurd hn (Multiset.notMem_zero n)⟩
  | cons v k inside rest ihInside ihRest =>
      obtain ⟨w, hw⟩ := hnames (v, k.id) (List.mem_cons_self ..)
      obtain ⟨hk, hinner, hbeside⟩ := Forest.forall_nodes_cons.mp hs
      have hstored : k.storage.Sound := hk.storage
      obtain ⟨hcopies, hsound⟩ := cloneStorage_spec cloner hstored Storage.blank_empty state
      generalize hstorage : cloneStorage cloner k.storage .empty state = out1 at hcopies hsound
      obtain ⟨⟨storage, inner⟩, state1⟩ := out1
      have hin := ihInside hinner (fun e he => hcopies.exists_handle? (hk.held e he)) (next + 1)
        state1
      generalize hinside : inside.clone cloner inner (next + 1) state1 = out2 at hin
      obtain ⟨⟨inside', next'⟩, state2⟩ := out2
      have hrest := ihRest hbeside (fun e he => hnames e (List.mem_cons_of_mem _ he)) next' state2
      generalize hout : rest.clone cloner names next' state2 = out3 at hrest
      obtain ⟨⟨rest', next''⟩, state3⟩ := out3
      have hrun := Forest.clone_cons cloner hw hstorage hinside hout
      rw [hrun]
      have hle : next + 1 ≤ next' := hin.later
      have hle' : next' ≤ next'' := hrest.later
      let copy : Cluster := ⟨⟨next⟩, storage, k.properties, false⟩
      obtain ⟨hdistinct, hbound⟩ := Forest.ids_cons_numbered (w := w) (k := copy) rfl hle hle'
        hin.distinct hin.bound hrest.distinct hrest.bound
      refine ⟨.cons hw hcopies rfl hin.copies hrest.copies, ?_, hdistinct, hbound, ?_⟩
      · show next ≤ next''
        omega
      · intro n hn
        rw [Forest.nodes, Multiset.mem_cons, Multiset.mem_add] at hn
        rcases hn with rfl | hn | hn
        · have hcopy : Branch.Copies cloner inner ⟨k, inside⟩
              ⟨⟨⟨next⟩, storage, k.properties, false⟩, inside'⟩ := ⟨hcopies, rfl, hin.copies⟩
          exact hcopy.sound hk hsound
        · exact hin.nodes n hn
        · exact hrest.nodes n hn

/-- A forest is copied from its first cluster on: that cluster, then what is inside
    it under the ids that follow, then the rest. -/
theorem Forest.exists_clone_cons {config : Config} {v : LocalVertex} {k : Cluster}
    {inside rest : Forest} (hk : (Branch.node ⟨k, inside⟩).Sound config)
    (hin : ∀ n ∈ inside.nodes, n.Sound config) (hrest : ∀ n ∈ rest.nodes, n.Sound config)
    {names : Renaming}
    (hnames : ∀ e ∈ (Forest.cons v k inside rest).entries, ∃ w, names.handle? e.1 = some w)
    (next : Nat) (state : σ) :
    ∃ w storage inner state1 inside' next' state2 rest' next'' state3, names.handle? v = some w
      ∧ cloneStorage cloner k.storage .empty state = ((storage, inner), state1)
      ∧ k.storage.Copies cloner inner storage
      ∧ inside.clone cloner inner (next + 1) state1 = ((inside', next'), state2)
      ∧ inside.Grows cloner config inner (next + 1) (inside', next')
      ∧ rest.clone cloner names next' state2 = ((rest', next''), state3)
      ∧ rest.Grows cloner config names next' (rest', next'')
      ∧ (Forest.cons v k inside rest).clone cloner names next state
        = ((.cons w ⟨⟨next⟩, storage, k.properties, false⟩ inside' rest', next''), state3) := by
  obtain ⟨w, hw⟩ := hnames (v, k.id) (List.mem_cons_self ..)
  have hstored : k.storage.Sound := hk.storage
  obtain ⟨hcopies, -⟩ := cloneStorage_spec cloner hstored Storage.blank_empty state
  obtain ⟨⟨⟨storage, inner⟩, state1⟩, hstorage⟩ :
    ∃ out, cloneStorage cloner k.storage .empty state = out := ⟨_, rfl⟩
  rw [hstorage] at hcopies
  have hgrows := Forest.clone_spec cloner hin (fun e he => hcopies.exists_handle? (hk.held e he))
    (next + 1) state1
  obtain ⟨⟨⟨inside', next'⟩, state2⟩, hinside⟩ :
    ∃ out, inside.clone cloner inner (next + 1) state1 = out := ⟨_, rfl⟩
  rw [hinside] at hgrows
  have hgrows' := Forest.clone_spec cloner hrest (fun e he => hnames e (List.mem_cons_of_mem _ he))
    next' state2
  obtain ⟨⟨⟨rest', next''⟩, state3⟩, hout⟩ :
    ∃ out, rest.clone cloner names next' state2 = out := ⟨_, rfl⟩
  rw [hout] at hgrows'
  exact ⟨w, storage, inner, state1, inside', next', state2, rest', next'', state3, hw, hstorage,
    hcopies, hinside, hgrows, hout, hgrows', Forest.clone_cons cloner hw hstorage hinside hout⟩

end Copying

/-! ## Copies of branches -/

/-- What a copy of a branch comes to. -/
structure Branch.Grows {σ : Type} (cloner : Cloner σ) (config : Config) (names : Renaming)
    (next : Nat) (into : Cluster) (b : Branch) (out : Branch × Nat) : Prop where
  copies : b.Copies cloner names out.1
  id : out.1.cluster.id = into.id
  later : next ≤ out.2
  distinct : out.1.inside.ids.Nodup
  bound : ∀ c ∈ out.1.inside.ids, next ≤ c.id ∧ c.id < out.2
  nodes : ∀ n ∈ out.1.nodes, n.Sound config

theorem Branch.clone_of {σ : Type} (cloner : Cloner σ) {b : Branch} {into : Cluster}
    {next next' : Nat} {storage : Storage} {names : Renaming} {inside' : Forest}
    {state state1 state2 : σ}
    (hstorage : cloneStorage cloner b.cluster.storage into.storage state
      = ((storage, names), state1))
    (hinside : b.inside.clone cloner names next state1 = ((inside', next'), state2)) :
    b.clone cloner next into state
      = ((⟨{ into with storage := storage, properties := b.cluster.properties }, inside'⟩, next'),
        state2) := by
  show (match cloneStorage cloner b.cluster.storage into.storage state with
    | ((storage, names), state1) =>
      match b.inside.clone cloner names next state1 with
      | ((inside', next'), state2) =>
        ((Branch.mk { into with storage := storage, properties := b.cluster.properties } inside',
          next'), state2)) = _
  rw [hstorage]
  dsimp only
  rw [hinside]

theorem Branch.clone_spec {σ : Type} (cloner : Cloner σ) {config : Config} {b : Branch}
    (hs : ∀ n ∈ b.nodes, n.Sound config) {into : Cluster} (hinto : into.storage.Blank) (next : Nat)
    (state : σ) :
    ∃ names, b.Grows cloner config names next into (b.clone cloner next into state).1 := by
  have hb : b.node.Sound config := hs _ b.node_mem_nodes
  have hstored : b.cluster.storage.Sound := hb.storage
  obtain ⟨hcopies, hsound⟩ := cloneStorage_spec cloner hstored hinto state
  generalize hstorage : cloneStorage cloner b.cluster.storage into.storage state = out1
    at hcopies hsound
  obtain ⟨⟨storage, names⟩, state1⟩ := out1
  have hin := Forest.clone_spec cloner (fun n hn => hs n (Multiset.mem_cons_of_mem hn))
    (fun e he => hcopies.exists_handle? (hb.held e he)) next state1
  generalize hinside : b.inside.clone cloner names next state1 = out2 at hin
  obtain ⟨⟨inside', next'⟩, state2⟩ := out2
  have hrun := Branch.clone_of cloner hstorage hinside
  rw [hrun]
  have hcopy : b.Copies cloner names
      ⟨{ into with storage := storage, properties := b.cluster.properties }, inside'⟩ :=
    ⟨hcopies, rfl, hin.copies⟩
  refine ⟨names, hcopy, rfl, hin.later, hin.distinct, hin.bound, fun n hn => ?_⟩
  rcases Multiset.mem_cons.mp hn with rfl | hn
  · exact hcopy.sound hb hsound
  · exact hin.nodes n hn

/-! ## Where the copy goes -/

namespace Tree

/-- No cluster around another is inside it. -/
theorem Distinct.notMem_of_mem_path {t : Tree} (hd : t.Distinct) {c d : ClusterId}
    {v : LocalVertex} (h : (c, v) ∈ t.path d) {b : Branch} (hb : t.find? d = some b) :
    c ∉ b.ids := by
  intro hc
  obtain ⟨n, hn, rfl⟩ := Multiset.mem_map.mp hc
  obtain ⟨w, hw⟩ := exists_leads_of_mem_nodes (nodes_le_of_find? hb) hn v
  have hlt := hd.length_path_lt h
  rw [id_of_find? hb] at hw
  rcases hw.mem_path hd with heq | hmem
  · obtain ⟨rfl, -⟩ := Prod.mk.inj heq
    exact Nat.lt_irrefl _ hlt
  · exact Nat.lt_asymm hlt (hd.length_path_lt hmem)

/-- Withdrawing further up does not change a branch. -/
theorem Distinct.find?_withdrawAbove {t : Tree} (hd : t.Distinct) (p : GlobalEdge → Bool)
    {c : ClusterId} {b : Branch} (hb : t.find? c = some b) :
    (t.withdrawAbove p c).find? c = some b := by
  have hout : ∀ step ∈ t.path c, step.1 ∉ b.ids := fun step hstep => hd.notMem_of_mem_path hstep hb
  rw [withdrawAbove]
  generalize t.path c = steps at hout
  induction steps generalizing t with
  | nil => exact hb
  | cons step rest ih =>
      have hf := Cluster.id_withdrawAt t.config p step.2
      exact ih (hd.mapCluster step.1 hf)
        (hd.find?_mapCluster hf hb (hout step (List.mem_cons_self ..)))
        (fun s hs => hout s (List.mem_cons_of_mem _ hs))

variable {σ : Type} {cloner : Cloner σ}

/-- The tree in which the content of a branch is replaced. -/
def replaced (t : Tree) (place copy : Branch) (next : Nat) : Tree :=
  { (t.withdrawAbove (GlobalEdge.touches place.globals) place.cluster.id).update place.cluster.id
      (fun _ => copy) with nextClusterId := next }

theorem replaceContent_eq (t : Tree) (place branch : Branch) (state : σ) :
    t.replaceContent cloner place branch state
      = (t.replaced place (branch.clone cloner t.nextClusterId place.cluster.cleared state).1.1
          (branch.clone cloner t.nextClusterId place.cluster.cleared state).1.2,
        (branch.clone cloner t.nextClusterId place.cluster.cleared state).2) := by
  have hupdate := update_update (c := place.cluster.id)
    (f := fun b : Branch => ⟨b.cluster.cleared, .nil⟩)
    (g := fun _ => (branch.clone cloner t.nextClusterId place.cluster.cleared state).1.1)
    (fun b hb => hb) (t.withdrawAbove (GlobalEdge.touches place.globals) place.cluster.id)
  rw [replaced, ← hupdate]
  rfl

/-- The nodes of a branch are replaced by those of the copy, and edges that
    reached into it are gone. -/
theorem Sound.nodes_replaced {t : Tree} (hs : t.Sound) {place : Branch}
    (hplace : t.find? place.cluster.id = some place) :
    ∃ around, (t.withdrawAbove (GlobalEdge.touches place.globals) place.cluster.id).nodes
        = place.nodes + around
      ∧ ∀ (copy : Branch) (next : Nat), copy.cluster.id = place.cluster.id →
        (t.replaced place copy next).nodes = copy.nodes + around := by
  have hw := hs.withdrawAbove (GlobalEdge.touches place.globals) place.cluster.id
  obtain ⟨around, hnodes, hupdate⟩ := hw.distinct.exists_around
    (hs.distinct.find?_withdrawAbove (GlobalEdge.touches place.globals) hplace)
  exact ⟨around, hnodes, fun copy _ hid => hupdate (fun _ => copy) hid⟩

theorem Distinct.find?_replaced {t : Tree} (hd : t.Distinct) {place copy : Branch}
    (hplace : t.find? place.cluster.id = some place) (hid : copy.cluster.id = place.cluster.id)
    (next : Nat) : (t.replaced place copy next).find? copy.cluster.id = some copy := by
  rw [hid]
  exact find?_update_self (g := fun _ => copy)
    (hd.find?_withdrawAbove (GlobalEdge.touches place.globals) hplace) hid

theorem Sound.becomes_replaced {t : Tree} (hs : t.Sound) {place branch : Branch} {into : Cluster}
    (hinto : into.id = place.cluster.id) (hplace : t.find? place.cluster.id = some place)
    {names : Renaming} {out : Branch × Nat}
    (hout : branch.Grows cloner t.config names t.nextClusterId into out) :
    t.Becomes (t.replaced place out.1 out.2) := by
  have hw := hs.withdrawAbove (GlobalEdge.touches place.globals) place.cluster.id
  have hnext := nextClusterId_withdrawAbove t (GlobalEdge.touches place.globals) place.cluster.id
  have hconfig := config_withdrawAbove t (GlobalEdge.touches place.globals) place.cluster.id
  have hid := hout.id.trans hinto
  obtain ⟨around, hnodes, hreplaced⟩ := hs.nodes_replaced hplace
  have hnew := hreplaced out.1 out.2 hid
  have hle : out.1.nodes.map Node.id ≤ place.nodes.map Node.id + out.1.inside.ids := by
    show out.1.ids ≤ place.ids + _
    rw [Branch.ids_eq, Branch.ids_eq, hid, Multiset.cons_add]
    exact Multiset.cons_le_cons _ (Multiset.le_add_left ..)
  have hroot : (t.replaced place out.1 out.2).root
      = (t.withdrawAbove (GlobalEdge.touches place.globals) place.cluster.id).root :=
    root_update (fun _ _ => hid)
  refine ⟨hw.replace place.nodes out.1.nodes out.1.inside.ids hnodes hnew hroot rfl ?_ hle
    hout.distinct ?_ ?_, hconfig, hout.later, fun c hc => ?_⟩
  · rw [hnext]
    exact hout.later
  · intro c hc
    rw [hnext]
    exact hout.bound c hc
  · intro n hn
    rw [hconfig]
    exact hout.nodes n hn
  · rw [ids, hnew, Multiset.map_add, Multiset.mem_add] at hc
    have hids := ids_withdrawAbove hs (GlobalEdge.touches place.globals) place.cluster.id
    rw [ids, hnodes, Multiset.map_add] at hids
    rcases hc with hc | hc
    · rcases Multiset.mem_add.mp (Multiset.mem_of_le hle hc) with hc | hc
      · exact Or.inl (hids ▸ Multiset.mem_add.mpr (Or.inl hc))
      · exact Or.inr (hout.bound c hc).1
    · exact Or.inl (hids ▸ Multiset.mem_add.mpr (Or.inr hc))

/-! ## Copying between trees -/

/-- A cluster that can be copied is alive, and so is the one it is copied
    to; and no id of its branch stays in the other tree. -/
theorem of_copyable {source target : Tree} {c into : ClusterId} {branch place : Branch}
    (h : source.copyable c target into = .ok (branch, place)) :
    source.config.compatible target.config = true ∧ source.find? c = some branch
      ∧ target.find? into = some place
      ∧ ∀ k ∈ branch.clustersLastFirst, ∀ id ∈ k.storage.ids, id ∉ target.remainingIds place := by
  rw [copyable] at h
  split at h
  · exact nomatch h
  · rename_i hcompat
    obtain ⟨branch', hbranch, h⟩ := of_bind_eq_ok h
    obtain ⟨place', hplace, h⟩ := of_bind_eq_ok h
    dsimp only at h
    split at h
    · exact nomatch h
    · rename_i hnone
      obtain ⟨rfl, rfl⟩ := Prod.mk.inj (Except.ok.inj h)
      refine ⟨by simpa using hcompat, of_require hbranch, of_require hplace, ?_⟩
      intro k hk id hid hmem
      have h := List.find?_eq_none.mp hnone id (List.mem_flatMap.mpr ⟨k, hk, hid⟩)
      exact h (decide_eq_true hmem)

/-- A copy between sound trees leaves a sound tree. -/
theorem Sound.grows (cloner : Cloner σ) {source target : Tree} (hs : source.Sound) {c into : ClusterId}
    {branch place : Branch} (h : source.copyable c target into = .ok (branch, place)) (state : σ) :
    ∃ names, branch.Grows cloner target.config names target.nextClusterId place.cluster.cleared
      (branch.clone cloner target.nextClusterId place.cluster.cleared state).1 := by
  obtain ⟨hcompat, hbranch, -, -⟩ := of_copyable h
  exact Branch.clone_spec cloner (fun n hn => (hs.of_find? hbranch n hn).of_compatible hcompat)
    (Storage.blank_clear _) target.nextClusterId state

theorem Sound.becomes_replaceContent (cloner : Cloner σ) {source target : Tree} (hs : source.Sound) (ht : target.Sound)
    {c into : ClusterId} {branch place : Branch}
    (h : source.copyable c target into = .ok (branch, place)) (state : σ) :
    target.Becomes (target.replaceContent cloner place branch state).1 := by
  obtain ⟨names, hgrows⟩ := hs.grows cloner h state
  obtain ⟨-, -, hplace, -⟩ := of_copyable h
  obtain rfl := id_of_find? hplace
  have hid : place.cluster.cleared.id = place.cluster.id := rfl
  rw [replaceContent_eq]
  exact ht.becomes_replaced hid hplace hgrows

end Tree

end NestedGraph
