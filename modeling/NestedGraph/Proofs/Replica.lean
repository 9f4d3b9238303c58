import NestedGraph.Proofs.Evolution
import NestedGraph.Tree.Replica

/-! # Replicas — what a copy has in common with its source

    A storage copied into an empty one gets its vertices and edges in the
    order of the source's slots, with new handles and cloned objects.  So
    names, properties and edges correspond one to one, cluster by cluster,
    and the copy is sound where its source is.  Clusters of the copy have
    ids that were not given out before. -/

namespace NestedGraph

/-! ## Entries of a store without free slots -/

namespace SlotStore

variable {entity : Entity} {α : Type}

theorem filledFrom_append (n : Nat) (slots : List (Option α)) (a : α) :
    filledFrom n (slots ++ [some a]) = filledFrom n slots ++ [(n + slots.length, a)] := by
  induction slots generalizing n with
  | nil => rfl
  | cons slot rest ih =>
      have hlen : n + 1 + rest.length = n + (slot :: rest).length := by
        rw [List.length_cons]
        omega
      cases slot with
      | none =>
          rw [List.cons_append, filledFrom, filledFrom, ih, hlen]
      | some b =>
          rw [List.cons_append, filledFrom, filledFrom, ih, hlen, List.cons_append]

/-- Where no slot is free the next entity comes last. -/
theorem entries_insert {s : SlotStore entity α} (h : s.free = []) (a : α) :
    (s.insert a).entries = s.entries ++ [(s.nextHandle, a)] := by
  have hins : s.insert a = { s with slots := s.slots ++ [some a] } := by
    rw [insert, h]
  rw [hins, nextHandle, nextIndex, h]
  show (filledFrom 0 (s.slots ++ [some a])).map _ = (filledFrom 0 s.slots).map _ ++ [_]
  rw [filledFrom_append, List.map_append, Nat.zero_add]
  rfl

theorem values_insert {s : SlotStore entity α} (h : s.free = []) (a : α) :
    (s.insert a).values = s.values ++ [a] := by
  rw [values, entries_insert h, List.map_append]
  rfl

theorem free_insert {s : SlotStore entity α} (h : s.free = []) (a : α) :
    (s.insert a).free = [] := by
  rw [insert, h]

end SlotStore

/-! ## One storage -/

section Content

variable {σ : Type} (cloner : Cloner σ)

theorem length_cloneSlots (slots : List (Option TypedObject)) (state : σ) :
    (cloneSlots cloner slots state).1.length = slots.length := by
  induction slots generalizing state with
  | nil => rfl
  | cons slot rest ih =>
      cases slot with
      | none => exact congrArg (· + 1) (ih state)
      | some object => exact congrArg (· + 1) (ih (cloner object state).2)

theorem globals_cloneCarried (carried : List CarriedEdge) (state : σ) :
    (cloneCarried cloner carried state).1.map CarriedEdge.global
      = carried.map CarriedEdge.global := by
  induction carried generalizing state with
  | nil => rfl
  | cons x rest ih =>
      exact congrArg (x.global :: ·) (ih (cloneSlots cloner x.objects state).2)

theorem fits_cloneCarried {n : Nat} {carried : List CarriedEdge} (state : σ)
    (h : ∀ x ∈ carried, x.objects.length = n) :
    ∀ x ∈ (cloneCarried cloner carried state).1, x.objects.length = n := by
  induction carried generalizing state with
  | nil => exact fun x hx => nomatch hx
  | cons y rest ih =>
      intro x hx
      have hx : x ∈ { y with objects := (cloneSlots cloner y.objects state).1 } ::
        (cloneCarried cloner rest (cloneSlots cloner y.objects state).2).1 := hx
      rcases List.mem_cons.mp hx with rfl | hx
      · exact (length_cloneSlots cloner ..).trans (h y (List.mem_cons_self ..))
      · exact ih _ (fun z hz => h z (List.mem_cons_of_mem _ hz)) x hx

/-- The vertex is a copy: all but its objects is the same. -/
def VertexRecord.Copies (r r' : VertexRecord) : Prop :=
  ∃ state, r' = { r with objects := (cloneSlots cloner r.objects state).1 }

/-- The edge is a copy, between the new handles of its ends. -/
def Link.Copies (names : Renaming) (l l' : Link) : Prop :=
  names.handle? l.first = some l'.first ∧ names.handle? l.second = some l'.second
    ∧ ∃ state, l'.record
        = { l.record with carried := (cloneCarried cloner l.record.carried state).1 }

/-- The vertices of the second storage are copies of those of the first, slot
    by slot, under new handles. -/
structure Storage.CopiesVertices (names : Renaming) (s s' : Storage) : Prop where
  named : names = s.vertices.handles.zip s'.vertices.handles
  vertices : List.Forall₂ (fun entry entry' => VertexRecord.Copies cloner entry.2 entry'.2)
    s.vertices.entries s'.vertices.entries

/-- The second storage is a copy of the first, slot by slot. -/
structure Storage.Copies (names : Renaming) (s s' : Storage) : Prop
    extends s.CopiesVertices cloner names s' where
  edges : List.Forall₂ (Link.Copies cloner names) s.edges.values s'.edges.values

end Content

namespace Storage

/-- A storage in which no slot was taken since it was made or cleared. -/
structure Blank (s : Storage) : Prop where
  vertexSlots : s.vertices.slots = []
  freeVertices : s.vertices.free = []
  edgeSlots : s.edges.slots = []
  freeEdges : s.edges.free = []
  recent : s.recent = []

theorem blank_empty : empty.Blank := ⟨rfl, rfl, rfl, rfl, rfl⟩

theorem blank_clear (s : Storage) : s.clear.Blank := ⟨rfl, rfl, rfl, rfl, rfl⟩

end Storage

theorem SlotStore.entries_of_slots_eq_nil {entity : Entity} {α : Type} {s : SlotStore entity α}
    (h : s.slots = []) : s.entries = [] := by
  rw [entries, h]
  rfl

theorem SlotStore.tidy_of_slots_eq_nil {entity : Entity} {α : Type} {s : SlotStore entity α}
    (h : s.slots = []) (hf : s.free = []) : s.Tidy := by
  refine ⟨hf ▸ List.nodup_nil, fun i => ?_⟩
  rw [hf, h]
  simp

theorem Storage.Blank.link? {s : Storage} (h : s.Blank) (e : LocalEdge) : s.link? e = none := by
  cases hl : s.link? e with
  | none => rfl
  | some l =>
      have hmem : (e, l) ∈ s.edges.entries := SlotStore.mem_entries.mpr hl
      rw [SlotStore.entries_of_slots_eq_nil h.edgeSlots] at hmem
      exact nomatch hmem

theorem Storage.Blank.sound {s : Storage} (h : s.Blank) : s.Sound :=
  sound_of_no_edges (SlotStore.tidy_of_slots_eq_nil h.vertexSlots h.freeVertices)
    (SlotStore.tidy_of_slots_eq_nil h.edgeSlots h.freeEdges) h.recent h.link?

/-! ## Copying one storage -/

theorem of_mem_zip {α β γ δ : Type} {R : α → β → Prop} {l : List α} {l' : List β}
    (h : List.Forall₂ R l l') {f : α → γ} {g : β → δ} {c : γ} {d : δ}
    (hmem : (c, d) ∈ (l.map f).zip (l'.map g)) : ∃ a ∈ l, ∃ b ∈ l', f a = c ∧ g b = d ∧ R a b := by
  induction h with
  | nil => exact nomatch hmem
  | cons hr _ ih =>
      rcases List.mem_cons.mp hmem with heq | hmem
      · obtain ⟨rfl, rfl⟩ := Prod.mk.inj heq
        exact ⟨_, List.mem_cons_self .., _, List.mem_cons_self .., rfl, rfl, hr⟩
      · obtain ⟨a, ha, b, hb, h⟩ := ih hmem
        exact ⟨a, List.mem_cons_of_mem _ ha, b, List.mem_cons_of_mem _ hb, h⟩

theorem exists_of_forall₂ {α β : Type} {R : α → β → Prop} {l : List α} {l' : List β}
    (h : List.Forall₂ R l l') {b : β} (hmem : b ∈ l') : ∃ a ∈ l, R a b := by
  induction h with
  | nil => exact nomatch hmem
  | cons hr _ ih =>
      rcases List.mem_cons.mp hmem with rfl | hmem
      · exact ⟨_, List.mem_cons_self .., hr⟩
      · obtain ⟨a, ha, h⟩ := ih hmem
        exact ⟨a, List.mem_cons_of_mem _ ha, h⟩

namespace Renaming

theorem mem_of_handle? {names : Renaming} {v w : LocalVertex} (h : names.handle? v = some w) :
    (v, w) ∈ names := by
  obtain ⟨⟨u, x⟩, hfind, rfl⟩ := Option.map_eq_some_iff.mp h
  have hu : u = v := of_decide_eq_true (List.find?_some (p := fun entry : LocalVertex × LocalVertex =>
    decide (entry.1 = v)) hfind)
  exact hu ▸ List.mem_of_find?_eq_some hfind

theorem exists_handle? {names : Renaming} {v : LocalVertex} (h : v ∈ names.map Prod.fst) :
    ∃ w, names.handle? v = some w := by
  obtain ⟨⟨u, w⟩, hmem, rfl⟩ := List.mem_map.mp h
  have hsome : (names.find? (fun entry => decide (entry.1 = u))).isSome = true := by
    rw [List.find?_isSome]
    exact ⟨(u, w), hmem, by simp⟩
  obtain ⟨entry, he⟩ := Option.isSome_iff_exists.mp hsome
  exact ⟨entry.2, by rw [handle?, he]; rfl⟩

end Renaming

section Copying

variable {σ : Type} (cloner : Cloner σ)

/-- What the vertices of a copy come to. -/
theorem cloneVertices_spec (entries : List (LocalVertex × VertexRecord)) {target : Storage}
    (hfree : target.vertices.free = []) (htidy : target.vertices.Tidy) (state : σ) :
    ∃ added, (cloneVertices cloner target entries state).1.1.vertices.entries
        = target.vertices.entries ++ added
      ∧ List.Forall₂ (fun e e' => VertexRecord.Copies cloner e.2 e'.2) entries added
      ∧ (cloneVertices cloner target entries state).1.2
        = (entries.map Prod.fst).zip (added.map Prod.fst)
      ∧ (cloneVertices cloner target entries state).1.1.vertices.Tidy
      ∧ (cloneVertices cloner target entries state).1.1.edges = target.edges
      ∧ (cloneVertices cloner target entries state).1.1.recent = target.recent := by
  induction entries generalizing target state with
  | nil => exact ⟨[], (List.append_nil _).symm, .nil, rfl, htidy, rfl, rfl⟩
  | cons entry rest ih =>
      obtain ⟨v, r⟩ := entry
      let copy : VertexRecord := { r with objects := (cloneSlots cloner r.objects state).1 }
      have hfree' : (target.addVertex copy).vertices.free = [] := SlotStore.free_insert hfree copy
      obtain ⟨added, h1, h2, h3, h4, h5, h6⟩ := ih hfree' (htidy.insert copy)
        (cloneSlots cloner r.objects state).2
      refine ⟨(target.vertices.nextHandle, copy) :: added, ?_, .cons ⟨state, rfl⟩ h2, ?_, h4, h5, h6⟩
      · refine h1.trans ?_
        rw [show (target.addVertex copy).vertices.entries = _ from
          SlotStore.entries_insert hfree copy, List.append_assoc]
        rfl
      · exact congrArg ((v, target.vertices.nextHandle) :: ·) h3

/-- The edges of a source may be added between the new handles of their
    ends. -/
structure Ready (names : Renaming) (target : Storage) (links : List Link) : Prop where
  named : ∀ l ∈ links, ∃ a b, names.handle? l.first = some a ∧ names.handle? l.second = some b
    ∧ a ≠ b ∧ target.hasVertex a = true ∧ target.hasVertex b = true ∧ l.record.carried ≠ []
  single : links.Pairwise (fun l m => ∀ a b c d, names.handle? l.first = some a →
    names.handle? l.second = some b → names.handle? m.first = some c → names.handle? m.second = some d →
    s(a, b) ≠ s(c, d))
  new : ∀ e m, target.link? e = some m → ∀ l ∈ links, ∀ a b, names.handle? l.first = some a →
    names.handle? l.second = some b → m.ends ≠ s(a, b)

/-- What the edges of a copy come to. -/
theorem cloneEdges_spec {names : Renaming} {links : List Link} {target : Storage}
    (hs : target.Sound) (hfree : target.edges.free = []) (hready : Ready names target links)
    (state : σ) :
    ∃ added, (cloneEdges cloner names target links state).1.edges.entries
        = target.edges.entries ++ added
      ∧ List.Forall₂ (fun l entry => l.Copies cloner names entry.2) links added
      ∧ (cloneEdges cloner names target links state).1.vertices = target.vertices
      ∧ (cloneEdges cloner names target links state).1.Sound := by
  induction links generalizing target state with
  | nil => exact ⟨[], (List.append_nil _).symm, .nil, rfl, hs⟩
  | cons l rest ih =>
      obtain ⟨a, b, ha, hb, hne, hlive, hlive', hfill⟩ := hready.named l (List.mem_cons_self ..)
      let copy : EdgeRecord :=
        { l.record with carried := (cloneCarried cloner l.record.carried state).1 }
      have hcopy : copy.carried ≠ [] := by
        intro hnil
        have hmap := globals_cloneCarried cloner l.record.carried state
        rw [show (cloneCarried cloner l.record.carried state).1 = [] from hnil] at hmap
        exact hfill (List.map_eq_nil_iff.mp hmap.symm)
      have hrun : cloneEdges cloner names target (l :: rest) state
          = cloneEdges cloner names (target.addEdge a b copy) rest
            (cloneCarried cloner l.record.carried state).2 := by
        rw [cloneEdges, ha, hb]
        rfl
      have hsound : (target.addEdge a b copy).Sound := hs.addEdge hne hlive hlive' hcopy
        (fun e m hm => hready.new e m hm l (List.mem_cons_self ..) a b ha hb)
      -- The edge just added is in the way of no later one: two links of the
      -- source do not join the same vertices.
      have hrest : Ready names (target.addEdge a b copy) rest := by
        obtain ⟨hnamed, hsingle, hnew⟩ := hready
        rw [List.pairwise_cons] at hsingle
        refine ⟨fun m hm => hnamed m (List.mem_cons_of_mem _ hm), hsingle.2, ?_⟩
        intro e m hm k hk c d hc hd
        rw [Storage.link?_addEdge hs.listed] at hm
        split at hm
        · obtain rfl := Option.some.inj hm
          exact hsingle.1 k hk a b c d ha hb hc hd
        · exact hnew e m hm k (List.mem_cons_of_mem _ hk) c d hc hd
      obtain ⟨added, h1, h2, h3, h4⟩ := ih hsound (SlotStore.free_insert hfree _) hrest
        (cloneCarried cloner l.record.carried state).2
      rw [hrun]
      refine ⟨(target.edges.nextHandle, ⟨a, b, copy⟩) :: added, ?_, .cons ⟨ha, hb, state, rfl⟩ h2,
        h3, h4⟩
      refine h1.trans ?_
      rw [show (target.addEdge a b copy).edges.entries = _ from
        SlotStore.entries_insert hfree _, List.append_assoc]
      rfl

variable {cloner}

/-- A copied vertex has a new handle, under which its copy is kept. -/
theorem Storage.CopiesVertices.vertex {names : Renaming} {s s' : Storage} (h : s.CopiesVertices cloner names s')
    {v w : LocalVertex} (hv : names.handle? v = some w) :
    ∃ r r', s.vertex? v = some r ∧ s'.vertex? w = some r' ∧ VertexRecord.Copies cloner r r' := by
  have hmem := Renaming.mem_of_handle? hv
  rw [h.named] at hmem
  obtain ⟨⟨v, r⟩, hr, ⟨w, r'⟩, hr', rfl, rfl, hcopy⟩ := of_mem_zip h.vertices hmem
  exact ⟨r, r', SlotStore.mem_entries.mp hr, SlotStore.mem_entries.mp hr', hcopy⟩

theorem Storage.CopiesVertices.length {names : Renaming} {s s' : Storage} (h : s.CopiesVertices cloner names s') :
    s.vertices.handles.length = s'.vertices.handles.length := by
  rw [SlotStore.handles, SlotStore.handles, List.length_map, List.length_map]
  exact h.vertices.length_eq

/-- Every vertex has a new handle. -/
theorem Storage.CopiesVertices.exists_handle? {names : Renaming} {s s' : Storage}
    (h : s.CopiesVertices cloner names s') {v : LocalVertex} (hv : s.hasVertex v = true) :
    ∃ w, names.handle? v = some w := by
  obtain ⟨r, hr⟩ := Storage.hasVertex_iff.mp hv
  refine Renaming.exists_handle? ?_
  rw [h.named, List.map_fst_zip (le_of_eq h.length)]
  exact SlotStore.mem_handles.mpr ⟨r, hr⟩

/-- Two vertices have two new handles. -/
theorem Storage.CopiesVertices.injective {names : Renaming} {s s' : Storage} (h : s.CopiesVertices cloner names s')
    {v u w : LocalVertex} (hv : names.handle? v = some w) (hu : names.handle? u = some w) : v = u := by
  have hnodup : (names.map Prod.snd).Nodup := by
    rw [h.named, List.map_snd_zip (le_of_eq h.length.symm)]
    exact s'.vertices.nodup_handles
  have heq := List.inj_on_of_nodup_map hnodup (Renaming.mem_of_handle? hv)
    (Renaming.mem_of_handle? hu) rfl
  exact congrArg Prod.fst heq

/-- Every vertex of a copy is the copy of one. -/
theorem Storage.CopiesVertices.surjective {names : Renaming} {s s' : Storage} (h : s.CopiesVertices cloner names s')
    {w : LocalVertex} (hw : s'.hasVertex w = true) :
    ∃ v, names.handle? v = some w ∧ s.hasVertex v = true := by
  obtain ⟨r, hr⟩ := Storage.hasVertex_iff.mp hw
  have hmem : w ∈ names.map Prod.snd := by
    rw [h.named, List.map_snd_zip (le_of_eq h.length.symm)]
    exact SlotStore.mem_handles.mpr ⟨r, hr⟩
  obtain ⟨⟨v, w⟩, hvw, rfl⟩ := List.mem_map.mp hmem
  have hnodup : (names.map Prod.fst).Nodup := by
    rw [h.named, List.map_fst_zip (le_of_eq h.length)]
    exact s.vertices.nodup_handles
  obtain ⟨u, hu⟩ := Renaming.exists_handle? (List.mem_map.mpr ⟨(v, w), hvw, rfl⟩)
  have heq := List.inj_on_of_nodup_map hnodup (Renaming.mem_of_handle? hu) hvw rfl
  obtain rfl : u = w := congrArg Prod.snd heq
  obtain ⟨r', -, hr', -⟩ := h.vertex hu
  exact ⟨v, hu, Storage.hasVertex_iff.mpr ⟨r', hr'⟩⟩

variable (cloner)

/-- The edges of a sound storage may be added to a copy of its vertices. -/
theorem ready_of_copiesVertices {names : Renaming} {source target : Storage} (hs : source.Sound)
    (h : source.CopiesVertices cloner names target) (hnone : ∀ e, target.link? e = none) :
    Ready names target source.edges.values := by
  have hlink : ∀ l ∈ source.edges.values, ∃ e, source.link? e = some l := by
    intro l hl
    obtain ⟨⟨e, l⟩, hmem, rfl⟩ := List.mem_map.mp hl
    exact ⟨e, SlotStore.mem_entries.mp hmem⟩
  refine ⟨fun l hl => ?_, ?_, fun e m hm => ?_⟩
  · obtain ⟨e, he⟩ := hlink l hl
    obtain ⟨hfirst, hsecond⟩ := hs.live e l he
    obtain ⟨a, ha⟩ := h.exists_handle? hfirst
    obtain ⟨b, hb⟩ := h.exists_handle? hsecond
    obtain ⟨-, r, -, hr, -⟩ := h.vertex ha
    obtain ⟨-, r', -, hr', -⟩ := h.vertex hb
    refine ⟨a, b, ha, hb, ?_, Storage.hasVertex_iff.mpr ⟨r, hr⟩,
      Storage.hasVertex_iff.mpr ⟨r', hr'⟩, hs.filled e l he⟩
    rintro rfl
    exact hs.apart e l he (h.injective ha hb)
  · rw [SlotStore.values, List.pairwise_map]
    have hkeys : source.edges.entries.Pairwise (fun x y => x.1 ≠ y.1) := by
      have hnodup := source.edges.nodup_handles
      rwa [SlotStore.handles, List.Nodup, List.pairwise_map] at hnodup
    refine hkeys.imp_of_mem (fun {x y} hx hy hne a b c d ha hb hc hd heq => hne ?_)
    have hx := SlotStore.mem_entries.mp hx
    have hy := SlotStore.mem_entries.mp hy
    refine hs.single x.1 x.2 y.1 y.2 hx hy ?_
    rcases Sym2.eq_iff.mp heq with ⟨rfl, rfl⟩ | ⟨rfl, rfl⟩
    · rw [Link.ends, Link.ends, h.injective ha hc, h.injective hb hd]
    · rw [Link.ends, Link.ends, h.injective ha hd, h.injective hb hc]
      exact Sym2.eq_swap
  · rw [hnone] at hm
    cases hm

/-- The edges of a copy are added once all its vertices are there. -/
theorem cloneStorage_of {source target filled : Storage} {names : Renaming} {state state' : σ}
    (hvertices : cloneVertices cloner target source.vertices.entries state
      = ((filled, names), state')) :
    cloneStorage cloner source target state
      = (((cloneEdges cloner names filled source.edges.values state').1, names),
        (cloneEdges cloner names filled source.edges.values state').2) := by
  show (fun out : (Storage × Renaming) × σ =>
      (((cloneEdges cloner out.1.2 out.1.1 source.edges.values out.2).1, out.1.2),
        (cloneEdges cloner out.1.2 out.1.1 source.edges.values out.2).2))
    (cloneVertices cloner target source.vertices.entries state) = _
  rw [hvertices]

/-- A sound storage is copied into one without content, vertex by vertex and
    edge by edge. -/
theorem cloneStorage_spec {source target : Storage} (hs : source.Sound) (hb : target.Blank)
    (state : σ) :
    source.Copies cloner (cloneStorage cloner source target state).1.2
        (cloneStorage cloner source target state).1.1
      ∧ (cloneStorage cloner source target state).1.1.Sound := by
  obtain ⟨added, hentries, hcopies, hnames, htidy, hedges, hrecent⟩ :=
    cloneVertices_spec cloner source.vertices.entries hb.freeVertices
      hb.sound.vertices state
  rw [SlotStore.entries_of_slots_eq_nil hb.vertexSlots, List.nil_append] at hentries
  generalize hout : cloneVertices cloner target source.vertices.entries state = out at *
  obtain ⟨⟨filled, names⟩, state'⟩ := out
  dsimp only at hentries hcopies hnames htidy hedges hrecent
  have hvertices : source.CopiesVertices cloner names filled := by
    refine ⟨?_, hentries ▸ hcopies⟩
    rw [SlotStore.handles, SlotStore.handles, hentries]
    exact hnames
  have hnone : ∀ e, filled.link? e = none := by
    intro e
    rw [Storage.link?, hedges]
    exact hb.link? e
  have hsound : filled.Sound := Storage.sound_of_no_edges htidy (hedges ▸ hb.sound.listed.tidy)
    (hrecent.trans hb.recent) hnone
  obtain ⟨links, hlinks, hsame, hkeep, hfinal⟩ := cloneEdges_spec cloner hsound
    (hedges ▸ hb.freeEdges) (ready_of_copiesVertices cloner hs hvertices hnone) state'
  rw [hedges, SlotStore.entries_of_slots_eq_nil hb.edgeSlots, List.nil_append] at hlinks
  rw [cloneStorage_of cloner hout]
  refine ⟨⟨⟨?_, ?_⟩, ?_⟩, hfinal⟩
  · rw [hkeep]
    exact hvertices.named
  · rw [hkeep]
    exact hvertices.vertices
  · have hvalues : (cloneEdges cloner names filled source.edges.values state').1.edges.values
        = links.map Prod.snd := congrArg (List.map Prod.snd) hlinks
    show List.Forall₂ _ _ (cloneEdges cloner names filled source.edges.values state').1.edges.values
    rw [hvalues]
    exact List.forall₂_map_right_iff.mpr hsame

/-- A copy has the slots of the configuration where its source has. -/
theorem Storage.Copies.fits {cloner : Cloner σ} {names : Renaming} {s s' : Storage}
    (h : s.Copies cloner names s') {config : Config} (hf : s.Fits config) : s'.Fits config := by
  refine ⟨fun w r' hr' => ?_, fun e l' hl' => ?_⟩
  · obtain ⟨v, hv, -⟩ := h.surjective (Storage.hasVertex_iff.mpr ⟨r', hr'⟩)
    obtain ⟨r, r'', hr, hr'', state, rfl⟩ := h.vertex hv
    obtain rfl := Option.some.inj (hr'.symm.trans hr'')
    obtain ⟨h1, h2⟩ := hf.vertex v r hr
    exact ⟨h1, (length_cloneSlots cloner ..).trans h2⟩
  · have hmem : l' ∈ s'.edges.values :=
      List.mem_map.mpr ⟨(e, l'), SlotStore.mem_entries.mpr hl', rfl⟩
    obtain ⟨l, hl, -, -, state, hr⟩ := exists_of_forall₂ h.edges hmem
    obtain ⟨⟨k, l⟩, hmem, rfl⟩ := List.mem_map.mp hl
    obtain ⟨h1, h2⟩ := hf.edge k l (SlotStore.mem_entries.mp hmem)
    rw [hr]
    exact ⟨h1, fits_cloneCarried cloner state h2⟩

end Copying

end NestedGraph
