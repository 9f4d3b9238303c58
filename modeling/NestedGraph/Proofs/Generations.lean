import NestedGraph.Proofs.Storage

/-! # Generations — how long a handle is good

    The generation of a slot counts what went from it, modulo 2 ^ 32.  A
    handle keeps the generation of the time at which it was issued.  So it
    resolves again and again, each time that 2 ^ 32 entities went from its
    slot, but before that only to the entity that it was issued for.

    * `Storage.lasts_changes`: what becomes of each handle that a storage
      issues, whatever is done to the storage before and after. -/

namespace NestedGraph

namespace SlotStore

variable {entity : Entity} {α : Type} {s s' s'' : SlotStore entity α}

/-! ## Slots that become free -/

/-- The slot holds an entity. -/
def isFilled (s : SlotStore entity α) (i : Nat) : Bool := s.slots[i]?.join.isSome

/-- What the slot held is gone after a change. -/
def frees (s s' : SlotStore entity α) (i : Nat) : Bool := s.isFilled i && !s'.isFilled i

/-- A handle resolves in its slot's generation, if the slot is filled. -/
theorem contains_iff_isFilled {h : Handle entity} :
    s.contains h = true ↔ s.isFilled h.index = true ∧ s.generation h.index = h.generation := by
  rw [contains, get?, isFilled]
  split
  · rename_i hg
    simp [hg]
  · rename_i hg
    simp [hg]

theorem isFilled_iff {i : Nat} :
    s.isFilled i = true ↔ i ∈ (filledFrom 0 s.slots).map Prod.fst := by
  simp only [isFilled, Option.isSome_iff_exists, Option.join_eq_some_iff, List.mem_map,
    Prod.exists, mem_filledFrom, Nat.zero_add]
  constructor
  · rintro ⟨a, ha⟩
    exact ⟨i, a, ⟨i, rfl, ha⟩, rfl⟩
  · rintro ⟨j, a, ⟨k, rfl, ha⟩, rfl⟩
    exact ⟨a, ha⟩

theorem isFilled_of_contains {h : Handle entity} (hh : s.contains h = true) :
    s.isFilled h.index = true := (contains_iff_isFilled.mp hh).1

theorem contains_handleAt {i : Nat} : s.contains (s.handleAt i) = s.isFilled i := by
  rw [contains, get?_handleAt, isFilled]

/-- What goes from the slots is told by the handles that do not resolve any
    more. -/
theorem frees_iff {gone : Handle entity → Prop} [DecidablePred gone]
    (hget : ∀ k, s'.get? k = if gone k then none else s.get? k) {i : Nat} :
    s.frees s' i = true ↔ ∃ h, gone h ∧ s.contains h = true ∧ h.index = i := by
  rw [frees, Bool.and_eq_true, Bool.not_eq_true']
  constructor
  · rintro ⟨hfilled, hfree⟩
    have hlive : s.contains (s.handleAt i) = true := contains_handleAt.trans hfilled
    refine ⟨s.handleAt i, ?_, hlive, rfl⟩
    by_contra hgone
    -- The handle still resolves, so its slot is still filled.
    have hstill : s'.contains (s.handleAt i) = true := by
      rw [contains, hget, if_neg hgone]
      exact hlive
    exact Bool.false_ne_true (hfree.symm.trans (isFilled_of_contains hstill))
  · rintro ⟨h, hgone, hlive, rfl⟩
    refine ⟨isFilled_of_contains hlive, Bool.eq_false_iff.mpr (fun hfilled => ?_)⟩
    have hlive' : s'.contains (s'.handleAt h.index) = true := contains_handleAt.trans hfilled
    rw [contains, hget] at hlive'
    split at hlive'
    · exact Bool.false_ne_true hlive'
    · -- One handle at most resolves to a slot.
      rename_i hkept
      have hsame : s.generation h.index = s'.generation h.index :=
        (contains_iff_isFilled.mp hlive').2
      have heq : s'.handleAt h.index = h := by
        rw [handleAt, ← hsame, (contains_iff_isFilled.mp hlive).2]
      exact hkept (heq ▸ hgone)

/-- A change of which the generations take account: they count what goes, and
    what does not go stays as it is. -/
structure Turns (s s' : SlotStore entity α) : Prop where
  tidy : s'.Tidy
  generation : ∀ i, s'.generation i = s.generation i + if s.frees s' i then 1 else 0
  stays : ∀ i, s.isFilled i = true → s'.isFilled i = true → s'.slots[i]? = s.slots[i]?

/-- A change that fills no slot. -/
structure Sheds (s s' : SlotStore entity α) : Prop extends s.Turns s' where
  filled : ∀ i, s'.isFilled i = true → s.isFilled i = true

theorem sheds_refl (hs : s.Tidy) : s.Sheds s := by
  refine ⟨⟨hs, fun i => ?_, fun _ _ _ => rfl⟩, fun _ h => h⟩
  simp [frees]

/-- A slot that is free stays free, so nothing is counted twice. -/
theorem Sheds.trans (h : s.Sheds s') (h' : s'.Sheds s'') : s.Sheds s'' := by
  refine ⟨⟨h'.tidy, fun i => ?_, fun i hi hi'' => ?_⟩, fun i hi => h.filled i (h'.filled i hi)⟩
  · have hback := h.filled i
    have hback' := h'.filled i
    rw [h'.generation, h.generation]
    unfold frees
    cases hi : s.isFilled i <;> cases hi' : s'.isFilled i <;> cases hi'' : s''.isFilled i <;>
      simp_all
  · have hi' := h'.filled i hi''
    rw [h'.stays i hi' hi'', h.stays i hi hi']

/-! ## The changes of a store -/

theorem isFilled_insert (hs : s.Tidy) (a : α) (i : Nat) :
    (s.insert a).isFilled i = (decide (i = s.nextIndex) || s.isFilled i) := by
  rw [isFilled, getElem?_insert hs]
  by_cases hi : i = s.nextIndex
  · simp [hi]
  · simp [hi, isFilled]

theorem turns_insert (hs : s.Tidy) (a : α) : s.Turns (s.insert a) := by
  refine ⟨hs.insert a, fun i => ?_, fun i hi _ => ?_⟩
  · cases hi : s.isFilled i <;> simp [frees, isFilled_insert hs, hi]
  · -- The slot that is taken was free.
    have hne : i ≠ s.nextIndex := by
      rintro rfl
      rw [isFilled, join_getElem?_nextIndex hs] at hi
      exact Bool.false_ne_true hi
    rw [getElem?_insert hs, if_neg hne]

theorem sheds_erase (hs : s.Tidy) (h : Handle entity) : s.Sheds (s.erase h) := by
  cases hget : s.get? h with
  | none =>
      rw [erase_of_dead hget]
      exact sheds_refl hs
  | some a =>
      obtain ⟨hg, hslot⟩ := get?_eq_some_iff.mp hget
      have hlt : h.index < s.slots.length := (List.getElem?_eq_some_iff.mp hslot).1
      have hslots : ∀ i, (s.erase h).slots[i]? = if h.index = i then some none else s.slots[i]? := by
        intro i
        simp only [erase, hget]
        rw [List.getElem?_set]
        simp [hlt]
      have hgen : ∀ i, (s.erase h).generation i
          = if i = h.index then s.generation h.index + 1 else s.generation i := by
        intro i
        simp only [erase, hget]
        exact getD_incrementAt s.generations h.index i
      have hfilled : ∀ i, (s.erase h).isFilled i = (decide (h.index ≠ i) && s.isFilled i) := by
        intro i
        rw [isFilled, hslots]
        by_cases hi : h.index = i
        · simp [hi]
        · simp [hi, isFilled]
      have hself : s.isFilled h.index = true := by
        rw [isFilled, hslot]
        rfl
      -- Only the slot of the handle changes: it is free, and one generation on.
      refine ⟨⟨hs.erase h, fun i => ?_, fun i _ hi => ?_⟩, fun i hi => ?_⟩
      · rw [hgen, frees, hfilled]
        by_cases hi : i = h.index
        · simp [hi, hself]
        · cases hfill : s.isFilled i <;> simp [hi, Ne.symm hi]
      · rw [hfilled] at hi
        simp only [Bool.and_eq_true, decide_eq_true_eq] at hi
        rw [hslots, if_neg hi.1]
      · rw [hfilled] at hi
        exact (Bool.and_eq_true _ _ ▸ hi).2

/-- Counters go up by one at each of several places. -/
theorem getD_foldl_incrementAt {entries : List (Nat × α)} (hd : (entries.map Prod.fst).Nodup)
    (counters : List UInt32) (i : Nat) :
    (entries.foldl (fun g entry => incrementAt g entry.1) counters).getD i 0
      = counters.getD i 0 + if i ∈ entries.map Prod.fst then 1 else 0 := by
  induction entries generalizing counters with
  | nil => simp
  | cons entry rest ih =>
      rw [List.map_cons, List.nodup_cons] at hd
      rw [List.foldl_cons, ih hd.2, getD_incrementAt]
      by_cases hi : i = entry.1
      · subst hi
        simp [hd.1]
      · rw [if_neg hi]
        exact congrArg _ (if_congr (by simp [hi]) rfl rfl)

theorem generation_clear (s : SlotStore entity α) (i : Nat) :
    s.clear.generation i = s.generation i + if s.isFilled i then 1 else 0 := by
  rw [if_congr (isFilled_iff (s := s)) rfl rfl]
  exact getD_foldl_incrementAt (nodup_filledFrom 0 s.slots) s.generations i

theorem isFilled_clear (s : SlotStore entity α) (i : Nat) : s.clear.isFilled i = false := rfl

theorem sheds_clear (s : SlotStore entity α) : s.Sheds s.clear := by
  refine ⟨⟨Tidy.clear s, fun i => ?_, fun i _ hi => ?_⟩, fun i hi => ?_⟩
  · rw [generation_clear, frees, isFilled_clear, Bool.not_false, Bool.and_true]
  · exact absurd hi (by simp [isFilled_clear])
  · exact absurd hi (by simp [isFilled_clear])

end SlotStore

/-! ## Changes of a storage -/

/-- A change of the vertices and edges of one cluster. -/
inductive StorageChange where
  | addVertex (record : VertexRecord)
  | addEdge (first second : LocalVertex) (record : EdgeRecord)
  | removeVertex (v : LocalVertex)
  | removeEdge (e : LocalEdge)
  | clear

namespace Storage

/-- Carries out a change.  An edge needs two vertices that are there. -/
def change (s : Storage) : StorageChange → Storage
  | .addVertex record => s.addVertex record
  | .addEdge first second record =>
      if s.hasVertex first && s.hasVertex second then s.addEdge first second record else s
  | .removeVertex v => s.removeVertex v
  | .removeEdge e => s.removeEdge e
  | .clear => s.clear

/-- Carries out changes in order. -/
def changes (s : Storage) (cs : List StorageChange) : Storage := cs.foldl change s

/-- Both stores are tidy. -/
structure Tidy (s : Storage) : Prop where
  vertices : s.vertices.Tidy
  edges : s.edges.Tidy

variable {s : Storage} {entity : Entity} {α : Type}

theorem sheds_foldl_removeEdge (hs : s.edges.Tidy) (es : List LocalEdge) :
    s.edges.Sheds (es.foldl removeEdge s).edges := by
  induction es generalizing s with
  | nil => exact SlotStore.sheds_refl hs
  | cons e rest ih =>
      have hfirst : s.edges.Sheds (s.removeEdge e).edges := SlotStore.sheds_erase hs e
      exact hfirst.trans (ih hfirst.tidy)

theorem turns_vertices (hs : s.Tidy) (c : StorageChange) :
    s.vertices.Turns (s.change c).vertices := by
  cases c with
  | addVertex record => exact SlotStore.turns_insert hs.vertices record
  | addEdge first second record =>
      have heq : (s.change (.addEdge first second record)).vertices = s.vertices := by
        rw [change]
        split <;> rfl
      rw [heq]
      exact (SlotStore.sheds_refl hs.vertices).toTurns
  | removeVertex v =>
      have heq : (s.change (.removeVertex v)).vertices = s.vertices.erase v := by
        show ((s.incident v).foldl removeEdge s).vertices.erase v = _
        rw [vertices_foldl_removeEdge]
      rw [heq]
      exact (SlotStore.sheds_erase hs.vertices v).toTurns
  | removeEdge e => exact (SlotStore.sheds_refl hs.vertices).toTurns
  | clear => exact (SlotStore.sheds_clear s.vertices).toTurns

theorem turns_edges (hs : s.Tidy) (c : StorageChange) : s.edges.Turns (s.change c).edges := by
  cases c with
  | addVertex record => exact (SlotStore.sheds_refl hs.edges).toTurns
  | addEdge first second record =>
      rw [change]
      split
      · exact SlotStore.turns_insert hs.edges _
      · exact (SlotStore.sheds_refl hs.edges).toTurns
  | removeVertex v => exact (sheds_foldl_removeEdge hs.edges (s.incident v)).toTurns
  | removeEdge e => exact (SlotStore.sheds_erase hs.edges e).toTurns
  | clear => exact (SlotStore.sheds_clear s.edges).toTurns

theorem Tidy.change (hs : s.Tidy) (c : StorageChange) : (s.change c).Tidy :=
  ⟨(turns_vertices hs c).tidy, (turns_edges hs c).tidy⟩

theorem Tidy.changes (hs : s.Tidy) (cs : List StorageChange) : (s.changes cs).Tidy := by
  induction cs generalizing s with
  | nil => exact hs
  | cons c rest ih => exact ih (hs.change c)

theorem tidy_empty : empty.Tidy := ⟨SlotStore.tidy_empty, SlotStore.tidy_empty⟩

/-! ## What goes from a slot -/

/-- The change removes the vertex in a slot: by itself, or with everything. -/
def TakesVertex (s : Storage) (i : Nat) : StorageChange → Prop
  | .removeVertex v => s.hasVertex v = true ∧ v.index = i
  | .clear => s.vertices.isFilled i = true
  | _ => False

/-- The change removes the edge in a slot: by itself, with a vertex that it
    ends at, or with everything. -/
def TakesEdge (s : Storage) (i : Nat) : StorageChange → Prop
  | .removeVertex v => ∃ e ∈ s.incident v, e.index = i
  | .removeEdge e => s.hasEdge e = true ∧ e.index = i
  | .clear => s.edges.isFilled i = true
  | _ => False

theorem frees_vertices_iff (hs : s.Tidy) (c : StorageChange) (i : Nat) :
    s.vertices.frees (s.change c).vertices i = true ↔ s.TakesVertex i c := by
  cases c with
  | addVertex record =>
      show s.vertices.frees (s.vertices.insert record) i = true ↔ False
      cases hi : s.vertices.isFilled i <;>
        simp [SlotStore.frees, SlotStore.isFilled_insert hs.vertices, hi]
  | addEdge first second record =>
      rw [change]
      split <;> simp [SlotStore.frees, TakesVertex]
  | removeVertex v =>
      refine (SlotStore.frees_iff (fun w => vertex?_removeVertex s v w)).trans ?_
      exact ⟨fun ⟨_, rfl, hlive, hi⟩ => ⟨hlive, hi⟩, fun ⟨hlive, hi⟩ => ⟨v, rfl, hlive, hi⟩⟩
  | removeEdge e => simp [change, SlotStore.frees, TakesVertex]
  | clear =>
      show (s.vertices.isFilled i && !s.vertices.clear.isFilled i) = true ↔ _
      simp [SlotStore.isFilled_clear, TakesVertex]

theorem hasEdge_of_mem_incident {v : LocalVertex} {e : LocalEdge} (h : e ∈ s.incident v) :
    s.hasEdge e = true := by
  have hlive : ∀ p : Link → Bool, e ∈ s.recentWhere p → s.hasEdge e = true := by
    intro p hp
    have hany := (List.mem_filter.mp hp).2
    cases hl : s.link? e with
    | none =>
        rw [hl] at hany
        exact nomatch hany
    | some l => exact SlotStore.contains_iff.mpr ⟨l, hl⟩
  rcases List.mem_append.mp h with h | h
  · exact hlive _ h
  · exact hlive _ h

theorem frees_edges_iff (hs : s.Tidy) (c : StorageChange) (i : Nat) :
    s.edges.frees (s.change c).edges i = true ↔ s.TakesEdge i c := by
  cases c with
  | addVertex record => simp [change, SlotStore.frees, TakesEdge]
  | addEdge first second record =>
      rw [change]
      split
      · show s.edges.frees (s.edges.insert _) i = true ↔ False
        cases hi : s.edges.isFilled i <;>
          simp [SlotStore.frees, SlotStore.isFilled_insert hs.edges, hi]
      · simp [SlotStore.frees, TakesEdge]
  | removeVertex v =>
      refine (SlotStore.frees_iff (fun e => link?_removeVertex s v e)).trans ?_
      exact exists_congr (fun e => ⟨fun ⟨hmem, _, hi⟩ => ⟨hmem, hi⟩,
        fun ⟨hmem, hi⟩ => ⟨hmem, hasEdge_of_mem_incident hmem, hi⟩⟩)
  | removeEdge e =>
      refine (SlotStore.frees_iff (fun k => SlotStore.get?_erase s.edges e k)).trans ?_
      exact ⟨fun ⟨_, rfl, hlive, hi⟩ => ⟨hlive, hi⟩, fun ⟨hlive, hi⟩ => ⟨e, rfl, hlive, hi⟩⟩
  | clear =>
      show (s.edges.isFilled i && !s.edges.clear.isFilled i) = true ↔ _
      simp [SlotStore.isFilled_clear, TakesEdge]

/-- How many entities went from a slot in the course of some changes. -/
def departures (store : Storage → SlotStore entity α) (i : Nat) :
    Storage → List StorageChange → Nat
  | _, [] => 0
  | s, c :: rest =>
      (if (store s).frees (store (s.change c)) i then 1 else 0)
        + departures store i (s.change c) rest

section Runs

variable {store : Storage → SlotStore entity α}
  (hturns : ∀ s : Storage, s.Tidy → ∀ c, (store s).Turns (store (s.change c)))
include hturns

/-- The generation of a slot counts what went from it. -/
theorem generation_changes (hs : s.Tidy) (cs : List StorageChange) (i : Nat) :
    (store (s.changes cs)).generation i
      = (store s).generation i + UInt32.ofNat (departures store i s cs) := by
  induction cs generalizing s with
  | nil => simp [changes, departures]
  | cons c rest ih =>
      have hrest : (store (s.changes (c :: rest))).generation i
          = (store (s.change c)).generation i
            + UInt32.ofNat (departures store i (s.change c) rest) := ih (hs.change c)
      rw [hrest, (hturns s hs c).generation, departures, UInt32.ofNat_add, UInt32.add_assoc]
      split <;> rfl

/-- What is in a slot stays as it is until something goes from the slot. -/
theorem slots_changes (hs : s.Tidy) {cs : List StorageChange} {i : Nat}
    (hi : (store s).isFilled i = true) (hnone : departures store i s cs = 0) :
    (store (s.changes cs)).slots[i]? = (store s).slots[i]? := by
  induction cs generalizing s with
  | nil => rfl
  | cons c rest ih =>
      rw [departures, Nat.add_eq_zero_iff] at hnone
      have hi' : (store (s.change c)).isFilled i = true := by
        have hkept := hnone.1
        simpa [SlotStore.frees, hi] using hkept
      have hrest : (store ((s.change c).changes rest)).slots[i]? = (store (s.change c)).slots[i]? :=
        ih (hs.change c) hi' hnone.2
      exact hrest.trans ((hturns s hs c).stays i hi hi')

end Runs

/-- What becomes of a handle that resolves to `a`, in the course of further
    changes. -/
structure Lasts (store : Storage → SlotStore entity α) (s : Storage) (h : Handle entity) (a : α)
    (cs : List StorageChange) : Prop where
  now : (store s).get? h = some a
  /-- It resolves if the slot is filled, and a multiple of 2 ^ 32 entities went
      from it. -/
  resolves : (store (s.changes cs)).contains h = true
    ↔ (store (s.changes cs)).isFilled h.index = true
      ∧ 2 ^ 32 ∣ departures store h.index s cs
  /-- Before that many went, it resolves to its own entity for as long as this is
      there, and to no other. -/
  own : departures store h.index s cs < 2 ^ 32 → (store (s.changes cs)).get? h
    = if departures store h.index s cs = 0 then some a else none
  /-- Nor is it issued again. -/
  once : departures store h.index s cs < 2 ^ 32 → (store (s.changes cs)).nextHandle ≠ h

/-- A count is a multiple of 2 ^ 32 when it is zero as a generation. -/
theorem ofNat_eq_zero_iff (k : Nat) : UInt32.ofNat k = 0 ↔ 2 ^ 32 ∣ k := by
  rw [← UInt32.toNat_inj, UInt32.toNat_ofNat', Nat.dvd_iff_mod_eq_zero]
  rfl

theorem lasts_of_get? {store : Storage → SlotStore entity α}
    (hturns : ∀ s : Storage, s.Tidy → ∀ c, (store s).Turns (store (s.change c)))
    (htidy : ∀ s : Storage, s.Tidy → (store s).Tidy) (hs : s.Tidy) {h : Handle entity} {a : α}
    (ha : (store s).get? h = some a) (cs : List StorageChange) : Lasts store s h a cs := by
  have hlive : (store s).contains h = true := SlotStore.contains_iff.mpr ⟨a, ha⟩
  obtain ⟨hfilled, hgen⟩ := SlotStore.contains_iff_isFilled.mp hlive
  have hcount := generation_changes hturns hs cs h.index
  rw [hgen] at hcount
  -- The slot has the handle's generation again when the count has come round.
  have hround : (store (s.changes cs)).generation h.index = h.generation
      ↔ 2 ^ 32 ∣ departures store h.index s cs := by
    rw [hcount, ← ofNat_eq_zero_iff]
    simp
  have hresolves : (store (s.changes cs)).contains h = true
      ↔ (store (s.changes cs)).isFilled h.index = true
        ∧ 2 ^ 32 ∣ departures store h.index s cs := by
    rw [SlotStore.contains_iff_isFilled, hround]
  refine ⟨ha, hresolves, fun hfew => ?_, fun hfew hnext => ?_⟩
  · split
    · rename_i hnone
      rw [SlotStore.get?_eq_some_iff, slots_changes hturns hs hfilled hnone]
      exact ⟨hround.mpr (hnone ▸ Nat.dvd_zero _), (SlotStore.get?_eq_some_iff.mp ha).2⟩
    · rename_i hsome
      have hdead : ¬ (store (s.changes cs)).contains h = true := by
        rw [hresolves]
        rintro ⟨-, hdvd⟩
        exact hsome (Nat.eq_zero_of_dvd_of_lt hdvd hfew)
      exact Option.not_isSome_iff_eq_none.mp hdead
  · -- The slot of the next handle is free, so something went from it.
    have hnone : (store (s.changes cs)).isFilled h.index = false := by
      rw [← hnext, SlotStore.isFilled]
      exact congrArg Option.isSome
        (SlotStore.join_getElem?_nextIndex (htidy _ (hs.changes cs)))
    have hdvd := hround.mp (hnext ▸ rfl)
    have hzero := Nat.eq_zero_of_dvd_of_lt hdvd hfew
    have hstill : (store (s.changes cs)).isFilled h.index = true := by
      rw [SlotStore.isFilled, slots_changes hturns hs hfilled hzero]
      exact hfilled
    exact Bool.false_ne_true (hnone.symm.trans hstill)

/-- **STALE HANDLES**: whatever is done to an empty storage, each handle of a
    vertex or an edge resolves from then on if its slot is filled and a multiple
    of 2 ^ 32 entities went from the slot since it was issued.  As long as fewer
    went, it resolves exactly while its own entity is there, it never resolves to
    another one, and it is not issued again. -/
theorem lasts_changes (before after : List StorageChange) :
    (∀ c i, ((empty.changes before).vertices.frees ((empty.changes before).change c).vertices i
        = true ↔ (empty.changes before).TakesVertex i c)
      ∧ ((empty.changes before).edges.frees ((empty.changes before).change c).edges i
        = true ↔ (empty.changes before).TakesEdge i c))
    ∧ (∀ record, Lasts Storage.vertices ((empty.changes before).change (.addVertex record))
        (empty.changes before).vertices.nextHandle record after)
    ∧ ∀ a b record, (empty.changes before).hasVertex a = true →
      (empty.changes before).hasVertex b = true →
      Lasts Storage.edges ((empty.changes before).change (.addEdge a b record))
        (empty.changes before).edges.nextHandle ⟨a, b, record⟩ after := by
  have hs : (empty.changes before).Tidy := tidy_empty.changes before
  refine ⟨fun c i => ⟨frees_vertices_iff hs c i, frees_edges_iff hs c i⟩, fun record => ?_,
    fun a b record ha hb => ?_⟩
  · have hissued : ((empty.changes before).change (.addVertex record)).vertices.get?
        (empty.changes before).vertices.nextHandle = some record :=
      (SlotStore.get?_insert hs.vertices record _).trans (if_pos rfl)
    exact lasts_of_get? (fun _ => turns_vertices) (fun _ => Tidy.vertices) (hs.change _) hissued after
  · have hissued : ((empty.changes before).change (.addEdge a b record)).edges.get?
        (empty.changes before).edges.nextHandle = some ⟨a, b, record⟩ := by
      rw [change, ha, hb]
      exact (SlotStore.get?_insert hs.edges _ _).trans (if_pos rfl)
    exact lasts_of_get? (fun _ => turns_edges) (fun _ => Tidy.edges) (hs.change _) hissued after

/-- An edge goes with a vertex, and another one takes over its slot. -/
theorem lasts_takenOver :
    let vertex := fun id : UInt64 => StorageChange.addVertex ⟨⟨id⟩, [], []⟩
    let before := [vertex 10, vertex 11, vertex 12]
    let after := [.removeVertex ⟨1, 0⟩, .addEdge ⟨0, 0⟩ ⟨2, 0⟩ ⟨[], []⟩, vertex 13]
    let s := (empty.changes before).change (.addEdge ⟨0, 0⟩ ⟨1, 0⟩ ⟨[], []⟩)
    (empty.changes before).hasVertex ⟨0, 0⟩ = true ∧ (empty.changes before).hasVertex ⟨1, 0⟩ = true
      ∧ departures Storage.edges 0 s after = 1 ∧ (s.changes after).edges.isFilled 0 = true
      ∧ (s.changes after).hasEdge ⟨0, 0⟩ = false ∧ (s.changes after).hasEdge ⟨0, 1⟩ = true
      ∧ Lasts Storage.edges s ⟨0, 0⟩ ⟨⟨0, 0⟩, ⟨1, 0⟩, ⟨[], []⟩⟩ after := by
  intro vertex before after s
  have hfirst : (empty.changes before).hasVertex ⟨0, 0⟩ = true := by decide
  have hsecond : (empty.changes before).hasVertex ⟨1, 0⟩ = true := by decide
  exact ⟨hfirst, hsecond, by decide, by decide, by decide, by decide,
    (lasts_changes before after).2.2 ⟨0, 0⟩ ⟨1, 0⟩ ⟨[], []⟩ hfirst hsecond⟩

end Storage

end NestedGraph
