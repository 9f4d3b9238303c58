import NestedGraph.Storage.SlotStore
import Mathlib.Data.Multiset.Bind

/-! # Slot stores — laws of the handles

    A store is TIDY when its free list names exactly its empty slots.  All
    operations keep it so, and on a tidy store every operation is told by
    what it does to handles: the handle of a new entity was dead, a
    removal kills one handle, and nothing else changes.  The entities
    with their handles are a set without repetitions, so its changes follow
    from those of single handles. -/

namespace NestedGraph.SlotStore

variable {entity : Entity} {α β : Type}

/-- The free list names the empty slots, each once. -/
structure Tidy (s : SlotStore entity α) : Prop where
  nodup : s.free.Nodup
  mem_free : ∀ i, i ∈ s.free ↔ s.slots[i]? = some none

/-- A handle resolves to what is in its slot, in the slot's own
    generation. -/
theorem get?_eq_some_iff {s : SlotStore entity α} {h : Handle entity} {a : α} :
    s.get? h = some a
      ↔ s.generation h.index = h.generation ∧ s.slots[h.index]? = some (some a) := by
  unfold get?
  split
  · rename_i hg
    simp [hg, Option.join_eq_some_iff]
  · rename_i hg
    simp [hg]

/-- The handle of a filled slot resolves to what is in it. -/
theorem get?_handleAt {s : SlotStore entity α} {i : Nat} :
    s.get? (s.handleAt i) = s.slots[i]?.join := if_pos rfl

/-! ## Entries -/

theorem mem_filledFrom {n i : Nat} {a : α} {slots : List (Option α)} :
    (i, a) ∈ filledFrom n slots ↔ ∃ j, i = n + j ∧ slots[j]? = some (some a) := by
  induction slots generalizing n with
  | nil => simp [filledFrom]
  | cons slot rest ih =>
      have hrest : (∃ j, i = (n + 1) + j ∧ rest[j]? = some (some a))
          ↔ ∃ j, i = n + (j + 1) ∧ (slot :: rest)[j + 1]? = some (some a) := by
        refine exists_congr (fun j => and_congr ?_ Iff.rfl)
        omega
      have hsplit : (∃ j, i = n + j ∧ (slot :: rest)[j]? = some (some a))
          ↔ (i = n ∧ slot = some a)
            ∨ ∃ j, i = n + (j + 1) ∧ (slot :: rest)[j + 1]? = some (some a) := by
        constructor
        · rintro ⟨j, hj, ha⟩
          cases j with
          | zero => exact Or.inl ⟨hj, by simpa using ha⟩
          | succ j => exact Or.inr ⟨j, hj, ha⟩
        · rintro (⟨rfl, rfl⟩ | ⟨j, hj, ha⟩)
          · exact ⟨0, rfl, rfl⟩
          · exact ⟨j + 1, hj, ha⟩
      rw [hsplit, ← hrest, ← ih]
      cases slot with
      | none => simp [filledFrom]
      | some b =>
          simp only [filledFrom, List.mem_cons, Prod.mk.injEq, Option.some.injEq]
          exact or_congr ⟨fun ⟨h, e⟩ => ⟨h, e.symm⟩, fun ⟨h, e⟩ => ⟨h, e.symm⟩⟩ Iff.rfl

/-- Slots are listed once each. -/
theorem nodup_filledFrom (n : Nat) (slots : List (Option α)) :
    ((filledFrom n slots).map Prod.fst).Nodup := by
  induction slots generalizing n with
  | nil => exact List.nodup_nil
  | cons slot rest ih =>
      cases slot with
      | none => exact ih (n + 1)
      | some b =>
          refine List.nodup_cons.mpr ⟨?_, ih (n + 1)⟩
          intro hn
          obtain ⟨⟨i, a⟩, hmem, rfl⟩ := List.mem_map.mp hn
          obtain ⟨j, hj, -⟩ := mem_filledFrom.mp hmem
          dsimp only at hj
          omega

/-- The entries are the handles that resolve, with what they resolve to. -/
theorem mem_entries {s : SlotStore entity α} {h : Handle entity} {a : α} :
    (h, a) ∈ s.entries ↔ s.get? h = some a := by
  rw [get?_eq_some_iff, entries, List.mem_map]
  constructor
  · rintro ⟨⟨i, b⟩, hmem, heq⟩
    obtain ⟨rfl, rfl⟩ := Prod.mk.inj heq
    obtain ⟨j, hj, hb⟩ := mem_filledFrom.mp hmem
    obtain rfl : i = j := by omega
    exact ⟨rfl, hb⟩
  · rintro ⟨hg, ha⟩
    refine ⟨(h.index, a), mem_filledFrom.mpr ⟨h.index, (Nat.zero_add _).symm, ha⟩, ?_⟩
    show (Handle.mk h.index (s.generation h.index), a) = (h, a)
    rw [hg]

theorem mem_handles {s : SlotStore entity α} {h : Handle entity} :
    h ∈ s.handles ↔ ∃ a, s.get? h = some a := by
  simp [handles, mem_entries]

/-- No handle is listed twice. -/
theorem nodup_handles (s : SlotStore entity α) : s.handles.Nodup := by
  have hinj : Function.Injective s.handleAt := fun i j h => congrArg Handle.index h
  have heq : s.handles = ((filledFrom 0 s.slots).map Prod.fst).map s.handleAt := by
    simp [handles, entries, Function.comp_def]
  rw [heq]
  exact (nodup_filledFrom 0 s.slots).map hinj

theorem nodup_entries (s : SlotStore entity α) : s.entries.Nodup :=
  List.Nodup.of_map Prod.fst s.nodup_handles

/-- The entries as a collection without order. -/
def table (s : SlotStore entity α) : Multiset (Handle entity × α) := s.entries

theorem mem_table {s : SlotStore entity α} {h : Handle entity} {a : α} :
    (h, a) ∈ s.table ↔ s.get? h = some a := mem_entries

theorem nodup_table (s : SlotStore entity α) : s.table.Nodup := s.nodup_entries

theorem coe_values (s : SlotStore entity α) : (s.values : Multiset α) = s.table.map Prod.snd := rfl

/-- A table is known from what its handles resolve to. -/
theorem table_eq_cons {s s' : SlotStore entity α} {h : Handle entity} {a : α}
    (hdead : s.get? h = none) (hget : ∀ k, s'.get? k = if k = h then some a else s.get? k) :
    s'.table = (h, a) ::ₘ s.table := by
  have hnot : (h, a) ∉ s.table := by
    intro hmem
    rw [mem_table, hdead] at hmem
    exact nomatch hmem
  refine (Multiset.Nodup.ext s'.nodup_table (Multiset.nodup_cons.mpr ⟨hnot, s.nodup_table⟩)).mpr ?_
  rintro ⟨k, b⟩
  rw [Multiset.mem_cons, mem_table, mem_table, hget]
  by_cases hk : k = h
  · subst hk
    simp [hdead, eq_comm]
  · simp [hk]

/-- Where each entity is changed or dropped for itself, so is the table. -/
theorem table_filterMap {s s' : SlotStore entity α} (φ : Handle entity → α → Option α)
    (hget : ∀ k, s'.get? k = (s.get? k).bind (φ k)) :
    s'.table = s.table.filterMap (fun entry => (φ entry.1 entry.2).map (fun b => (entry.1, b))) := by
  have hpair : s.entries.Pairwise (fun x y => x.1 ≠ y.1) := List.pairwise_map.mp s.nodup_handles
  have hnodup : (s.entries.filterMap (fun entry =>
      (φ entry.1 entry.2).map (fun b => (entry.1, b)))).Nodup := by
    refine List.pairwise_filterMap.mpr (hpair.imp ?_)
    rintro x y hxy b hb b' hb' rfl
    obtain ⟨c, -, rfl⟩ := Option.map_eq_some_iff.mp hb
    obtain ⟨c', -, heq⟩ := Option.map_eq_some_iff.mp hb'
    exact hxy (congrArg Prod.fst heq).symm
  refine (Multiset.Nodup.ext s'.nodup_table (Multiset.coe_nodup.mpr hnodup)).mpr ?_
  rintro ⟨k, b⟩
  rw [mem_table, hget, Option.bind_eq_some_iff, Multiset.mem_coe, List.mem_filterMap]
  constructor
  · rintro ⟨a, ha, hb⟩
    exact ⟨(k, a), mem_entries.mpr ha, by simp [hb]⟩
  · rintro ⟨⟨j, a⟩, hmem, heq⟩
    obtain ⟨c, hc, heq⟩ := Option.map_eq_some_iff.mp heq
    obtain ⟨rfl, rfl⟩ := Prod.mk.inj heq
    exact ⟨a, mem_entries.mp hmem, hc⟩

/-! ## Insertion -/

theorem getElem?_insert {s : SlotStore entity α} (hs : s.Tidy) (a : α) (i : Nat) :
    (s.insert a).slots[i]? = if i = s.nextIndex then some (some a) else s.slots[i]? := by
  cases hfree : s.free with
  | nil =>
      simp only [insert, nextIndex, hfree, List.headD_nil]
      by_cases hi : i = s.slots.length
      · simp [hi]
      · rw [if_neg hi]
        by_cases hlt : i < s.slots.length
        · exact List.getElem?_append_left hlt
        · rw [List.getElem?_eq_none (by simp; omega), List.getElem?_eq_none (by omega)]
  | cons j rest =>
      have hj : s.slots[j]? = some none := (hs.mem_free j).mp (hfree ▸ List.mem_cons_self ..)
      have hlt : j < s.slots.length := (List.getElem?_eq_some_iff.mp hj).1
      simp only [insert, nextIndex, hfree, List.headD_cons, List.getElem?_set]
      by_cases hi : i = j
      · simp [hi, hlt]
      · rw [if_neg (Ne.symm hi), if_neg hi]

@[simp] theorem generation_insert (s : SlotStore entity α) (a : α) (i : Nat) :
    (s.insert a).generation i = s.generation i := by
  unfold insert
  split <;> rfl

/-- The slot for the next entity is not filled. -/
theorem join_getElem?_nextIndex {s : SlotStore entity α} (hs : s.Tidy) :
    s.slots[s.nextIndex]?.join = none := by
  cases hfree : s.free with
  | nil => simp [nextIndex, hfree]
  | cons j rest =>
      have hj : s.slots[j]? = some none := (hs.mem_free j).mp (hfree ▸ List.mem_cons_self ..)
      simp [nextIndex, hfree, hj]

/-- The next handle is dead before its entity arrives. -/
theorem get?_nextHandle {s : SlotStore entity α} (hs : s.Tidy) : s.get? s.nextHandle = none := by
  rw [nextHandle, get?_handleAt, join_getElem?_nextIndex hs]

/-- A new entity is found under the next handle. -/
theorem get?_insert {s : SlotStore entity α} (hs : s.Tidy) (a : α) (h : Handle entity) :
    (s.insert a).get? h = if h = s.nextHandle then some a else s.get? h := by
  by_cases hh : h = s.nextHandle
  · subst hh
    rw [if_pos rfl, get?_eq_some_iff]
    refine ⟨generation_insert .., ?_⟩
    rw [getElem?_insert hs]
    exact if_pos rfl
  · rw [if_neg hh]
    unfold get?
    rw [generation_insert, getElem?_insert hs]
    by_cases hg : s.generation h.index = h.generation
    · rw [if_pos hg, if_pos hg, if_neg]
      rintro hi
      exact hh (by cases h; simp_all [nextHandle, handleAt])
    · rw [if_neg hg, if_neg hg]

theorem Tidy.insert {s : SlotStore entity α} (hs : s.Tidy) (a : α) : (s.insert a).Tidy := by
  cases hfree : s.free with
  | nil =>
      have hfree' : (s.insert a).free = [] := by simp [SlotStore.insert, hfree]
      refine ⟨by simp [hfree'], fun i => ?_⟩
      rw [hfree', getElem?_insert hs, ← hfree, hs.mem_free]
      by_cases hi : i = s.nextIndex
      · have hnone : s.slots[i]? = none := by simp [hi, nextIndex, hfree]
        simp [hi]
        simp [← hi, hnone]
      · rw [if_neg hi]
  | cons j rest =>
      have hfree' : (s.insert a).free = rest := by simp [SlotStore.insert, hfree]
      have hnext : s.nextIndex = j := by simp [nextIndex, hfree]
      have hnodup : j ∉ rest ∧ rest.Nodup := List.nodup_cons.mp (hfree ▸ hs.nodup)
      refine ⟨by rw [hfree']; exact hnodup.2, fun i => ?_⟩
      rw [hfree', getElem?_insert hs, hnext]
      by_cases hi : i = j
      · simp [hi, hnodup.1]
      · rw [if_neg hi, ← hs.mem_free, hfree, List.mem_cons]
        simp [hi]

/-- A new entity joins the table. -/
theorem table_insert {s : SlotStore entity α} (hs : s.Tidy) (a : α) :
    (s.insert a).table = (s.nextHandle, a) ::ₘ s.table :=
  table_eq_cons (get?_nextHandle hs) (get?_insert hs a)

/-! ## Change in place -/

theorem get?_modify (s : SlotStore entity α) (h k : Handle entity) (f : α → α) :
    (s.modify h f).get? k = if k = h then (s.get? h).map f else s.get? k := by
  unfold modify
  split
  · rename_i a ha
    obtain ⟨hg, hslot⟩ := get?_eq_some_iff.mp ha
    have hlt : h.index < s.slots.length := (List.getElem?_eq_some_iff.mp hslot).1
    by_cases hk : k = h
    · subst hk
      rw [if_pos rfl, ha]
      exact get?_eq_some_iff.mpr ⟨hg, by simp [hlt]⟩
    · rw [if_neg hk]
      unfold get?
      by_cases hg' : s.generation k.index = k.generation
      · rw [if_pos hg']
        refine (if_pos hg').trans ?_
        have hi : h.index ≠ k.index := by
          intro hi
          exact hk (by cases h; cases k; simp_all)
        show (s.slots.set h.index _)[k.index]?.join = _
        rw [List.getElem?_set_ne hi]
      · rw [if_neg hg']
        exact if_neg hg'
  · rename_i hnone
    by_cases hk : k = h
    · subst hk
      rw [if_pos rfl, hnone]
      rfl
    · rw [if_neg hk]

/-- What is removed does not have to be changed before. -/
theorem erase_modify (s : SlotStore entity α) (h : Handle entity) (f : α → α) :
    (s.modify h f).erase h = s.erase h := by
  cases hs : s.get? h with
  | none =>
      have hsame : s.modify h f = s := by rw [modify, hs]
      rw [hsame]
  | some a =>
      have hmodify : s.modify h f = { s with slots := s.slots.set h.index (some (f a)) } := by
        rw [modify, hs]
      have hget : (s.modify h f).get? h = some (f a) := by
        rw [get?_modify, if_pos rfl, hs]
        rfl
      rw [erase, erase, hget, hs, hmodify]
      dsimp only
      rw [List.set_set]

theorem Tidy.modify {s : SlotStore entity α} (hs : s.Tidy) (h : Handle entity) (f : α → α) :
    (s.modify h f).Tidy := by
  unfold SlotStore.modify
  split
  · rename_i a ha
    obtain ⟨-, hslot⟩ := get?_eq_some_iff.mp ha
    have hlt : h.index < s.slots.length := (List.getElem?_eq_some_iff.mp hslot).1
    refine ⟨hs.nodup, fun i => ?_⟩
    show i ∈ s.free ↔ (s.slots.set h.index _)[i]? = some none
    rw [hs.mem_free, List.getElem?_set]
    by_cases hi : h.index = i
    · rw [if_pos hi, ← hi, hslot]
      simp [hlt]
    · rw [if_neg hi]
  · exact hs

/-! ## Removal -/

/-- A removal kills the handle, and no other handle changes. -/
theorem get?_erase (s : SlotStore entity α) (h k : Handle entity) :
    (s.erase h).get? k = if k = h then none else s.get? k := by
  by_cases hk : k = h
  · rw [if_pos hk, hk, get?_erase_self]
  · rw [if_neg hk]
    unfold erase
    split
    · rename_i a ha
      obtain ⟨hg, hslot⟩ := get?_eq_some_iff.mp ha
      unfold get?
      by_cases hi : k.index = h.index
      · -- The slot is another generation of the removed entity's, and empty now.
        have hne : s.generation k.index ≠ k.generation := by
          intro hgk
          exact hk (by cases h; cases k; simp_all)
        rw [if_neg hne]
        simp [hi, (List.getElem?_eq_some_iff.mp hslot).1]
      · have hgen : (incrementAt s.generations h.index).getD k.index 0 = s.generation k.index := by
          rw [getD_incrementAt, if_neg hi]
          rfl
        show (if (incrementAt s.generations h.index).getD k.index 0 = k.generation
          then (s.slots.set h.index none)[k.index]?.join else none) = _
        rw [hgen, List.getElem?_set_ne (Ne.symm hi)]
    · rfl

theorem Tidy.erase {s : SlotStore entity α} (hs : s.Tidy) (h : Handle entity) :
    (s.erase h).Tidy := by
  unfold SlotStore.erase
  split
  · rename_i a ha
    obtain ⟨-, hslot⟩ := get?_eq_some_iff.mp ha
    have hlt : h.index < s.slots.length := (List.getElem?_eq_some_iff.mp hslot).1
    refine ⟨List.nodup_cons.mpr ⟨?_, hs.nodup⟩, fun i => ?_⟩
    · rw [hs.mem_free, hslot]
      simp
    · show i ∈ h.index :: s.free ↔ (s.slots.set h.index none)[i]? = some none
      rw [List.mem_cons, hs.mem_free, List.getElem?_set]
      by_cases hi : h.index = i
      · subst hi
        simp [hlt]
      · rw [if_neg hi]
        simp [Ne.symm hi]
  · exact hs

/-- A removed entity leaves the table. -/
theorem table_erase {s : SlotStore entity α} {h : Handle entity} {a : α} (ha : s.get? h = some a) :
    s.table = (h, a) ::ₘ (s.erase h).table := by
  refine table_eq_cons (get?_erase_self s h) (fun k => ?_)
  rw [get?_erase]
  by_cases hk : k = h
  · rw [if_pos hk, hk, ha]
  · rw [if_neg hk, if_neg hk]

/-- A change of one entity leaves the others in the table. -/
theorem table_modify {s : SlotStore entity α} {h : Handle entity} {a : α} (f : α → α)
    (ha : s.get? h = some a) : (s.modify h f).table = (h, f a) ::ₘ (s.erase h).table := by
  refine table_eq_cons (get?_erase_self s h) (fun k => ?_)
  rw [get?_modify, get?_erase]
  by_cases hk : k = h
  · rw [if_pos hk, if_pos hk, ha]
    rfl
  · rw [if_neg hk, if_neg hk, if_neg hk]

/-- Only what a change makes of the entity itself counts. -/
theorem modify_congr {s : SlotStore entity α} {h : Handle entity} {a : α} {f g : α → α}
    (ha : s.get? h = some a) (hfg : f a = g a) : s.modify h f = s.modify h g := by
  rw [modify, modify, ha]
  dsimp only
  rw [hfg]

/-- A change of nothing that is there is no change. -/
theorem modify_of_dead {s : SlotStore entity α} {h : Handle entity} (f : α → α)
    (hdead : s.get? h = none) : s.modify h f = s := by
  unfold modify
  rw [hdead]

theorem erase_of_dead {s : SlotStore entity α} {h : Handle entity} (hdead : s.get? h = none) :
    s.erase h = s := by
  unfold erase
  rw [hdead]

/-! ## Empty stores -/

theorem tidy_empty : (empty : SlotStore entity α).Tidy := ⟨List.nodup_nil, fun i => by simp [empty]⟩

theorem Tidy.clear (s : SlotStore entity α) : s.clear.Tidy :=
  ⟨List.nodup_nil, fun i => by simp [SlotStore.clear]⟩

@[simp] theorem get?_clear (s : SlotStore entity α) (h : Handle entity) : s.clear.get? h = none := by
  unfold get?
  split <;> rfl

@[simp] theorem get?_empty (h : Handle entity) : (empty : SlotStore entity α).get? h = none := by
  unfold get?
  split <;> rfl

/-- A store in which no handle resolves has an empty table. -/
theorem table_eq_zero {s : SlotStore entity α} (h : ∀ k, s.get? k = none) : s.table = 0 := by
  refine Multiset.eq_zero_of_forall_notMem ?_
  rintro ⟨k, a⟩ hmem
  rw [mem_table, h] at hmem
  exact nomatch hmem

/-! ## Resolving -/

theorem contains_iff {s : SlotStore entity α} {h : Handle entity} :
    s.contains h = true ↔ ∃ a, s.get? h = some a := Option.isSome_iff_exists

end NestedGraph.SlotStore
