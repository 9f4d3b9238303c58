import NestedGraph.Identifier

/-! # Slot stores — entities in slots that are used again

    An entity stays in its slot until it is removed.  A freed slot is
    taken by the next entity, the most recently freed one first, and a
    slot's generation counts how often it was freed, so a handle resolves
    only while the entity it was issued for is there.

    Slots are given out by petgraph, whose stable graph is not part of
    this library.  What is assumed of it: the slot freed last is taken
    first, a new slot is added only when none is free, a graph that was
    cleared starts again from the first slot, and entities are listed by
    slot. -/

namespace NestedGraph

/-- Adds one at a place of a list of counters, which reads as zero past
    its end. -/
def incrementAt : List UInt32 → Nat → List UInt32
  | [], 0 => [1]
  | [], i + 1 => 0 :: incrementAt [] i
  | g :: rest, 0 => (g + 1) :: rest
  | g :: rest, i + 1 => g :: incrementAt rest i

/-- One counter goes up by one, and all others stay. -/
theorem getD_incrementAt (counters : List UInt32) (i j : Nat) :
    (incrementAt counters i).getD j 0
      = if j = i then counters.getD i 0 + 1 else counters.getD j 0 := by
  induction counters generalizing i j with
  | nil =>
      induction i generalizing j with
      | zero => cases j <;> simp [incrementAt]
      | succ i ih =>
          cases j with
          | zero => simp [incrementAt]
          | succ j => simpa [incrementAt] using ih j
  | cons g rest ih =>
      cases i with
      | zero => cases j <;> simp [incrementAt]
      | succ i =>
          cases j with
          | zero => simp [incrementAt]
          | succ j => simpa [incrementAt] using ih i j

/-- Entities of one kind in numbered slots. -/
structure SlotStore (entity : Entity) (α : Type) where
  /-- The slots, with what they hold. -/
  slots : List (Option α)
  /-- The free slots, the most recently freed one first. -/
  free : List Nat
  /-- How often each slot was freed. -/
  generations : List UInt32

namespace SlotStore

variable {entity : Entity} {α : Type}

/-- A store without slots. -/
def empty : SlotStore entity α := ⟨[], [], []⟩

/-- How often a slot was freed. -/
def generation (s : SlotStore entity α) (index : Nat) : UInt32 := s.generations.getD index 0

/-- The handle that resolves to a slot now. -/
def handleAt (s : SlotStore entity α) (index : Nat) : Handle entity :=
  ⟨index, s.generation index⟩

/-- What a handle resolves to. -/
def get? (s : SlotStore entity α) (h : Handle entity) : Option α :=
  if s.generation h.index = h.generation then s.slots[h.index]?.join else none

/-- The handle resolves. -/
def contains (s : SlotStore entity α) (h : Handle entity) : Bool := (s.get? h).isSome

/-- The filled slots from `index` on, with their numbers. -/
def filledFrom (index : Nat) : List (Option α) → List (Nat × α)
  | [] => []
  | some a :: rest => (index, a) :: filledFrom (index + 1) rest
  | none :: rest => filledFrom (index + 1) rest

/-- The entities with their handles, by slot. -/
def entries (s : SlotStore entity α) : List (Handle entity × α) :=
  (filledFrom 0 s.slots).map (fun entry => (s.handleAt entry.1, entry.2))

/-- The handles of all entities, by slot. -/
def handles (s : SlotStore entity α) : List (Handle entity) := s.entries.map Prod.fst

/-- The entities, by slot. -/
def values (s : SlotStore entity α) : List α := s.entries.map Prod.snd

/-- How many entities there are. -/
def count (s : SlotStore entity α) : Nat := s.entries.length

/-! ## Changes -/

/-- The slot that the next entity takes. -/
def nextIndex (s : SlotStore entity α) : Nat := s.free.headD s.slots.length

/-- The handle that the next entity gets. -/
def nextHandle (s : SlotStore entity α) : Handle entity := s.handleAt s.nextIndex

/-- Puts an entity into the most recently freed slot, or into a new slot
    when none is free. -/
def insert (s : SlotStore entity α) (a : α) : SlotStore entity α :=
  match s.free with
  | i :: rest => { s with slots := s.slots.set i (some a), free := rest }
  | [] => { s with slots := s.slots ++ [some a] }

/-- Changes the entity that a handle resolves to. -/
def modify (s : SlotStore entity α) (h : Handle entity) (f : α → α) : SlotStore entity α :=
  match s.get? h with
  | some a => { s with slots := s.slots.set h.index (some (f a)) }
  | none => s

/-- Removes the entity that a handle resolves to, and frees its slot. -/
def erase (s : SlotStore entity α) (h : Handle entity) : SlotStore entity α :=
  match s.get? h with
  | some _ =>
      { slots := s.slots.set h.index none
        free := h.index :: s.free
        generations := incrementAt s.generations h.index }
  | none => s

/-- A handle does not resolve once its entity was removed. -/
@[simp] theorem get?_erase_self (s : SlotStore entity α) (h : Handle entity) :
    (s.erase h).get? h = none := by
  cases hs : s.get? h with
  | none => simp only [erase, hs]
  | some a =>
      have hg : s.generation h.index = h.generation := by
        by_cases hg : s.generation h.index = h.generation
        · exact hg
        · simp [get?, hg] at hs
      -- The slot's generation went up by one, so the handle's is no longer its own.
      have hne : s.generations.getD h.index 0 + 1 ≠ h.generation := by
        rw [← hg]
        simp [generation]
      show (match s.get? h with | some _ => _ | none => s : SlotStore entity α).get? h = none
      rw [hs]
      show (if (incrementAt s.generations h.index).getD h.index 0 = h.generation then _ else none)
        = none
      rw [getD_incrementAt, if_pos rfl, if_neg hne]

/-- Removes everything.  Slots are handed out from the first again, and no
    handle issued so far resolves. -/
def clear (s : SlotStore entity α) : SlotStore entity α where
  slots := []
  free := []
  generations := (filledFrom 0 s.slots).foldl (fun g entry => incrementAt g entry.1) s.generations

end SlotStore

end NestedGraph
