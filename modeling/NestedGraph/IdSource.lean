import NestedGraph.Identifier

/-! # Id source — the counter that ids are drawn from

    One source serves every cluster of a tree, and may serve several
    trees.  It remembers the last id it gave out, only ever goes forward,
    and starts just above the reserved ids. -/

namespace NestedGraph

/-- A source of ids; `count` is the last id given out. -/
structure IdSource where
  count : UInt64
deriving DecidableEq, Repr

namespace IdSource

/-- A source that takes `count` for the last id given out. -/
def startingAt (count : UInt64) : IdSource := ⟨max count (lastReservedId + 1)⟩

/-- A source whose first id is 11. -/
def fresh : IdSource := startingAt 0

/-- The next id. -/
def next (s : IdSource) : UInt64 := s.count + 1

/-- The source after it gave out one more id. -/
def advance (s : IdSource) : IdSource := ⟨s.next⟩

@[simp] theorem count_advance (s : IdSource) : s.advance.count = s.count + 1 := rfl

/-- The source moved forward to `count`; never moved back. -/
def raise (s : IdSource) (count : UInt64) : IdSource := ⟨max s.count count⟩

/-- The source knows the larger of the two counts afterwards. -/
@[simp] theorem toNat_count_raise (s : IdSource) (count : UInt64) :
    (s.raise count).count.toNat = max s.count.toNat count.toNat := by
  show (if s.count ≤ count then count else s.count).toNat = _
  split
  · rename_i h
    rw [Nat.max_eq_right (UInt64.le_iff_toNat_le.mp h)]
  · rename_i h
    rw [Nat.max_eq_left (Nat.le_of_lt (Nat.lt_of_not_le
      (fun hle => h (UInt64.le_iff_toNat_le.mpr hle))))]

end IdSource

end NestedGraph
