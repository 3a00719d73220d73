/-!
# Slots

A slot is a handle to a value of a store: a place and the generation of the place that the handle
was made for. A place moves to its next generation whenever its value is released, so a handle kept
longer than the value it was made for is recognised as stale.

Generations have 32 bits and come round. Indices have no bound here; they fit 32 bits as long as a
store holds fewer than `2 ^ 32` values at once (`Store.toNat_index_nextSlot`).
-/

namespace SlotScript

/-- A handle to a stored value. -/
structure Slot where
  index : Nat
  generation : UInt32
  deriving DecidableEq, Repr, Inhabited

namespace Slot

def text (s : Slot) : String :=
  s!"slot@{s.index}#{s.generation.toNat}"

/-- Slots are ordered by place, those of one place by generation. -/
instance : Ord Slot where
  compare a b := (compare a.index b.index).then (compare a.generation b.generation)

end Slot

end SlotScript
