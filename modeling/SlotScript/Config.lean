/-!
# Configuration of a machine
-/

namespace SlotScript

/-- The settings of a machine. -/
structure Config where
  /-- Places reserved at the start; a hint without effect on results, as long as there can be so
  many. -/
  initialCapacity : Nat := 64
  /-- How deep expressions may nest while they are read, evaluated or written. -/
  maxDepth : Nat := 256
  /-- Whether a statement's unreachable slots are released after it. -/
  reclaimTemporaries : Bool := true
  deriving DecidableEq, Repr, Inhabited

def placeBytes : Nat := 48

/-- What comes of asking for places. -/
inductive Reservation where
  | made
  | exhausted
  | overflow
  deriving DecidableEq, Repr

/-- Reserves places. A process can address fewer than `2 ^ 47` bytes and can ask for fewer than
`2 ^ 63`. -/
def reserve (places : Nat) : Reservation :=
  if places * placeBytes < Nat.pow 2 47 then .made
  else if places * placeBytes < Nat.pow 2 63 then .exhausted
  else .overflow

end SlotScript
