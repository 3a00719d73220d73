/-!
# Ranges of code points

A set of characters is written as a list of ranges of code points, each with both its ends, in
ascending order.
-/

namespace SlotScript.Text

/-- Whether a character lies in one of the ranges. Those that start above it need not be looked
at. -/
def inRanges : List (Nat × Nat) → Char → Bool
  | [], _ => false
  | (first, last) :: rest, c =>
    if c.toNat < first then false else if c.toNat ≤ last then true else inRanges rest c

end SlotScript.Text
