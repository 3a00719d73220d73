import SlotScript.Number.Binary64

/-!
# The shortest decimal of a number

`shortest` gives the decimal `digits · 10 ^ exponent` of a positive finite magnitude that lies on
the coarsest power of ten of all decimals that read back as the magnitude, so it has the fewest
digits. Of two on that power of ten it takes the nearer one, and the larger one when both are
equally near.
-/

namespace SlotScript.Number

/-- A decimal number `digits · 10 ^ exponent`. -/
structure Decimal where
  digits : Nat
  exponent : Int
  deriving DecidableEq, Repr

/-- The decimal on the power of ten `g` that reads back as `bits`, if one of the two neighbours of
the value there does. -/
def candidate? (bits : Nat) (g : Int) : Option Decimal :=
  let (num, den) := ratio bits
  let n := num * Nat.pow 10 (-g).toNat
  let d := den * Nat.pow 10 g.toNat
  let below := n / d
  let nearerBelow : Bool := 2 * (n % d) < d
  let hit (k : Nat) : Bool := nearestDecimal k g = bits
  match hit below, hit (below + 1) with
  | true, true => some ⟨if nearerBelow then below else below + 1, g⟩
  | true, false => some ⟨below, g⟩
  | false, true => some ⟨below + 1, g⟩
  | false, false => none

def exactDecimal (bits : Nat) : Decimal :=
  let (m, e) := significand bits
  if 0 ≤ e then ⟨m * Nat.pow 2 e.toNat, 0⟩ else ⟨m * Nat.pow 5 (-e).toNat, e⟩

/-- Searches powers of ten downwards from `g`; after `tries` of them the exact value is given. -/
def search (bits : Nat) : Nat → Int → Decimal
  | 0, _ => exactDecimal bits
  | tries + 1, g =>
    match candidate? bits g with
    | some d => d
    | none => search bits tries (g - 1)

/-- A power of ten above the value of a magnitude, from its exponent of two. -/
def topExponent (bits : Nat) : Int :=
  let (num, den) := ratio bits
  (floorLog2 num den + 1) * 30103 / 100000 + 1

/-- The decimal with the fewest digits that reads back as a positive finite magnitude. Seventeen
digits always read back, and the search starts at most two powers of ten above the first digit. -/
def shortest (bits : Nat) : Decimal :=
  search bits 20 (topExponent bits)

end SlotScript.Number
