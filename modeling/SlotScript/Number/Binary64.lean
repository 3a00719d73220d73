/-!
# Rounding to binary64

The magnitudes of the binary64 format, as natural numbers: a finite magnitude is a bit pattern below
`infinityBits`, and larger magnitudes have larger patterns. `ratio` gives the exact value of a
pattern as a quotient and `nearest` the pattern nearest to a quotient, a tie going to the even one.
All of it is exact arithmetic on naturals.
-/

namespace SlotScript.Number

/-- The pattern of infinity: the least one that is no finite magnitude. -/
def infinityBits : Nat := 2047 * Nat.pow 2 52

/-- The quotient `n / d` rounded to the nearest natural, a tie going to the even one. -/
def roundDiv (n d : Nat) : Nat :=
  let q := n / d
  let r := n % d
  if 2 * r < d ∨ (2 * r = d ∧ q % 2 = 0) then q else q + 1

/-- The exponent of the greatest power of two that is at most `num / den`, both positive. -/
def floorLog2 (num den : Nat) : Int :=
  let k : Int := (num.log2 : Int) - den.log2
  if den * Nat.pow 2 k.toNat ≤ num * Nat.pow 2 (-k).toNat then k else k - 1

/-- The bit pattern of the magnitude nearest to `num / den`. A pattern from `infinityBits` on says
that the quotient is too large for the format. -/
def nearest (num den : Nat) : Nat :=
  if num = 0 then 0
  else
    let e : Int := max (floorLog2 num den - 52) (-1074)
    (e + 1074).toNat * Nat.pow 2 52 +
      roundDiv (num * Nat.pow 2 (-e).toNat) (den * Nat.pow 2 e.toNat)

/-- The significand and the exponent of two of a finite magnitude. -/
def significand (bits : Nat) : Nat × Int :=
  let field : Nat := bits / Nat.pow 2 52
  let fraction : Nat := bits % Nat.pow 2 52
  if field = 0 then (fraction, -1074) else (fraction + Nat.pow 2 52, (field : Int) - 1075)

/-- The exact value of a finite magnitude as a quotient. -/
def ratio (bits : Nat) : Nat × Nat :=
  let (m, e) := significand bits
  (m * Nat.pow 2 e.toNat, Nat.pow 2 (-e).toNat)

/-- The bit pattern of the magnitude nearest to `digits · 10 ^ exponent`. -/
def nearestDecimal (digits : Nat) (exponent : Int) : Nat :=
  nearest (digits * Nat.pow 10 exponent.toNat) (Nat.pow 10 (-exponent).toNat)

def magnitude (x : Float) : Nat :=
  x.toBits.toNat % Nat.pow 2 63

def isNegative (x : Float) : Bool :=
  Nat.pow 2 63 ≤ x.toBits.toNat

def ofMagnitude (negative : Bool) (bits : Nat) : Float :=
  .ofBits (.ofNat (if negative then Nat.pow 2 63 + bits else bits))

end SlotScript.Number
