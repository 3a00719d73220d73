import Mathlib
import SlotScript.Number.Binary64

/-!
# Bit patterns and rounding

Two facts about binary64 carry the reading and writing of numbers. A number is its sign and its
magnitude (`ofMagnitude_magnitude`), and a sign and a magnitude, finite or infinite, are those of
the number that they make (`magnitude_ofMagnitude`). And a quotient that is exactly the value of a
pattern is rounded to that pattern (`nearest_of_eq`), while one that is below half of the least
positive value is rounded to zero (`nearest_eq_zero`).

The exponent that `nearest` works with is found by `floorLog2`, which is the logarithm to base two
rounded down (`floorLog2_eq`).
-/

namespace SlotScript.Number

open Float.Model (Format)
open Float.Model.UnpackedFloat (isNaNBits pack_unpack unpack unpackExponent)

/-! ## The pattern of a number -/

theorem unpackExponent_ne_iff (w : UInt64) :
    @unpackExponent .binary64 w.toBitVec ≠ -1#_ ↔ w.toNat % Nat.pow 2 63 < infinityBits := by
  have hfield : (@unpackExponent .binary64 w.toBitVec).toNat = w.toNat / 2 ^ 52 % 2 ^ 11 := by
    simp [unpackExponent, BitVec.extractLsb, BitVec.extractLsb', Nat.shiftRight_eq_div_pow]
  have hmax : (-1#11).toNat = 2047 := by decide
  rw [Ne, ← BitVec.toNat_inj, hfield, hmax]
  simp only [infinityBits, Nat.pow_eq]
  omega

/-- A finite pattern is the pattern of the number that it makes. -/
theorem toBits_ofBits (w : UInt64) (h : w.toNat % Nat.pow 2 63 < infinityBits) :
    (Float.ofBits w).toBits = w := by
  have hexponent := (unpackExponent_ne_iff w).2 h
  have hnumber : @isNaNBits .binary64 w.toBitVec = false := by
    simp only [isNaNBits, hexponent, false_and, decide_false]
  have hpack := @pack_unpack .binary64 w.toBitVec (by decide)
  rw [hnumber] at hpack
  exact congrArg UInt64.ofBitVec hpack

/-! ## Sign and magnitude -/

theorem isFinite_iff {x : Float} : x.isFinite = true ↔ magnitude x < infinityBits := by
  have hfinite : x.isFinite = (unpack .binary64 x.toBits.toBitVec).isFinite := rfl
  rw [magnitude, ← unpackExponent_ne_iff, hfinite]
  unfold unpack
  dsimp only
  split
  · next he =>
    split <;> exact iff_of_false Bool.false_ne_true (not_not_intro he)
  · next he =>
    split
    · split <;> exact iff_of_true rfl he
    · exact iff_of_true rfl he

theorem infinityBits_lt : infinityBits < 2 ^ 63 := by
  decide

theorem toBits_ofMagnitude (negative : Bool) {bits : Nat} (h : bits < infinityBits) :
    (ofMagnitude negative bits).toBits.toNat = if negative then 2 ^ 63 + bits else bits := by
  have hlt := infinityBits_lt
  have hw : (UInt64.ofNat (if negative then 2 ^ 63 + bits else bits)).toNat =
      if negative then 2 ^ 63 + bits else bits := by
    rw [UInt64.toNat_ofNat']
    cases negative <;> simp only [Bool.false_eq_true, ↓reduceIte] <;> omega
  simp only [ofMagnitude, Nat.pow_eq]
  rw [toBits_ofBits, hw]
  rw [hw, Nat.pow_eq]
  cases negative <;> simp only [Bool.false_eq_true, ↓reduceIte] <;> omega

theorem magnitude_ofMagnitude (negative : Bool) {bits : Nat} (h : bits ≤ infinityBits) :
    magnitude (ofMagnitude negative bits) = bits := by
  rcases Nat.eq_or_lt_of_le h with rfl | hfinite
  · cases negative <;> decide
  · have hlt := infinityBits_lt
    rw [magnitude, toBits_ofMagnitude negative hfinite, Nat.pow_eq]
    cases negative <;> simp only [Bool.false_eq_true, ↓reduceIte] <;> omega

/-- A number is its sign and its magnitude. -/
theorem ofMagnitude_magnitude (x : Float) : ofMagnitude (isNegative x) (magnitude x) = x := by
  have hlt : x.toBits.toNat < 2 ^ 64 := x.toBits.toNat_lt
  have hbits : (if isNegative x then Nat.pow 2 63 + magnitude x else magnitude x) =
      x.toBits.toNat := by
    simp only [isNegative, magnitude, decide_eq_true_eq, Nat.pow_eq]
    split <;> omega
  rw [ofMagnitude, hbits, UInt64.ofNat_toNat, Float.ofBits_toBits]

/-! ## The logarithm to base two -/

theorem zpow_eq_div (a : ℚ) (k : Int) : a ^ k = a ^ k.toNat / a ^ (-k).toNat := by
  rcases Int.le_total 0 k with hk | hk
  · obtain ⟨n, rfl⟩ := Int.eq_ofNat_of_zero_le hk
    simp
  · obtain ⟨n, hn⟩ := Int.eq_ofNat_of_zero_le (Int.neg_nonneg.2 hk)
    obtain rfl : k = -(n : Int) := by omega
    simp

theorem two_zpow_le_iff {num den : Nat} (hd : 0 < den) (k : Int) :
    (2 : ℚ) ^ k ≤ num / den ↔ den * Nat.pow 2 k.toNat ≤ num * Nat.pow 2 (-k).toNat := by
  have hd' : (0 : ℚ) < den := by exact_mod_cast hd
  rw [zpow_eq_div, div_le_div_iff₀ (by positivity) hd']
  simp only [Nat.pow_eq]
  rw [mul_comm]
  exact_mod_cast Iff.rfl

/-- `floorLog2` is the exponent of the greatest power of two that is not above the quotient. -/
theorem floorLog2_spec {num den : Nat} (hn : 0 < num) (hd : 0 < den) :
    (2 : ℚ) ^ floorLog2 num den ≤ num / den ∧ (num / den : ℚ) < 2 ^ (floorLog2 num den + 1) := by
  have hd' : (0 : ℚ) < den := by exact_mod_cast hd
  have hn1 : (2 : ℚ) ^ num.log2 ≤ num := by exact_mod_cast Nat.log2_self_le hn.ne'
  have hn2 : (num : ℚ) < 2 ^ (num.log2 + 1) := by exact_mod_cast Nat.lt_log2_self
  have hd1 : (2 : ℚ) ^ den.log2 ≤ den := by exact_mod_cast Nat.log2_self_le hd.ne'
  have hd2 : (den : ℚ) < 2 ^ (den.log2 + 1) := by exact_mod_cast Nat.lt_log2_self
  have hsub : ∀ a b : Nat, (2 : ℚ) ^ ((a : Int) - b) = 2 ^ a / 2 ^ b := by
    intro a b
    rw [zpow_sub₀ (by norm_num), zpow_natCast, zpow_natCast]
  unfold floorLog2
  simp only
  split
  · next hle =>
    refine ⟨(two_zpow_le_iff hd _).2 hle, ?_⟩
    have hexp : (num.log2 : Int) - den.log2 + 1 = ((num.log2 + 1 : Nat) : Int) - den.log2 := by
      omega
    rw [hexp, hsub]
    exact div_lt_div₀ hn2 hd1 (by positivity) (by positivity)
  · next hlt =>
    refine ⟨?_, ?_⟩
    · have hexp : (num.log2 : Int) - den.log2 - 1 =
          (num.log2 : Int) - ((den.log2 + 1 : Nat) : Int) := by
        omega
      rw [hexp, hsub]
      exact div_le_div₀ (by positivity) hn1 hd' hd2.le
    · rw [sub_add_cancel]
      exact lt_of_not_ge fun h => hlt ((two_zpow_le_iff hd _).1 h)

theorem floorLog2_eq {num den : Nat} (hn : 0 < num) (hd : 0 < den) {j : Int}
    (h1 : (2 : ℚ) ^ j ≤ num / den) (h2 : (num / den : ℚ) < 2 ^ (j + 1)) :
    floorLog2 num den = j := by
  obtain ⟨hf1, hf2⟩ := floorLog2_spec hn hd
  have hlt1 := (zpow_lt_zpow_iff_right₀ (by norm_num : (1 : ℚ) < 2)).1 (hf1.trans_lt h2)
  have hlt2 := (zpow_lt_zpow_iff_right₀ (by norm_num : (1 : ℚ) < 2)).1 (h1.trans_lt hf2)
  omega

theorem floorLog2_lt {num den k : Nat} (hn : 0 < num) (hd : 0 < den) (h : num * 2 ^ k < den) :
    floorLog2 num den < -(k : Int) := by
  have hd' : (0 : ℚ) < den := by exact_mod_cast hd
  have hlt : (num / den : ℚ) < 2 ^ (-(k : Int)) := by
    rw [zpow_neg, zpow_natCast, div_lt_iff₀ hd', ← div_eq_inv_mul, lt_div_iff₀ (by positivity)]
    exact_mod_cast h
  exact (zpow_lt_zpow_iff_right₀ (by norm_num : (1 : ℚ) < 2)).1
    ((floorLog2_spec hn hd).1.trans_lt hlt)

/-! ## Rounding -/

theorem roundDiv_mul (m : Nat) {d : Nat} (hd : 0 < d) : roundDiv (m * d) d = m := by
  have hr : m * d % d = 0 := Nat.mul_mod_left m d
  have hq : m * d / d = m := Nat.mul_div_cancel m hd
  simp only [roundDiv, hr, hq]
  rw [if_pos (.inl (by omega))]

theorem roundDiv_eq_zero {n d : Nat} (h : 2 * n < d) : roundDiv n d = 0 := by
  have hr : n % d = n := Nat.mod_eq_of_lt (by omega)
  have hq : n / d = 0 := Nat.div_eq_of_lt (by omega)
  simp only [roundDiv, hr, hq]
  rw [if_pos (.inl h)]

theorem two_mul_pow_lt {n d k : Nat} (h : n * 2 ^ (k + 1) < d) : 2 * (n * Nat.pow 2 k) < d := by
  rwa [Nat.pow_succ', Nat.mul_left_comm] at h

theorem nearest_eq {num den : Nat} (hn : num ≠ 0) {e : Int}
    (he : max (floorLog2 num den - 52) (-1074) = e) :
    nearest num den = (e + 1074).toNat * Nat.pow 2 52 +
      roundDiv (num * Nat.pow 2 (-e).toNat) (den * Nat.pow 2 e.toNat) := by
  subst he
  rw [nearest, if_neg hn]

theorem significand_spec {bits m : Nat} {e : Int} (hs : significand bits = (m, e)) :
    -1074 ≤ e ∧ m < 2 ^ 53 ∧ (2 ^ 52 ≤ m ∨ e = -1074) ∧ (e + 1074).toNat * 2 ^ 52 + m = bits := by
  have hfraction : bits % 2 ^ 52 < 2 ^ 52 := Nat.mod_lt _ (by norm_num)
  have hdiv := Nat.div_add_mod bits (2 ^ 52)
  simp only [significand, Nat.pow_eq] at hs
  split at hs
  · next hfield =>
    obtain ⟨rfl, rfl⟩ := Prod.mk.inj hs
    rw [hfield] at hdiv
    refine ⟨by omega, by omega, .inr rfl, ?_⟩
    simpa using hdiv
  · next hfield =>
    obtain ⟨rfl, rfl⟩ := Prod.mk.inj hs
    refine ⟨by omega, by omega, .inl (by omega), ?_⟩
    omega

/-- A quotient that is exactly the value of a pattern is rounded to the pattern. -/
theorem nearest_of_eq {bits num den m : Nat} {e : Int} (hd : 0 < den)
    (hs : significand bits = (m, e)) (hm : 0 < m)
    (hv : (num / den : ℚ) = m * 2 ^ e) : nearest num den = bits := by
  obtain ⟨he, hm53, hnormal, hbits⟩ := significand_spec hs
  have hd' : (0 : ℚ) < den := by exact_mod_cast hd
  have hm' : (0 : ℚ) < m := by exact_mod_cast hm
  have hnum : 0 < num := by
    refine Nat.pos_of_ne_zero fun h0 => ?_
    have hpos : (0 : ℚ) < num / den := hv ▸ by positivity
    rw [h0, Nat.cast_zero, zero_div] at hpos
    exact lt_irrefl _ hpos
  -- The logarithm of the quotient is that of the significand, moved by the exponent.
  have hlog : floorLog2 num den = m.log2 + e := by
    have h1 : (2 : ℚ) ^ m.log2 ≤ m := by exact_mod_cast Nat.log2_self_le hm.ne'
    have h2 : (m : ℚ) < 2 ^ (m.log2 + 1) := by exact_mod_cast Nat.lt_log2_self
    refine floorLog2_eq hnum hd ?_ ?_
    · rw [hv, zpow_add₀ (by norm_num), zpow_natCast]
      gcongr
    · have hexp : (m.log2 : Int) + e + 1 = ((m.log2 + 1 : Nat) : Int) + e := by omega
      rw [hv, hexp, zpow_add₀ (by norm_num), zpow_natCast]
      gcongr
  have hlog52 : m.log2 ≤ 52 := by
    have := (Nat.log2_lt hm.ne').2 hm53
    omega
  have hmax : max (floorLog2 num den - 52) (-1074) = e := by
    rw [hlog]
    rcases hnormal with hnormal | rfl
    · have hge : 52 ≤ m.log2 := (Nat.le_log2 hm.ne').2 hnormal
      omega
    · omega
  have hexact : num * Nat.pow 2 (-e).toNat = m * (den * Nat.pow 2 e.toNat) := by
    rw [zpow_eq_div, mul_div_assoc', div_eq_div_iff hd'.ne' (by positivity)] at hv
    simp only [Nat.pow_eq]
    have hcast : ((num * 2 ^ (-e).toNat : Nat) : ℚ) = (m * (den * 2 ^ e.toNat) : Nat) := by
      push_cast
      rw [hv]
      ring
    exact_mod_cast hcast
  have hpos : 0 < den * Nat.pow 2 e.toNat := Nat.mul_pos hd (Nat.pow_pos (by norm_num))
  rw [nearest_eq hnum.ne' hmax, hexact, roundDiv_mul m hpos, Nat.pow_eq]
  exact hbits

/-- A quotient below half of the least positive value is rounded to zero. -/
theorem nearest_eq_zero {num den : Nat} (h : num * 2 ^ 1075 < den) : nearest num den = 0 := by
  by_cases hn : num = 0
  · simp [nearest, hn]
  have hlog := floorLog2_lt (Nat.pos_of_ne_zero hn) (by omega) h
  have hmax : max (floorLog2 num den - 52) (-1074) = -1074 := by omega
  have hsucc : 1075 = 1074 + 1 := rfl
  rw [hsucc] at h
  have hround := roundDiv_eq_zero (two_mul_pow_lt h)
  have hexponent : (-(-1074 : Int)).toNat = 1074 := rfl
  rw [nearest_eq hn hmax, hexponent]
  refine Nat.add_eq_zero_iff.2 ⟨rfl, ?_⟩
  rw [← Nat.mul_one den] at hround
  exact hround

end SlotScript.Number
