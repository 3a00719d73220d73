import SlotScript.Proofs.Number.RoundTrip

/-!
# Rounding to the nearest magnitude

`nearest` gives the magnitude that is nearest to a quotient, and of two that are equally near the
even one (`roundsTo_nearest`). For this the magnitudes are put in the order of their values: a
pattern and the next one differ by a power of two (`valueOf_succ`), and a quotient lies between two
such neighbours (`nearest_neighbours`). The pattern of infinity counts as the value `2 ^ 1024` to
which the greatest finite magnitude is the neighbour below, so a number is rounded to a finite
magnitude exactly when it is less than the middle of the two (`RoundsTo.lt_infinityBits_iff`).

A literal is given the magnitude nearest to the number that it denotes, however many digits it has
(`Literal.roundsTo_nearestBits`).
-/

namespace SlotScript.Number

variable {bits b num den : Nat} {q : ℚ}

/-! ## The values of magnitudes -/

/-- The exact value of a magnitude; infinity counts as the value after the greatest finite one. -/
def valueOf (bits : Nat) : ℚ :=
  (significand bits).1 * 2 ^ (significand bits).2

theorem valueOf_eq {m : Nat} {e : Int} (hs : significand bits = (m, e)) :
    valueOf bits = m * 2 ^ e := by
  rw [valueOf, hs]

theorem significand_of_lt (h : bits < 2 ^ 52) : significand bits = (bits, -1074) := by
  have hfield : bits / 2 ^ 52 = 0 := Nat.div_eq_of_lt h
  have hfraction : bits % 2 ^ 52 = bits := Nat.mod_eq_of_lt h
  simp only [significand, Nat.pow_eq, hfield, hfraction, ↓reduceIte]

theorem significand_add {field n : Nat} (h : n < 2 ^ 52) :
    significand ((field + 1) * 2 ^ 52 + n) = (2 ^ 52 + n, (field : Int) - 1074) := by
  have hfield : ((field + 1) * 2 ^ 52 + n) / 2 ^ 52 = field + 1 := by omega
  have hfraction : ((field + 1) * 2 ^ 52 + n) % 2 ^ 52 = n := by omega
  simp only [significand, Nat.pow_eq, hfield, hfraction, Nat.add_one_ne_zero, ↓reduceIte]
  rw [Nat.add_comm n, Nat.cast_add_one]
  congr 1
  omega

/-- A multiple of a power of two has the pattern that its significand is added to, also when that
carries into the exponent. -/
theorem valueOf_add {k n : Nat} (hn : n ≤ 2 ^ 53) (hk : 2 ^ 52 ≤ n ∨ k = 0) :
    valueOf (k * 2 ^ 52 + n) = n * 2 ^ ((k : Int) - 1074) := by
  by_cases hsmall : n < 2 ^ 52
  · obtain rfl : k = 0 := hk.resolve_left (Nat.not_le_of_lt hsmall)
    rw [Nat.zero_mul, Nat.zero_add, valueOf_eq (significand_of_lt hsmall)]
    rfl
  by_cases hcarry : n < 2 ^ 53
  · obtain ⟨f, rfl⟩ := Nat.exists_eq_add_of_le (Nat.le_of_not_lt hsmall)
    have hpattern : k * 2 ^ 52 + (2 ^ 52 + f) = (k + 1) * 2 ^ 52 + f := by omega
    rw [hpattern, valueOf_eq (significand_add (by omega))]
  · obtain rfl : n = 2 ^ 53 := by omega
    have hpattern : k * 2 ^ 52 + 2 ^ 53 = (k + 1 + 1) * 2 ^ 52 + 0 := by omega
    have hexponent : ((k + 1 : Nat) : Int) - 1074 = ((k : Int) - 1074) + 1 := by omega
    rw [hpattern, valueOf_eq (significand_add (by norm_num)), hexponent,
      zpow_add_one₀ (by norm_num)]
    push_cast
    ring

theorem valueOf_zero : valueOf 0 = 0 := by
  rw [valueOf_eq (significand_of_lt (by norm_num)), Nat.cast_zero, zero_mul]

/-- The next magnitude is larger by the unit of the last place. -/
theorem valueOf_succ {m : Nat} {e : Int} (hs : significand bits = (m, e)) :
    valueOf (bits + 1) = valueOf bits + 2 ^ e := by
  obtain ⟨he, hm, hnormal, hbits⟩ := significand_spec hs
  have hplace : ((e + 1074).toNat : Int) - 1074 = e := by omega
  have hnext := @valueOf_add (e + 1074).toNat (m + 1) (by omega) (by omega)
  rw [← Nat.add_assoc, hbits, hplace, Nat.cast_add_one] at hnext
  rw [hnext, valueOf_eq hs, add_mul, one_mul]

theorem valueOf_strictMono : StrictMono valueOf := by
  refine strictMono_nat_of_lt_succ fun bits => ?_
  rw [valueOf_succ rfl]
  exact lt_add_of_pos_right _ (by positivity)

theorem valueOf_infinityBits : valueOf infinityBits = 2 ^ 1024 := by
  have hpattern : infinityBits = 2045 * 2 ^ 52 + 2 ^ 53 := by
    simp only [infinityBits, Nat.pow_eq]
    norm_num
  rw [hpattern, valueOf_add (Nat.le_refl _) (.inl (by norm_num)), Nat.cast_pow, Nat.cast_ofNat,
    ← zpow_natCast, ← zpow_add₀ (by norm_num), ← zpow_natCast]
  norm_num

/-- The greatest finite magnitude is below infinity by the unit of its last place. -/
theorem valueOf_pred_infinityBits : valueOf (infinityBits - 1) = 2 ^ 1024 - 2 ^ 971 := by
  have hpattern : infinityBits - 1 = 2045 * 2 ^ 52 + (2 ^ 53 - 1) := by
    simp only [infinityBits, Nat.pow_eq]
    norm_num
  have hexponent : ((2045 : Nat) : Int) - 1074 = (971 : Nat) := rfl
  have hpow : (2 : ℚ) ^ 1024 = 2 ^ 53 * 2 ^ 971 := by rw [← pow_add]
  have hcast : ((2 ^ 53 - 1 : Nat) : ℚ) = 2 ^ 53 - 1 := by norm_num
  rw [hpattern, valueOf_add (Nat.sub_le _ _) (.inl (by norm_num)), hexponent, zpow_natCast, hcast,
    hpow, sub_mul, one_mul]

/-! ## The nearest magnitude -/

/-- The magnitude that a number is rounded to: no other one, infinity included, is closer to the
number, and when another one is as close then this one is even. -/
structure RoundsTo (q : ℚ) (bits : Nat) : Prop where
  le : bits ≤ infinityBits
  closest : ∀ b ≤ infinityBits, |q - valueOf bits| ≤ |q - valueOf b|
  even : ∀ b ≤ infinityBits, b ≠ bits → |q - valueOf b| = |q - valueOf bits| → bits % 2 = 0

namespace RoundsTo

/-- It is enough to know of the other magnitudes that they are further away, or at least as far as a
distance `d` that is larger, or as large when the pattern is even. -/
theorem of_others {d : ℚ} (hb : bits ≤ infinityBits)
    (hd : |q - valueOf bits| < d ∨ |q - valueOf bits| = d ∧ bits % 2 = 0)
    (hother : ∀ b ≤ infinityBits, b ≠ bits →
      |q - valueOf bits| < |q - valueOf b| ∨ d ≤ |q - valueOf b|) : RoundsTo q bits := by
  have hle : |q - valueOf bits| ≤ d := hd.elim le_of_lt fun h => h.1.le
  refine ⟨hb, fun b hb => ?_, fun b hb hne heq => ?_⟩
  · by_cases hne : b = bits
    · rw [hne]
    · exact (hother b hb hne).elim le_of_lt hle.trans
  · rcases hother b hb hne with hlt | hge
    · exact absurd heq hlt.ne'
    · exact hd.elim (fun hlt => absurd heq (hlt.trans_le hge).ne') And.right

/-- A number that is not above the middle of two neighbours is rounded down. -/
theorem below (hb : bits ≤ infinityBits) (hle : valueOf bits ≤ q)
    (hmiddle : 2 * q < valueOf bits + valueOf (bits + 1) ∨
      2 * q = valueOf bits + valueOf (bits + 1) ∧ bits % 2 = 0) : RoundsTo q bits := by
  have hdist : |q - valueOf bits| = q - valueOf bits := abs_of_nonneg (sub_nonneg.2 hle)
  apply of_others (d := valueOf (bits + 1) - q) hb
  · rw [hdist]
    refine hmiddle.imp (fun h => ?_) fun ⟨h, heven⟩ => ⟨?_, heven⟩ <;> linarith
  · intro b _ hne
    rcases Nat.lt_or_gt_of_ne hne with hlt | hgt
    · have hfar := sub_lt_sub_left (valueOf_strictMono hlt) q
      rw [hdist]
      exact .inl (hfar.trans_le (le_abs_self _))
    · have hfar := sub_le_sub_right (valueOf_strictMono.monotone hgt) q
      rw [abs_sub_comm q (valueOf b)]
      exact .inr (hfar.trans (le_abs_self _))

/-- A number that is not below the middle of two neighbours is rounded up. -/
theorem above (hb : bits + 1 ≤ infinityBits) (hle : q ≤ valueOf (bits + 1))
    (hmiddle : valueOf bits + valueOf (bits + 1) < 2 * q ∨
      2 * q = valueOf bits + valueOf (bits + 1) ∧ (bits + 1) % 2 = 0) : RoundsTo q (bits + 1) := by
  have hdist : |q - valueOf (bits + 1)| = valueOf (bits + 1) - q := by
    rw [abs_sub_comm]
    exact abs_of_nonneg (sub_nonneg.2 hle)
  apply of_others (d := q - valueOf bits) hb
  · rw [hdist]
    refine hmiddle.imp (fun h => ?_) fun ⟨h, heven⟩ => ⟨?_, heven⟩ <;> linarith
  · intro b _ hne
    rcases Nat.lt_or_gt_of_ne hne with hlt | hgt
    · have hfar := sub_le_sub_left (valueOf_strictMono.monotone (Nat.le_of_lt_succ hlt)) q
      exact .inr (hfar.trans (le_abs_self _))
    · have hfar := sub_lt_sub_right (valueOf_strictMono hgt) q
      rw [hdist, abs_sub_comm q (valueOf b)]
      exact .inl (hfar.trans_le (le_abs_self _))

/-- A number that is at least the value of infinity is rounded to infinity. -/
theorem infinity (h : valueOf infinityBits ≤ q) : RoundsTo q infinityBits := by
  apply of_others (Nat.le_refl _) (.inl (lt_add_one _))
  intro b hb hne
  have hfar := sub_lt_sub_left (valueOf_strictMono (Nat.lt_of_le_of_ne hb hne)) q
  rw [← abs_of_nonneg (sub_nonneg.2 h)] at hfar
  exact .inl (hfar.trans_le (le_abs_self _))

/-- A number is rounded to a finite magnitude exactly when it is below the middle of the greatest
one and infinity: infinity is the even one of the two. -/
theorem lt_infinityBits_iff (h : RoundsTo q bits) :
    bits < infinityBits ↔ q < 2 ^ 1024 - 2 ^ 970 := by
  have hgreatest := valueOf_pred_infinityBits
  have hinfinity := valueOf_infinityBits
  have hhalf : (0 : ℚ) < 2 ^ 970 := by positivity
  rw [pow_succ' 2 970] at hgreatest
  generalize (2 : ℚ) ^ 1024 = top at *
  generalize (2 : ℚ) ^ 970 = half at *
  constructor
  · intro hlt
    have hpred : bits ≤ infinityBits - 1 := Nat.le_sub_one_of_lt hlt
    have hvalue : valueOf bits ≤ top - 2 * half := hgreatest ▸ valueOf_strictMono.monotone hpred
    by_contra! hge
    have hdist : |q - valueOf bits| = q - valueOf bits := abs_of_nonneg (by linarith)
    have hclosest := h.closest infinityBits (Nat.le_refl _)
    rw [hdist, hinfinity, le_abs] at hclosest
    rcases hclosest with hclosest | hclosest
    · linarith
    -- Only the middle is left, and there the greatest magnitude is the odd one.
    obtain rfl : q = top - half := by linarith
    obtain rfl : bits = infinityBits - 1 := by
      apply valueOf_strictMono.injective
      linarith
    have heven := h.even infinityBits (Nat.le_refl _) hlt.ne' (by
      rw [hdist, hinfinity, hgreatest, abs_sub_comm, abs_of_nonneg (by linarith)]
      ring)
    exact absurd heven (by decide)
  · intro hq
    refine Nat.lt_of_le_of_ne h.le fun heq => ?_
    have hclosest := h.closest (infinityBits - 1) (Nat.sub_le _ _)
    rw [heq, hinfinity, hgreatest, abs_sub_comm, abs_of_nonneg (by linarith), le_abs] at hclosest
    rcases hclosest with hclosest | hclosest <;> linarith

end RoundsTo

/-! ## Rounding quotients -/

/-- A quotient is rounded to a natural that is not above it by more than a half, or to the one after
it. -/
theorem roundDiv_cases (n d : Nat) :
    (roundDiv n d = n / d ∧ (2 * n < (2 * (n / d) + 1) * d ∨
        2 * n = (2 * (n / d) + 1) * d ∧ n / d % 2 = 0)) ∨
      (roundDiv n d = n / d + 1 ∧ ((2 * (n / d) + 1) * d < 2 * n ∨
        2 * n = (2 * (n / d) + 1) * d ∧ (n / d + 1) % 2 = 0)) := by
  have hdiv := Nat.div_add_mod n d
  have hexpand : (2 * (n / d) + 1) * d = 2 * (d * (n / d)) + d := by ring
  simp only [roundDiv]
  rw [hexpand]
  split
  · next h => exact .inl ⟨rfl, by omega⟩
  · next h => exact .inr ⟨rfl, by omega⟩

/-- Times one number, a quotient and a power of two are the naturals that `nearest` divides. -/
theorem exists_scale (num : Nat) (hd : 0 < den) (e : Int) :
    ∃ scale : ℚ, 0 < scale ∧ num / den * scale = (num * 2 ^ (-e).toNat : Nat) ∧
      2 ^ e * scale = (den * 2 ^ e.toNat : Nat) := by
  have hd' : (0 : ℚ) < den := by exact_mod_cast hd
  refine ⟨den * 2 ^ (-e).toNat, by positivity, ?_, ?_⟩
  · push_cast
    field_simp
  · rw [zpow_eq_div]
    push_cast
    field_simp

/-- The exponent that `nearest` works with leaves a significand of the format's width. -/
theorem significand_bounds {n d : Nat} {e : Int} {scale : ℚ} (hn : 0 < num) (hden : 0 < den)
    (he : max (floorLog2 num den - 52) (-1074) = e) (hscale : 0 < scale)
    (hquotient : num / den * scale = n) (hunit : 2 ^ e * scale = d) (hd : 0 < d) :
    n / d < 2 ^ 53 ∧ (2 ^ 52 ≤ n / d ∨ e = -1074) := by
  obtain ⟨hlow, hhigh⟩ := floorLog2_spec hn hden
  have hle : floorLog2 num den + 1 ≤ 53 + e := by omega
  have hnormal : floorLog2 num den = 52 + e ∨ e = -1074 := by omega
  have hpow : ∀ k : Nat, (2 : ℚ) ^ ((k : Int) + e) * scale = 2 ^ k * d := by
    intro k
    rw [zpow_add₀ (by norm_num), mul_assoc, hunit, zpow_natCast]
  refine ⟨(Nat.div_lt_iff_lt_mul hd).2 ?_, hnormal.imp_left fun hlog =>
    (Nat.le_div_iff_mul_le hd).2 ?_⟩
  · have hscaled : (n : ℚ) < 2 ^ 53 * d := by
      calc (n : ℚ) = num / den * scale := hquotient.symm
        _ < 2 ^ (floorLog2 num den + 1) * scale := by gcongr
        _ ≤ 2 ^ (((53 : Nat) : Int) + e) * scale :=
          mul_le_mul_of_nonneg_right (zpow_le_zpow_right₀ (by norm_num) hle) hscale.le
        _ = 2 ^ 53 * d := hpow 53
    exact_mod_cast hscaled
  · have hscaled : 2 ^ 52 * (d : ℚ) ≤ n := by
      calc 2 ^ 52 * (d : ℚ) = 2 ^ floorLog2 num den * scale := by rw [hlog, ← hpow 52]; rfl
        _ ≤ num / den * scale := by gcongr
        _ = n := hquotient
    exact_mod_cast hscaled

/-- A quotient lies between two neighbours, and it is rounded to one of them: to the lower one if it
is below their middle, to the upper one if it is above, and to the even one if it is the middle. -/
theorem nearest_neighbours (hn : num ≠ 0) (hd : 0 < den) :
    ∃ b, valueOf b ≤ num / den ∧ (num / den : ℚ) < valueOf (b + 1) ∧
      ((nearest num den = b ∧ (2 * (num / den : ℚ) < valueOf b + valueOf (b + 1) ∨
          2 * (num / den : ℚ) = valueOf b + valueOf (b + 1) ∧ b % 2 = 0)) ∨
        (nearest num den = b + 1 ∧ (valueOf b + valueOf (b + 1) < 2 * (num / den : ℚ) ∨
          2 * (num / den : ℚ) = valueOf b + valueOf (b + 1) ∧ (b + 1) % 2 = 0))) := by
  obtain ⟨e, he⟩ : ∃ e, max (floorLog2 num den - 52) (-1074) = e := ⟨_, rfl⟩
  have hmin : -1074 ≤ e := by omega
  have hnearest := nearest_eq hn he
  simp only [Nat.pow_eq] at hnearest
  obtain ⟨scale, hscale, hquotient, hunit⟩ := exists_scale num hd e
  have hpos : 0 < den * 2 ^ e.toNat := by positivity
  generalize num * 2 ^ (-e).toNat = n at *
  generalize den * 2 ^ e.toNat = d at *
  obtain ⟨hlt, hge⟩ := significand_bounds (Nat.pos_of_ne_zero hn) hd he hscale hquotient hunit hpos
  have hplace : ((e + 1074).toNat : Int) - 1074 = e := by omega
  have hvalue := @valueOf_add (e + 1074).toNat (n / d) (by omega) (by omega)
  have hnext := @valueOf_add (e + 1074).toNat (n / d + 1) (by omega) (by omega)
  rw [hplace] at hvalue hnext
  obtain ⟨b, hb⟩ : ∃ b, b = (e + 1074).toNat * 2 ^ 52 + n / d := ⟨_, rfl⟩
  have hparity : b % 2 = n / d % 2 := by omega
  rw [← Nat.add_assoc, ← hb] at hnext
  rw [← hb] at hvalue
  -- Comparisons with the quotient are those of naturals, with `scale` on both sides.
  generalize (num / den : ℚ) = q at *
  have hdouble : 2 * q * scale = (2 * n : Nat) := by
    rw [mul_assoc, hquotient, Nat.cast_mul, Nat.cast_ofNat]
  have hvalue' : valueOf b * scale = (n / d * d : Nat) := by
    rw [hvalue, mul_assoc, hunit, Nat.cast_mul]
  have hnext' : valueOf (b + 1) * scale = ((n / d + 1) * d : Nat) := by
    rw [hnext, mul_assoc, hunit, Nat.cast_mul]
  have hmiddle : (valueOf b + valueOf (b + 1)) * scale = ((2 * (n / d) + 1) * d : Nat) := by
    rw [add_mul, hvalue', hnext']
    push_cast
    ring
  have hbelow : 2 * q < valueOf b + valueOf (b + 1) ↔ 2 * n < (2 * (n / d) + 1) * d := by
    rw [← mul_lt_mul_iff_left₀ hscale, hdouble, hmiddle, Nat.cast_lt]
  have habove : valueOf b + valueOf (b + 1) < 2 * q ↔ (2 * (n / d) + 1) * d < 2 * n := by
    rw [← mul_lt_mul_iff_left₀ hscale, hdouble, hmiddle, Nat.cast_lt]
  have htie : 2 * q = valueOf b + valueOf (b + 1) ↔ 2 * n = (2 * (n / d) + 1) * d := by
    rw [← mul_left_inj' hscale.ne', hdouble, hmiddle, Nat.cast_inj]
  refine ⟨b, ?_, ?_, ?_⟩
  · apply le_of_mul_le_mul_right _ hscale
    rw [hvalue', hquotient, Nat.cast_le]
    exact Nat.div_mul_le_self n d
  · apply lt_of_mul_lt_mul_right _ hscale.le
    rw [hnext', hquotient, Nat.cast_lt]
    exact Nat.lt_mul_of_div_lt (Nat.lt_succ_self _) hpos
  · rw [hbelow, habove, htie]
    refine (roundDiv_cases n d).imp ?_ ?_
    · rintro ⟨hround, hcase⟩
      exact ⟨by omega, hcase.imp_right fun ⟨h, heven⟩ => ⟨h, by omega⟩⟩
    · rintro ⟨hround, hcase⟩
      exact ⟨by omega, hcase.imp_right fun ⟨h, heven⟩ => ⟨h, by omega⟩⟩

/-- A quotient is rounded to the magnitude that is nearest to it. -/
theorem roundsTo_nearest (num : Nat) (hd : 0 < den) :
    RoundsTo (num / den) (min (nearest num den) infinityBits) := by
  by_cases hn : num = 0
  · rw [hn, nearest, if_pos rfl, Nat.cast_zero, zero_div]
    apply RoundsTo.below (Nat.zero_le _) valueOf_zero.le
    have hpos : valueOf 0 < valueOf 1 := valueOf_strictMono Nat.zero_lt_one
    rw [valueOf_zero] at hpos ⊢
    exact .inl (by linarith)
  obtain ⟨b, hle, hlt, hcases⟩ := nearest_neighbours hn hd
  have hinfinity : infinityBits ≤ b → RoundsTo (num / den) infinityBits := fun hb =>
    .infinity ((valueOf_strictMono.monotone hb).trans hle)
  rcases hcases with ⟨heq, hmiddle⟩ | ⟨heq, hmiddle⟩ <;> rw [heq]
  · rcases Nat.le_total b infinityBits with hb | hb
    · rw [Nat.min_eq_left hb]
      exact .below hb hle hmiddle
    · rw [Nat.min_eq_right hb]
      exact hinfinity hb
  · rcases Nat.lt_or_ge b infinityBits with hb | hb
    · rw [Nat.min_eq_left hb]
      exact .above hb hlt.le hmiddle
    · rw [Nat.min_eq_right (Nat.le_succ_of_le hb)]
      exact hinfinity hb

/-! ## Rounding decimals -/

theorem roundsTo_nearestDecimal (digits : Nat) (exponent : Int) :
    RoundsTo (digits * 10 ^ exponent) (min (nearestDecimal digits exponent) infinityBits) := by
  have hround := roundsTo_nearest (digits * 10 ^ exponent.toNat)
    (Nat.pow_pos (Nat.succ_pos 9) : 0 < 10 ^ (-exponent).toNat)
  rw [Nat.cast_mul, Nat.cast_pow, Nat.cast_pow, Nat.cast_ofNat, mul_div_assoc,
    ← zpow_eq_div] at hround
  exact hround

namespace Literal

variable {l : Literal}

/-- The magnitude of the number that a literal denotes. -/
def absolute (l : Literal) : ℚ :=
  l.digits * 10 ^ l.scale

/-- A literal gets the magnitude that is nearest to the number that it denotes. -/
theorem roundsTo_nearestBits (hd : ∀ c ∈ l.whole ++ l.fraction, c.isDigit = true) :
    RoundsTo l.absolute (min l.nearestBits infinityBits) := by
  by_cases h0 : l.digits = 0
  · have hround := roundsTo_nearestDecimal 0 l.scale
    rw [absolute, h0, nearestBits, if_pos h0]
    rwa [nearestDecimal, Nat.zero_mul, nearest, if_pos rfl] at hround
  rcases lt_or_ge 400 l.scale with hscale | hscale
  · rw [nearestBits, if_neg h0, if_pos hscale, Nat.min_self]
    apply RoundsTo.infinity
    have hdigits : (1 : ℚ) ≤ l.digits := by exact_mod_cast Nat.pos_of_ne_zero h0
    rw [valueOf_infinityBits]
    have hrange : (2 : ℚ) ^ 1024 ≤ 10 ^ 400 := by
      exact_mod_cast (two_pow_lt_ten_pow (by norm_num) (by norm_num) : 2 ^ 1024 < 10 ^ 400).le
    calc (2 : ℚ) ^ 1024 ≤ 10 ^ ((400 : Nat) : Int) := by rwa [zpow_natCast]
      _ ≤ 10 ^ l.scale := zpow_le_zpow_right₀ (by norm_num) hscale.le
      _ ≤ l.absolute := le_mul_of_one_le_left (by positivity) hdigits
  · rw [nearestBits_eq hd hscale]
    exact roundsTo_nearestDecimal l.digits l.scale

end Literal

end SlotScript.Number
