import SlotScript.Number.Format
import SlotScript.Number.Literal
import SlotScript.Proofs.Number.Binary64

/-!
# Numbers read back

Every finite number is read back from its text, with the sign of zero (`read?_display`). The text is
a decimal in positional notation whose nearest magnitude is the number's (`display_eq`), because the
search for the shortest one only takes a decimal that rounds to the magnitude and falls back to the
exact value (`nearestDecimal_shortest`). And the literal that is read from positional notation has
the value of the decimal (`read?_positional`).
-/

namespace SlotScript.Number

/-! ## The shortest decimal -/

theorem nearestDecimal_of_candidate? {bits : Nat} {g : Int} {d : Decimal}
    (h : candidate? bits g = some d) : nearestDecimal d.digits d.exponent = bits := by
  simp only [candidate?] at h
  split at h
  · next hbelow habove =>
    obtain rfl := Option.some.inj h
    split
    · exact of_decide_eq_true hbelow
    · exact of_decide_eq_true habove
  · next hbelow _ =>
    obtain rfl := Option.some.inj h
    exact of_decide_eq_true hbelow
  · next _ habove =>
    obtain rfl := Option.some.inj h
    exact of_decide_eq_true habove
  · cases h

theorem nearestDecimal_exactDecimal {bits : Nat} (hb : 0 < bits) :
    nearestDecimal (exactDecimal bits).digits (exactDecimal bits).exponent = bits := by
  rcases hs : significand bits with ⟨m, e⟩
  obtain ⟨-, -, hnormal, hbits⟩ := significand_spec hs
  have hm : 0 < m := by
    rcases hnormal with hnormal | rfl
    · omega
    · simp only [Int.reduceNeg, Int.reduceAdd, Int.toNat_zero, Nat.zero_mul, Nat.zero_add] at hbits
      omega
  refine nearest_of_eq (Nat.pow_pos (by norm_num)) hs hm ?_
  simp only [exactDecimal, hs, Nat.pow_eq]
  rcases lt_or_ge e 0 with he | he
  · obtain ⟨k, hk⟩ := Int.eq_ofNat_of_zero_le (Int.neg_nonneg.2 he.le)
    obtain rfl : e = -(k : Int) := by omega
    have hten : (10 : ℚ) = 5 * 2 := by norm_num
    rw [if_neg (by omega)]
    simp only [Int.neg_neg, Int.toNat_natCast, Int.toNat_neg_natCast, pow_zero, Nat.mul_one]
    push_cast
    rw [hten, mul_pow, zpow_neg, zpow_natCast]
    field_simp
  · obtain ⟨k, rfl⟩ := Int.eq_ofNat_of_zero_le he
    rw [if_pos he]
    simp

theorem nearestDecimal_search {bits : Nat} (hb : 0 < bits) (tries : Nat) (g : Int) :
    nearestDecimal (search bits tries g).digits (search bits tries g).exponent = bits := by
  induction tries generalizing g with
  | zero => exact nearestDecimal_exactDecimal hb
  | succ tries ih =>
    rw [search]
    split
    · next d hd => exact nearestDecimal_of_candidate? hd
    · exact ih (g - 1)

/-- The shortest decimal of a positive magnitude is rounded to the magnitude. -/
theorem nearestDecimal_shortest {bits : Nat} (hb : 0 < bits) :
    nearestDecimal (shortest bits).digits (shortest bits).exponent = bits :=
  nearestDecimal_search hb _ _

/-! ## The value of digits -/

namespace Literal

theorem value_eq_ofDigitChars (digits : List Char) :
    value digits = Nat.ofDigitChars 10 digits 0 := by
  rw [value_eq_foldl, Nat.ofDigitChars_eq_foldl]
  simp only [digitValue, Nat.add_comm]

theorem value_digitsOf (n : Nat) : value (digitsOf n) = n := by
  rw [value_eq_ofDigitChars, digitsOf, Nat.ofDigitChars_ten_toDigits]

theorem value_append_zeros (digits : List Char) (k : Nat) :
    value (digits ++ List.replicate k '0') = value digits * 10 ^ k := by
  simp only [value_eq_ofDigitChars, Nat.ofDigitChars_append, Nat.ofDigitChars_replicate_zero,
    Nat.mul_comm]

theorem value_zeros_append (k : Nat) (digits : List Char) :
    value (List.replicate k '0' ++ digits) = value digits := by
  simp only [value_eq_ofDigitChars, Nat.ofDigitChars_append, Nat.ofDigitChars_replicate_zero,
    Nat.mul_zero]

theorem digitValue_le {c : Char} (h : c.isDigit = true) : digitValue c ≤ 9 := by
  rw [Char.isDigit_iff_toNat] at h
  simp only [digitValue, Char.reduceToNat] at h ⊢
  omega

theorem value_lt (digits : List Char) (h : ∀ c ∈ digits, c.isDigit = true) :
    value digits < 10 ^ digits.length := by
  rw [value_eq_foldl]
  induction digits using List.reverseRecOn with
  | nil => simp
  | append_singleton digits c ih =>
    have hc := digitValue_le (h c (by simp))
    have hlt := ih fun c' hc' => h c' (by simp [hc'])
    rw [List.foldl_append, List.length_append, List.length_singleton, pow_succ]
    simp only [List.foldl_cons, List.foldl_nil]
    omega

/-! ## The magnitude of a literal -/

theorem two_pow_lt_ten_pow {k n : Nat} (h : k ≤ 3 * n) (hn : n ≠ 0) : 2 ^ k < 10 ^ n :=
  calc 2 ^ k ≤ 2 ^ (3 * n) := Nat.pow_le_pow_right (by norm_num) h
    _ = (2 ^ 3) ^ n := pow_mul ..
    _ < 10 ^ n := Nat.pow_lt_pow_left (by norm_num) hn

theorem nearestDecimal_eq_zero {n len : Nat} {scale : Int} (hn : n < 10 ^ len)
    (h : scale + len < -400) : nearestDecimal n scale = 0 := by
  obtain ⟨k, hk⟩ := Int.eq_ofNat_of_zero_le (by omega : 0 ≤ -scale)
  obtain rfl : scale = -(k : Int) := by omega
  have hrange : (2 : Nat) ^ 1075 < 10 ^ 400 := two_pow_lt_ten_pow (by norm_num) (by norm_num)
  apply nearest_eq_zero
  simp only [Int.neg_neg, Int.toNat_natCast, Int.toNat_neg_natCast, Nat.pow_eq, pow_zero,
    Nat.mul_one]
  calc n * 2 ^ 1075 < 10 ^ len * 10 ^ 400 := Nat.mul_lt_mul'' hn hrange
    _ = 10 ^ (len + 400) := (pow_add ..).symm
    _ ≤ 10 ^ k := Nat.pow_le_pow_right (by norm_num) (by omega)

/-- The bounds on the number of places do not change the magnitude. -/
theorem nearestBits_eq {l : Literal} (hd : ∀ c ∈ l.whole ++ l.fraction, c.isDigit = true)
    (hs : l.scale ≤ 400) : l.nearestBits = nearestDecimal l.digits l.scale := by
  unfold nearestBits
  split
  · next h0 => simp [h0, nearestDecimal, nearest]
  · rw [if_neg (by omega)]
    split
    · next hlow =>
      have hlt : l.digits < 10 ^ (l.whole ++ l.fraction).length := value_lt _ hd
      rw [List.length_append] at hlt
      exact (nearestDecimal_eq_zero hlt (by omega)).symm
    · rfl

/-! ## Positional notation -/

/-- The digits after the point, with the point in front when there are any. -/
def pointed : List Char → List Char
  | [] => []
  | fraction => '.' :: fraction

theorem pointed_of_ne_nil {fraction : List Char} (h : fraction ≠ []) :
    pointed fraction = '.' :: fraction := by
  cases fraction with
  | nil => exact absurd rfl h
  | cons c rest => rfl

theorem fractionPart_pointed {fraction : List Char} (h : ∀ c ∈ fraction, c.isDigit = true) :
    fractionPart (pointed fraction) = (fraction, []) := by
  cases fraction with
  | nil => rfl
  | cons c rest =>
    have htake := @List.takeWhile_append_of_pos _ _ (c :: rest) [] h
    have hdrop := @List.dropWhile_append_of_pos _ _ (c :: rest) [] h
    rw [List.append_nil, List.takeWhile_nil, List.append_nil] at htake
    rw [List.append_nil, List.dropWhile_nil] at hdrop
    rw [pointed_of_ne_nil (List.cons_ne_nil c rest), fractionPart, htake, hdrop]

theorem sign_signed (negative : Bool) {c : Char} (hc : c.isDigit = true) (s : List Char) :
    sign (signed negative (c :: s)) = (negative, c :: s) := by
  cases negative with
  | true => rfl
  | false =>
    have hminus : c ≠ '-' := by
      rintro rfl
      exact absurd hc (by decide)
    have hplus : c ≠ '+' := by
      rintro rfl
      exact absurd hc (by decide)
    simp [signed, sign, hminus, hplus]

theorem parse?_pointed (negative : Bool) {whole fraction : List Char} (hne : whole ≠ [])
    (hd : ∀ c ∈ whole ++ fraction, c.isDigit = true) :
    parse? (signed negative (whole ++ pointed fraction)) = some ⟨negative, whole, fraction, 0⟩ := by
  have hwhole : ∀ c ∈ whole, c.isDigit = true := fun c hc => hd c (List.mem_append_left _ hc)
  have hfraction := fractionPart_pointed fun c hc => hd c (List.mem_append_right _ hc)
  obtain ⟨c, rest, rfl⟩ := List.exists_cons_of_ne_nil hne
  have hsign := sign_signed negative (hwhole c List.mem_cons_self) (rest ++ pointed fraction)
  -- The point, or the end of the text, ends the digits in front of it.
  have hpoint : (pointed fraction).takeWhile Char.isDigit = [] ∧
      (pointed fraction).dropWhile Char.isDigit = pointed fraction := by
    cases fraction <;> exact ⟨rfl, rfl⟩
  have htake : ((c :: rest) ++ pointed fraction).takeWhile Char.isDigit = c :: rest := by
    rw [List.takeWhile_append_of_pos hwhole, hpoint.1, List.append_nil]
  have hdrop : ((c :: rest) ++ pointed fraction).dropWhile Char.isDigit = pointed fraction := by
    rw [List.dropWhile_append_of_pos hwhole, hpoint.2]
  simp only [parse?, List.cons_append, hsign]
  rw [← List.cons_append, htake, hdrop, hfraction]
  rfl

end Literal

/-- Positional notation is digits and digits behind a point, and together they count the decimal in
the last place that is written. -/
theorem Decimal.positional_eq (d : Decimal) :
    ∃ whole fraction, d.positional = whole ++ Literal.pointed fraction ∧ whole ≠ [] ∧
      (∀ c ∈ whole ++ fraction, c.isDigit = true) ∧ fraction.length = (-d.exponent).toNat ∧
      Literal.value (whole ++ fraction) = d.digits * 10 ^ d.exponent.toNat := by
  have hds : ∀ c ∈ digitsOf d.digits, c.isDigit = true := fun c hc =>
    Nat.isDigit_of_mem_toDigits (by norm_num) (by norm_num) hc
  have hne : digitsOf d.digits ≠ [] := Nat.toDigits_ne_nil
  have hpos : 0 < (digitsOf d.digits).length := List.length_pos_iff.2 hne
  have hvalue := Literal.value_digitsOf d.digits
  unfold positional
  simp only
  generalize digitsOf d.digits = ds at *
  split
  · next hexp =>
    refine ⟨ds ++ List.replicate d.exponent.toNat '0', [], ?_, by simp [hne], ?_, ?_, ?_⟩
    · simp [Literal.pointed]
    · simp only [List.append_nil, List.mem_append, List.mem_replicate]
      rintro c (hc | ⟨-, rfl⟩)
      · exact hds c hc
      · rfl
    · simp
      omega
    · rw [List.append_nil, Literal.value_append_zeros, hvalue]
  · next hexp =>
    have hscale : d.exponent.toNat = 0 := by omega
    rw [hscale, pow_zero, Nat.mul_one]
    split
    · next hlt =>
      refine ⟨ds.take (ds.length - (-d.exponent).toNat), ds.drop (ds.length - (-d.exponent).toNat),
        ?_, ?_, ?_, ?_, ?_⟩
      · rw [Literal.pointed_of_ne_nil]
        simp only [ne_eq, List.drop_eq_nil_iff]
        omega
      · simp only [ne_eq, List.take_eq_nil_iff, hne, or_false]
        omega
      · rwa [List.take_append_drop]
      · rw [List.length_drop]
        omega
      · rw [List.take_append_drop, hvalue]
    · next hle =>
      refine ⟨['0'], List.replicate ((-d.exponent).toNat - ds.length) '0' ++ ds,
        ?_, by simp, ?_, ?_, ?_⟩
      · rw [Literal.pointed_of_ne_nil (by simp [hne])]
        rfl
      · simp only [List.singleton_append, List.mem_cons, List.mem_append, List.mem_replicate]
        rintro c (rfl | ⟨-, rfl⟩ | hc)
        · rfl
        · rfl
        · exact hds c hc
      · rw [List.length_append, List.length_replicate]
        omega
      · rw [List.singleton_append, ← List.cons_append, ← List.replicate_succ,
          Literal.value_zeros_append, hvalue]

/-- A sign and a decimal in positional notation are read as the number nearest to them. -/
theorem read?_positional (negative : Bool) (d : Decimal)
    (h : nearestDecimal d.digits d.exponent < infinityBits) :
    read? (signed negative d.positional) =
      some (ofMagnitude negative (nearestDecimal d.digits d.exponent)) := by
  obtain ⟨whole, fraction, hpositional, hne, hdigits, hplaces, hvalue⟩ := d.positional_eq
  have hscale : (0 - fraction.length : Int) = -((-d.exponent).toNat : Int) := by omega
  have hbits : (⟨negative, whole, fraction, 0⟩ : Literal).nearestBits =
      nearestDecimal d.digits d.exponent := by
    rw [Literal.nearestBits_eq hdigits (by simp only [Literal.scale]; omega)]
    simp only [Literal.digits, Literal.scale, nearestDecimal, hscale, hvalue, Int.neg_neg,
      Int.toNat_natCast, Int.toNat_neg_natCast, Nat.pow_eq, pow_zero, Nat.mul_one]
  rw [read?, hpositional, Literal.parse?_pointed negative hne hdigits]
  simp only [hbits]
  rw [if_pos h]

/-- The text of a finite number is its sign and a decimal that rounds to its magnitude. -/
theorem display_eq {x : Float} (h : magnitude x < infinityBits) :
    ∃ d : Decimal, (display x).toList = signed (isNegative x) d.positional ∧
      nearestDecimal d.digits d.exponent = magnitude x := by
  simp only [display, write, String.toList_ofList]
  rw [if_neg (by omega), if_neg (by omega)]
  split
  · next h0 => exact ⟨⟨0, 0⟩, rfl, h0.symm⟩
  · next h0 => exact ⟨_, rfl, nearestDecimal_shortest (by omega)⟩

/-- A finite number is read back from its text. -/
theorem read?_display {x : Float} (h : x.isFinite = true) : read? (display x).toList = some x := by
  have hfinite := isFinite_iff.1 h
  obtain ⟨d, htext, hbits⟩ := display_eq hfinite
  rw [htext, read?_positional _ d (hbits ▸ hfinite), hbits, ofMagnitude_magnitude]

theorem mem_display {x : Float} (h : x.isFinite = true) {c : Char} (hc : c ∈ (display x).toList) :
    c.isDigit = true ∨ c = '.' ∨ c = '-' := by
  obtain ⟨d, htext, -⟩ := display_eq (isFinite_iff.1 h)
  obtain ⟨whole, fraction, hpositional, -, hdigits, -⟩ := d.positional_eq
  have hpart : c ∈ whole ++ Literal.pointed fraction → c.isDigit = true ∨ c = '.' := by
    intro hmem
    cases fraction with
    | nil => exact .inl (hdigits c hmem)
    | cons c' rest =>
      rcases List.mem_append.1 hmem with hwhole | hfraction
      · exact .inl (hdigits c (List.mem_append_left _ hwhole))
      · rcases List.mem_cons.1 hfraction with rfl | hfraction
        · exact .inr rfl
        · exact .inl (hdigits c (List.mem_append_right _ hfraction))
  rw [htext, hpositional, signed] at hc
  split at hc
  · rcases List.mem_cons.1 hc with rfl | hc
    · exact .inr (.inr rfl)
    · exact (hpart hc).imp_right .inl
  · exact (hpart hc).imp_right .inl

theorem isFinite_of_read? {s : List Char} {x : Float} (h : read? s = some x) :
    x.isFinite = true := by
  simp only [read?] at h
  split at h
  · cases h
  · split at h
    · next hlt =>
      obtain rfl := Option.some.inj h
      rw [isFinite_iff, magnitude_ofMagnitude _ hlt.le]
      exact hlt
    · cases h

end SlotScript.Number
