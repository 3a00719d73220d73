import SlotScript.Proofs.Number.Rounding

/-!
# The grammar of literals

What a decimal literal is and which number it denotes, said without the reader: an optional sign,
digits with at most one point, an optional exponent (`Literal.Writes`, `Literal.number`). The reader
takes such texts and no others (`Literal.isSome_parse?_iff`).

The reader does not count all digits of an exponent when there are very many (`Literal.Counts`).
Unless there are tens of thousands of other digits as well, the literal is rounded to the same
magnitude as if it did (`Literal.nearestBits_counted`).
-/

namespace SlotScript.Number

namespace Literal

variable {l : Literal} {t s sgn digits whole fraction : List Char} {negative : Bool} {c : Char}
  {exponent n : Int}

/-! ## The grammar of literals -/

/-- An optional sign, and whether it is a minus. -/
inductive Sign : List Char → Bool → Prop where
  | none : Sign [] false
  | plus : Sign ['+'] false
  | minus : Sign ['-'] true

/-- Only ASCII digits. -/
def Digits (s : List Char) : Prop :=
  ∀ c ∈ s, c.isDigit = true

/-- Digits with at most one point, and those before and after it. -/
inductive Mantissa : List Char → List Char → List Char → Prop where
  | whole {whole : List Char} (hne : whole ≠ []) (hwhole : Digits whole) : Mantissa whole whole []
  | pointed {whole fraction : List Char} (hne : whole ≠ []) (hwhole : Digits whole)
      (hfraction : Digits fraction) : Mantissa (whole ++ '.' :: fraction) whole fraction
  | fraction {fraction : List Char} (hne : fraction ≠ []) (hfraction : Digits fraction) :
      Mantissa ('.' :: fraction) [] fraction

/-- An optional exponent, and the number that it is. -/
inductive Exponent : List Char → Int → Prop where
  | none : Exponent [] 0
  | written {mark : Char} {sgn digits : List Char} {negative : Bool}
      (hmark : mark = 'e' ∨ mark = 'E')
      (hsign : Sign sgn negative) (hne : digits ≠ []) (hdigits : Digits digits) :
      Exponent (mark :: (sgn ++ digits))
        (if negative then -(Nat.ofDigitChars 10 digits 0 : Int) else Nat.ofDigitChars 10 digits 0)

/-- The text is the literal. -/
inductive Writes : List Char → Literal → Prop where
  | mk {sgn mantissa whole fraction rest : List Char} {negative : Bool} {exponent : Int}
      (hsign : Sign sgn negative) (hmantissa : Mantissa mantissa whole fraction)
      (hexponent : Exponent rest exponent) :
      Writes (sgn ++ (mantissa ++ rest)) ⟨negative, whole, fraction, exponent⟩

/-- The number that a literal denotes. -/
def number (l : Literal) : ℚ :=
  (if l.negative then -1 else 1) * Nat.ofDigitChars 10 (l.whole ++ l.fraction) 0 *
    10 ^ (l.exponent - l.fraction.length)

theorem abs_number (l : Literal) : |l.number| = l.absolute := by
  have habsolute : l.absolute =
      Nat.ofDigitChars 10 (l.whole ++ l.fraction) 0 * 10 ^ (l.exponent - l.fraction.length) := by
    rw [absolute, Literal.digits, value_eq_ofDigitChars, scale]
  have hnonneg : 0 ≤ l.absolute := by
    rw [absolute]
    positivity
  rw [number, mul_assoc, ← habsolute, abs_mul, abs_of_nonneg hnonneg]
  split <;> simp

/-! ## Exponents with too many digits -/

/-- What is counted of an exponent: all of it, unless it goes beyond ten times the bound. Then it is
still counted up to the bound. -/
def Counts (exponent counted : Int) : Prop :=
  counted = exponent ∨
    (10 * exponentBound ≤ exponent ∧ exponentBound ≤ counted) ∨
    (exponent ≤ -(10 * exponentBound) ∧ counted ≤ -exponentBound)

theorem exponentValue_cases (digits : List Char) :
    exponentValue digits = value digits ∨
      10 * exponentBound ≤ value digits ∧ exponentBound ≤ exponentValue digits := by
  rw [value_eq_foldl, exponentValue]
  induction digits using List.reverseRecOn with
  | nil => exact .inl rfl
  | append_singleton digits c ih =>
    simp only [List.foldl_append, List.foldl_cons, List.foldl_nil]
    split <;> omega

theorem nearestBits_of_large (hdigits : l.digits ≠ 0) (h : 400 < l.scale) :
    l.nearestBits = infinityBits := by
  rw [nearestBits, if_neg hdigits, if_pos h]

theorem nearestBits_of_small (h : l.scale + (l.whole.length + l.fraction.length) < -400) :
    l.nearestBits = 0 := by
  by_cases hdigits : l.digits = 0
  · rw [nearestBits, if_pos hdigits]
  · rw [nearestBits, if_neg hdigits, if_neg (by omega), if_pos h]

/-- The digits that are not counted do not change what the literal is rounded to, if the exponent is
below ten times the bound or the other digits are fewer than the bound by 400. -/
theorem nearestBits_counted (h : Counts l.exponent n)
    (hshort : |l.exponent| < 10 * exponentBound ∨
      l.whole.length + l.fraction.length + 400 < exponentBound) :
    nearestBits { l with exponent := n } = nearestBits l := by
  rcases h with rfl | h
  · rfl
  have hshort : l.whole.length + l.fraction.length + 400 < exponentBound := by
    refine hshort.resolve_left fun hlt => ?_
    rw [abs_lt] at hlt
    omega
  by_cases h0 : l.digits = 0
  · rw [nearestBits, nearestBits, if_pos h0]
    exact if_pos h0
  rcases h with ⟨hlarge, hcounted⟩ | ⟨hsmall, hcounted⟩
  · rw [nearestBits_of_large h0 (by simp only [scale]; omega)]
    exact nearestBits_of_large h0 (by simp only [scale]; omega)
  · rw [nearestBits_of_small (l := l) (by simp only [scale]; omega)]
    exact nearestBits_of_small (by simp only [scale]; omega)

/-! ## Reading literals -/

theorem takeWhile_digits {rest : List Char} (h : Digits digits)
    (hrest : ∀ c ∈ rest.head?, c.isDigit = false) :
    (digits ++ rest).takeWhile Char.isDigit = digits ∧
      (digits ++ rest).dropWhile Char.isDigit = rest := by
  have hstop : rest.takeWhile Char.isDigit = [] ∧ rest.dropWhile Char.isDigit = rest := by
    cases rest with
    | nil => exact ⟨rfl, rfl⟩
    | cons c rest =>
      have hc := hrest c rfl
      simp [hc]
  rw [List.takeWhile_append_of_pos h, List.dropWhile_append_of_pos h, hstop.1, hstop.2,
    List.append_nil]
  exact ⟨rfl, rfl⟩

theorem exists_sign (t : List Char) : ∃ sgn s negative, t = sgn ++ s ∧ Sign sgn negative ∧
    sign t = (negative, s) := by
  unfold sign
  split
  · exact ⟨_, _, _, rfl, .minus, rfl⟩
  · exact ⟨_, _, _, rfl, .plus, rfl⟩
  · exact ⟨[], _, _, rfl, .none, rfl⟩

theorem sign_append (h : Sign sgn negative) (hs : ∀ c ∈ s.head?, c ≠ '-' ∧ c ≠ '+') :
    sign (sgn ++ s) = (negative, s) := by
  cases h with
  | minus => rfl
  | plus => rfl
  | none =>
    rw [List.nil_append]
    unfold sign
    split
    · exact absurd rfl (hs _ rfl).1
    · exact absurd rfl (hs _ rfl).2
    · rfl

/-- The exponent that is read is what is counted of the one that is written. -/
theorem exponent?_of_exponent (h : Exponent s exponent) :
    ∃ n, Counts exponent n ∧ exponent? s = some n := by
  cases h with
  | none => exact ⟨0, .inl rfl, rfl⟩
  | @written mark sgn digits negative hmark hsign hne hdigits =>
    have hhead : ∀ c ∈ digits.head?, c ≠ '-' ∧ c ≠ '+' := by
      intro c hc
      have hdigit := hdigits c (List.mem_of_mem_head? hc)
      constructor <;> rintro rfl <;> exact absurd hdigit (by decide)
    have hall : digits.all Char.isDigit = true := List.all_eq_true.2 hdigits
    have hvalue := exponentValue_cases digits
    rw [value_eq_ofDigitChars] at hvalue
    rw [exponent?, if_pos hmark, sign_append hsign hhead]
    simp only [hall, List.isEmpty_eq_false_iff.2 hne, Bool.not_true, Bool.or_false,
      Bool.false_eq_true, ↓reduceIte]
    refine ⟨_, ?_, rfl⟩
    unfold Counts
    cases negative <;> simp only [Bool.false_eq_true, ↓reduceIte] <;> omega

theorem exponent_of_exponent? (h : exponent? s = some n) : ∃ exponent, Exponent s exponent := by
  cases s with
  | nil => exact ⟨0, .none⟩
  | cons c s =>
    obtain ⟨sgn, digits, negative, rfl, hsign, hread⟩ := exists_sign s
    rw [exponent?, hread] at h
    split at h
    · next hmark =>
      simp only [Bool.or_eq_true, List.isEmpty_iff, Bool.not_eq_true'] at h
      split at h
      · cases h
      · next hdigits =>
        rw [not_or, Bool.not_eq_false, List.all_eq_true] at hdigits
        exact ⟨_, .written hmark hsign hdigits.1 hdigits.2⟩
    · cases h

/-- What follows a mantissa is neither a digit nor a point. -/
theorem Exponent.head (h : Exponent s exponent) : ∀ c ∈ s.head?, c.isDigit = false ∧ c ≠ '.' := by
  cases h with
  | none => exact fun c hc => absurd hc (by simp)
  | written hmark =>
    intro c hc
    obtain rfl := Option.some.inj hc
    rcases hmark with rfl | rfl <;> decide

theorem Mantissa.head (h : Mantissa s whole fraction) :
    ∃ c rest, s = c :: rest ∧
      (c.isDigit = true ∨ c = '.' ∧ ∃ d ∈ rest.head?, d.isDigit = true) := by
  cases h with
  | whole hne hwhole =>
    obtain ⟨c, rest, rfl⟩ := List.exists_cons_of_ne_nil hne
    exact ⟨c, rest, rfl, .inl (hwhole c List.mem_cons_self)⟩
  | pointed hne hwhole =>
    obtain ⟨c, rest, rfl⟩ := List.exists_cons_of_ne_nil hne
    exact ⟨c, _, rfl, .inl (hwhole c List.mem_cons_self)⟩
  | fraction hne hfraction =>
    obtain ⟨c, rest, rfl⟩ := List.exists_cons_of_ne_nil hne
    exact ⟨'.', _, rfl, .inr ⟨rfl, c, rfl, hfraction c List.mem_cons_self⟩⟩

/-- A mantissa is taken apart at its point, and what follows it is left. -/
theorem Mantissa.parts (h : Mantissa s whole fraction) {rest : List Char}
    (hrest : ∀ c ∈ rest.head?, c.isDigit = false ∧ c ≠ '.') :
    (s ++ rest).takeWhile Char.isDigit = whole ∧
      fractionPart ((s ++ rest).dropWhile Char.isDigit) = (fraction, rest) := by
  have hend : ∀ c ∈ rest.head?, c.isDigit = false := fun c hc => (hrest c hc).1
  have hpoint : ∀ {tail : List Char}, ∀ c ∈ ('.' :: tail).head?, c.isDigit = false := by
    rintro tail c hc
    obtain rfl := Option.some.inj hc
    rfl
  cases h with
  | whole hne hwhole =>
    obtain ⟨htake, hdrop⟩ := takeWhile_digits hwhole hend
    rw [htake, hdrop]
    refine ⟨rfl, ?_⟩
    unfold fractionPart
    split
    · exact absurd rfl (hrest '.' rfl).2
    · rfl
  | pointed hne hwhole hfraction =>
    obtain ⟨htake, hdrop⟩ := takeWhile_digits hwhole (@hpoint (fraction ++ rest))
    obtain ⟨htake', hdrop'⟩ := takeWhile_digits hfraction hend
    rw [List.append_assoc, List.cons_append, htake, hdrop, fractionPart, htake', hdrop']
    exact ⟨rfl, rfl⟩
  | fraction hne hfraction =>
    obtain ⟨htake, hdrop⟩ := takeWhile_digits hfraction hend
    refine ⟨rfl, ?_⟩
    have hdigit :
        ('.' :: fraction ++ rest).dropWhile Char.isDigit = '.' :: (fraction ++ rest) := rfl
    rw [hdigit, fractionPart, htake, hdrop]

theorem Mantissa.not_empty (h : Mantissa s whole fraction) :
    (whole.isEmpty && fraction.isEmpty) = false := by
  cases h <;> simp [*]

theorem Mantissa.all_digits (h : Mantissa s whole fraction) : Digits (whole ++ fraction) := by
  cases h with
  | whole hne hwhole => rwa [List.append_nil]
  | pointed hne hwhole hfraction =>
    exact fun c hc => (List.mem_append.1 hc).elim (hwhole c) (hfraction c)
  | fraction hne hfraction => exact hfraction

theorem Writes.all_digits (h : Writes t l) : Digits (l.whole ++ l.fraction) := by
  cases h with
  | mk hsign hmantissa hexponent => exact hmantissa.all_digits

theorem Mantissa.length_le (h : Mantissa s whole fraction) :
    whole.length + fraction.length ≤ s.length := by
  cases h <;> simp

theorem Writes.length_le (h : Writes t l) : l.whole.length + l.fraction.length ≤ t.length := by
  cases h with
  | mk hsign hmantissa hexponent =>
    have hle := hmantissa.length_le
    simp only [List.length_append]
    omega

theorem exists_mantissa (s : List Char)
    (hne : ((s.takeWhile Char.isDigit).isEmpty &&
      (fractionPart (s.dropWhile Char.isDigit)).1.isEmpty) = false) :
    ∃ mantissa, s = mantissa ++ (fractionPart (s.dropWhile Char.isDigit)).2 ∧
      Mantissa mantissa (s.takeWhile Char.isDigit) (fractionPart (s.dropWhile Char.isDigit)).1 := by
  have hs : s.takeWhile Char.isDigit ++ s.dropWhile Char.isDigit = s :=
    List.takeWhile_append_dropWhile
  have hwhole : Digits (s.takeWhile Char.isDigit) := fun c hc => List.mem_takeWhile_imp hc
  generalize s.takeWhile Char.isDigit = whole at *
  generalize s.dropWhile Char.isDigit = rest at *
  unfold fractionPart at hne ⊢
  split at hne
  · next tail =>
    have htail : tail.takeWhile Char.isDigit ++ tail.dropWhile Char.isDigit = tail :=
      List.takeWhile_append_dropWhile
    have hfraction : Digits (tail.takeWhile Char.isDigit) := fun c hc => List.mem_takeWhile_imp hc
    by_cases hwhole0 : whole = []
    · subst hwhole0
      refine ⟨'.' :: tail.takeWhile Char.isDigit, ?_, .fraction ?_ hfraction⟩
      · simp only [List.cons_append, htail]
        exact hs.symm
      · simpa using hne
    · refine ⟨whole ++ '.' :: tail.takeWhile Char.isDigit, ?_, .pointed hwhole0 hwhole hfraction⟩
      simp only [List.append_assoc, List.cons_append, htail]
      exact hs.symm
  · refine ⟨whole, hs.symm, .whole ?_ hwhole⟩
    simpa using hne

/-- A literal is read, with what is counted of its exponent. -/
theorem parse?_of_writes (h : Writes t l) :
    ∃ n, Counts l.exponent n ∧ parse? t = some { l with exponent := n } := by
  cases h with
  | @mk sgn mantissa whole fraction rest negative exponent hsign hmantissa hexponent =>
    obtain ⟨n, hcounts, hread⟩ := exponent?_of_exponent hexponent
    obtain ⟨hwhole, hfraction⟩ := hmantissa.parts hexponent.head
    have hhead : ∀ c ∈ (mantissa ++ rest).head?, c ≠ '-' ∧ c ≠ '+' := by
      obtain ⟨c, tail, rfl, hc⟩ := hmantissa.head
      intro d hd
      obtain rfl := Option.some.inj hd
      rcases hc with hdigit | ⟨rfl, -⟩
      · constructor <;> rintro rfl <;> exact absurd hdigit (by decide)
      · decide
    refine ⟨n, hcounts, ?_⟩
    rw [parse?, sign_append hsign hhead]
    simp only [hwhole, hfraction, hmantissa.not_empty, hread, Bool.false_eq_true, ↓reduceIte,
      Option.map_some]

/-- What is read is a literal, with the exponent that is written there. -/
theorem exists_writes_of_parse? (h : parse? t = some l) :
    ∃ exponent, Writes t { l with exponent := exponent } := by
  obtain ⟨sgn, s, negative, rfl, hsign, hread⟩ := exists_sign t
  rw [parse?, hread] at h
  simp only at h
  split at h
  · cases h
  · next hne =>
    obtain ⟨n, hn, rfl⟩ := Option.map_eq_some_iff.1 h
    obtain ⟨mantissa, hs, hmantissa⟩ := exists_mantissa s (Bool.eq_false_iff.2 hne)
    obtain ⟨exponent, hexponent⟩ := exponent_of_exponent? hn
    refine ⟨exponent, ?_⟩
    have hwrites := Writes.mk hsign hmantissa hexponent
    rwa [← hs] at hwrites

theorem isSome_parse?_iff : (parse? t).isSome = true ↔ ∃ l, Writes t l := by
  rw [Option.isSome_iff_exists]
  constructor
  · rintro ⟨l, h⟩
    obtain ⟨exponent, hwrites⟩ := exists_writes_of_parse? h
    exact ⟨_, hwrites⟩
  · rintro ⟨l, h⟩
    obtain ⟨n, -, hread⟩ := parse?_of_writes h
    exact ⟨_, hread⟩

end Literal

end SlotScript.Number
