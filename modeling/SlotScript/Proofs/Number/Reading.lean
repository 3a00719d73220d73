import SlotScript.Proofs.Number.Literals

/-!
# Reading numbers with a reader of floats

A reader of floats takes more texts than those that are to be numbers: also infinities and NaN by
their names, and literals that are too large. `readBy` puts such a reader between a look at the
first two characters and a look at the result, and what is left are the literals that are rounded to
a finite number (`isSome_readBy_iff`), if the reader takes the literals and the names and rounds to
the nearest magnitude (`Reliable`).

`read?` is `readBy` of the reader `float?` (`read?_eq_readBy`). That one is reliable, except for
literals that have both tens of thousands of digits and an exponent whose digits are not all counted
(`reliable_float?`).
-/

namespace SlotScript.Number

open Literal (Sign Writes Mantissa)

variable {t name : List Char} {c : Char} {reader : List Char → Option Float}

/-! ## Literals of finite numbers -/

/-- The text is a literal, and what it denotes is below the middle of the greatest finite magnitude
and `2 ^ 1024`. -/
def FiniteLiteral (t : List Char) : Prop :=
  ∃ l, Writes t l ∧ |l.number| < 2 ^ 1024 - 2 ^ 970

/-- The text is a name of infinity or NaN, in any letter case and with an optional sign. -/
inductive Special : List Char → Prop where
  | mk {sgn name : List Char} {negative : Bool} (hsign : Sign sgn negative)
      (hname : name.map Char.toLower ∈ ["inf".toList, "infinity".toList, "nan".toList]) :
      Special (sgn ++ name)

/-- The text begins with a digit, or with a sign or a point and a digit or a point after it. -/
def shaped : List Char → Bool
  | [] => false
  | c :: rest =>
    c.isDigit || (c = '-' || c = '+' || c = '.') && rest.head?.any fun d => d.isDigit || d = '.'

theorem shaped_of_writes {l : Literal} (h : Writes t l) : shaped t = true := by
  cases h with
  | @mk sgn mantissa whole fraction rest negative exponent hsign hmantissa hexponent =>
    obtain ⟨c, tail, rfl, hc⟩ := hmantissa.head
    have hnext : (c.isDigit || c = '.') = true := by
      rcases hc with hc | ⟨rfl, -⟩
      · rw [hc, Bool.true_or]
      · rfl
    cases hsign with
    | plus | minus => simpa [shaped] using hnext
    | none =>
      rcases hc with hc | ⟨rfl, d, hd, hdigit⟩
      · simp [shaped, hc]
      · cases tail with
        | nil => cases hd
        | cons d' tail =>
          obtain rfl := Option.some.inj hd
          simp [shaped, hdigit]

theorem toLower_of_isDigit (h : c.isDigit = true) : c.toLower = c := by
  apply Char.toLower_eq_of_not_isUpper
  intro hupper
  simp only [Char.isUpper, decide_eq_true_eq] at hupper
  have hge : 'A'.toNat ≤ c.toNat := UInt32.le_iff_toNat_le.1 hupper.1
  rw [Char.isDigit_iff_toNat] at h
  simp only [Char.reduceToNat] at h hge
  omega

/-- A name of infinity or NaN begins with a letter. -/
theorem head_of_name
    (h : name.map Char.toLower ∈ ["inf".toList, "infinity".toList, "nan".toList]) :
    ∃ c rest, name = c :: rest ∧ c.isDigit = false ∧ c ∉ ['-', '+', '.'] := by
  cases name with
  | nil => exact absurd h (by decide)
  | cons c rest =>
    have hc : c.toLower = 'i' ∨ c.toLower = 'n' := by
      simp only [List.map_cons, List.mem_cons, List.not_mem_nil, or_false] at h
      rcases h with h | h | h
      · exact .inl (List.cons.inj h).1
      · exact .inl (List.cons.inj h).1
      · exact .inr (List.cons.inj h).1
    refine ⟨c, rest, rfl, ?_, ?_⟩
    · by_contra hdigit
      rw [Bool.not_eq_false] at hdigit
      rw [toLower_of_isDigit hdigit] at hc
      rcases hc with rfl | rfl <;> exact absurd hdigit (by decide)
    · intro hmem
      simp only [List.mem_cons, List.not_mem_nil, or_false] at hmem
      rcases hmem with rfl | rfl | rfl <;> exact absurd hc (by decide)

theorem shaped_of_special (h : Special t) : shaped t = false := by
  cases h with
  | mk hsign hname =>
    obtain ⟨c, rest, rfl, hdigit, hmark⟩ := head_of_name hname
    simp only [List.mem_cons, List.not_mem_nil, or_false, not_or] at hmark
    cases hsign <;> simp [shaped, hdigit, hmark]

/-! ## Readers of floats -/

/-- What the reader of floats takes, if the text is shaped like a number and the result is
finite. -/
def readBy (reader : List Char → Option Float) (t : List Char) : Option Float :=
  if shaped t then (reader t).filter Float.isFinite else none

/-- The reader takes the text exactly when it is a literal or a name of infinity or NaN, and it
rounds a literal to the nearest magnitude. -/
structure Reliable (reader : List Char → Option Float) (t : List Char) : Prop where
  accepts : (reader t).isSome = true ↔ (∃ l, Writes t l) ∨ Special t
  rounds : ∀ l x, Writes t l → reader t = some x → RoundsTo |l.number| (magnitude x)

/-- No name of infinity or NaN is a number, whatever the reader makes of it. -/
theorem readBy_of_special (h : Special t) (reader : List Char → Option Float) :
    readBy reader t = none := by
  rw [readBy, shaped_of_special h]
  rfl

/-- With a reliable reader, the numbers are the literals that are small enough. -/
theorem isSome_readBy_iff (h : Reliable reader t) :
    (readBy reader t).isSome = true ↔ FiniteLiteral t := by
  have hfinite : ∀ l x, Writes t l → reader t = some x →
      (x.isFinite = true ↔ |l.number| < 2 ^ 1024 - 2 ^ 970) := fun l x hl hx => by
    rw [isFinite_iff, (h.rounds l x hl hx).lt_infinityBits_iff]
  constructor
  · intro hsome
    rw [readBy] at hsome
    split at hsome
    · next hshaped =>
      obtain ⟨x, hx⟩ := Option.isSome_iff_exists.1 hsome
      obtain ⟨hread, hx⟩ := Option.filter_eq_some_iff.1 hx
      have htaken : (reader t).isSome = true := by rw [hread]; rfl
      rcases h.accepts.1 htaken with ⟨l, hl⟩ | hspecial
      · exact ⟨l, hl, (hfinite l x hl hread).1 hx⟩
      · rw [shaped_of_special hspecial] at hshaped
        cases hshaped
    · cases hsome
  · rintro ⟨l, hl, hlt⟩
    obtain ⟨x, hx⟩ := Option.isSome_iff_exists.1 (h.accepts.2 (.inl ⟨l, hl⟩))
    rw [readBy, if_pos (shaped_of_writes hl), hx, Option.filter, if_pos ((hfinite l x hl hx).2 hlt)]
    rfl

/-! ## The reader of floats in use -/

/-- The float that a name of infinity or NaN stands for. -/
def special? (t : List Char) : Option Float :=
  let (negative, name) := Literal.sign t
  let name := name.map Char.toLower
  if name = "nan".toList then some (ofMagnitude negative (infinityBits + 2 ^ 51))
  else if name = "inf".toList ∨ name = "infinity".toList then
    some (ofMagnitude negative infinityBits)
  else none

/-- The float that a text writes: a literal, too large ones being infinity, or a name. -/
def float? (t : List Char) : Option Float :=
  match Literal.parse? t with
  | some l => some (ofMagnitude l.negative (min l.nearestBits infinityBits))
  | none => special? t

theorem isSome_special?_iff : (special? t).isSome = true ↔ Special t := by
  constructor
  · intro h
    obtain ⟨sgn, name, negative, rfl, hsign, hread⟩ := Literal.exists_sign t
    simp only [special?, hread] at h
    refine .mk hsign ?_
    simp only [List.mem_cons, List.not_mem_nil, or_false]
    split at h
    · next hnan => exact .inr (.inr hnan)
    · split at h
      · next hinf => exact hinf.imp_right .inl
      · cases h
  · rintro ⟨hsign, hname⟩
    obtain ⟨c, rest, rfl, -, hmark⟩ := head_of_name hname
    have hhead : ∀ d ∈ (c :: rest).head?, d ≠ '-' ∧ d ≠ '+' := by
      intro d hd
      obtain rfl := Option.some.inj hd
      constructor <;> rintro rfl <;> exact absurd hmark (by decide)
    simp only [special?, Literal.sign_append hsign hhead]
    simp only [List.mem_cons, List.not_mem_nil, or_false] at hname
    split
    · rfl
    · next hnan =>
      rw [if_pos (by tauto)]
      rfl

theorem float?_of_parse? {l : Literal} (h : Literal.parse? t = some l) :
    float? t = some (ofMagnitude l.negative (min l.nearestBits infinityBits)) := by
  rw [float?, h]

/-- Reading a number is reading a float and looking at the text and the result. -/
theorem read?_eq_readBy (t : List Char) : read? t = readBy float? t := by
  cases hparse : Literal.parse? t with
  | none =>
    rw [read?, hparse, readBy, float?, hparse]
    cases hspecial : special? t with
    | none => simp only [Option.filter_none, ite_self]
    | some x =>
      have hname : Special t := isSome_special?_iff.1 (by rw [hspecial]; rfl)
      rw [shaped_of_special hname]
      rfl
  | some l =>
    obtain ⟨exponent, hwrites⟩ := Literal.exists_writes_of_parse? hparse
    have hfinite : (ofMagnitude l.negative (min l.nearestBits infinityBits)).isFinite = true ↔
        l.nearestBits < infinityBits := by
      rw [isFinite_iff, magnitude_ofMagnitude _ (Nat.min_le_right _ _)]
      omega
    rw [read?, hparse, readBy, if_pos (shaped_of_writes hwrites), float?_of_parse? hparse,
      Option.filter]
    simp only [hfinite]
    split
    · next hlt => rw [Nat.min_eq_left hlt.le]
    · rfl

/-- An exponent of the text is below ten times the bound on what is counted of it, or the other
digits are fewer than the bound by 400. -/
def Counted (t : List Char) : Prop :=
  ∀ l, Writes t l → |l.exponent| < 10 * Literal.exponentBound ∨
    l.whole.length + l.fraction.length + 400 < Literal.exponentBound

theorem counted_of_length (h : t.length + 400 < Literal.exponentBound) : Counted t := by
  intro l hl
  have hle := hl.length_le
  omega

/-- The reader of floats takes all literals and all names, and it rounds to the nearest
magnitude. -/
theorem reliable_float? (h : Counted t) : Reliable float? t := by
  refine ⟨?_, fun l x hl hx => ?_⟩
  · rw [← Literal.isSome_parse?_iff, ← isSome_special?_iff, float?]
    cases Literal.parse? t with
    | none => simp
    | some l => simp
  · obtain ⟨n, hcounts, hparse⟩ := Literal.parse?_of_writes hl
    rw [float?_of_parse? hparse] at hx
    obtain rfl := Option.some.inj hx
    rw [magnitude_ofMagnitude _ (Nat.min_le_right _ _),
      Literal.nearestBits_counted hcounts (h l hl),
      Literal.abs_number]
    exact Literal.roundsTo_nearestBits hl.all_digits

end SlotScript.Number
