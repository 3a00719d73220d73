/-!
# Numbers from their digits

A run of digits is a polynomial in the base. `ofDigits` evaluates it by joining neighbours, which
halves the run and squares the base, so that long runs take few multiplications of long numbers.
`ofDigits_eq_foldr` says that this is the value of the polynomial.
-/

namespace SlotScript.Number

/-- Joins the digits in base `b`, the lowest first, to digits in base `b * b`. -/
def joinPairs (b : Nat) : List Nat → List Nat
  | low :: high :: rest => (low + b * high) :: joinPairs b rest
  | rest => rest

/-- `ofDigits` for runs that `fuel` joins bring down to one digit. -/
def ofDigitsFrom : Nat → Nat → List Nat → Nat
  | fuel + 1, b, d :: e :: rest => ofDigitsFrom fuel (b * b) (joinPairs b (d :: e :: rest))
  | _, _, ds => ds.headD 0

/-- The number with given digits in base `b`, the lowest first. -/
def ofDigits (b : Nat) (ds : List Nat) : Nat :=
  ofDigitsFrom ds.length b ds

/-- Joining digits keeps the value of the polynomial. -/
theorem foldr_joinPairs (b : Nat) :
    ∀ ds : List Nat,
      (joinPairs b ds).foldr (fun d n => d + b * b * n) 0 = ds.foldr (fun d n => d + b * n) 0
  | [] => rfl
  | [_] => rfl
  | low :: high :: rest => by
    simp only [joinPairs, List.foldr_cons]
    rw [foldr_joinPairs b rest, Nat.mul_add, Nat.mul_assoc, Nat.add_assoc]

/-- Joining digits halves the length of a run, rounded up. -/
theorem length_joinPairs_le (b : Nat) :
    ∀ ds : List Nat, (joinPairs b ds).length ≤ (ds.length + 1) / 2
  | [] => by simp [joinPairs]
  | [_] => by simp [joinPairs]
  | _ :: _ :: rest => by
    have ih := length_joinPairs_le b rest
    simp only [joinPairs, List.length_cons]
    omega

/-- With enough fuel the joins give the value of the polynomial. -/
theorem ofDigitsFrom_eq_foldr :
    ∀ (fuel b : Nat) (ds : List Nat), ds.length ≤ fuel + 1 →
      ofDigitsFrom fuel b ds = ds.foldr (fun d n => d + b * n) 0
  | fuel, b, [], _ => by cases fuel <;> simp [ofDigitsFrom]
  | fuel, b, [d], _ => by cases fuel <;> simp [ofDigitsFrom]
  | 0, _, _ :: _ :: _, h => by simp at h
  | fuel + 1, b, d :: e :: rest, h => by
    have hl := length_joinPairs_le b (d :: e :: rest)
    simp only [List.length_cons] at h hl
    rw [ofDigitsFrom, ofDigitsFrom_eq_foldr fuel _ _ (by omega), foldr_joinPairs]

/-- The number of a run of digits is the value of its polynomial. -/
theorem ofDigits_eq_foldr (b : Nat) (ds : List Nat) :
    ofDigits b ds = ds.foldr (fun d n => d + b * n) 0 :=
  ofDigitsFrom_eq_foldr _ _ _ (Nat.le_succ _)

end SlotScript.Number
