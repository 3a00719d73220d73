/-!
# Totals

The total of a weight over the members of a list.
-/

namespace SlotScript

def total {α : Type} (w : α → Nat) : List α → Nat
  | [] => 0
  | a :: l => w a + total w l

@[simp] theorem total_nil {α : Type} (w : α → Nat) : total w [] = 0 := rfl

@[simp] theorem total_cons {α : Type} (w : α → Nat) (a : α) (l : List α) :
    total w (a :: l) = w a + total w l := rfl

/-- A total changes with one of its members. -/
theorem total_set {α : Type} (w : α → Nat) (a : α) :
    ∀ (l : List α) (i : Nat) (h : i < l.length),
      total w (l.set i a) + w l[i] = total w l + w a
  | b :: l, 0, _ => by
    simp only [List.set_cons_zero, total_cons, List.getElem_cons_zero]
    omega
  | b :: l, i + 1, h => by
    have hi : i < l.length := Nat.lt_of_succ_lt_succ h
    have ih := total_set w a l i hi
    simp only [List.set_cons_succ, total_cons, List.getElem_cons_succ]
    omega

/-- The total over the members with `p` falls by the weight of a member when `q` leaves out that
member alone. -/
theorem total_filter_le {α : Type} [DecidableEq α] (w : α → Nat) {p q : α → Bool} {a : α}
    (ha : p a = true) (hq : ∀ b, q b = true ↔ p b = true ∧ b ≠ a) :
    ∀ l : List α, (a ∈ l ∨ w a = 0) → total w (l.filter q) + w a ≤ total w (l.filter p)
  | [], h => by simpa using h
  | b :: l, h => by
    by_cases hba : b = a
    · subst hba
      have hqb : q b = false := by simpa using mt (hq b).1 (by simp)
      have hle : total w (l.filter q) ≤ total w (l.filter p) := by
        by_cases hm : b ∈ l ∨ w b = 0
        · have ih := total_filter_le w ha hq l hm
          omega
        · refine Nat.le_of_eq (congrArg (total w) (List.filter_congr fun c hc => ?_))
          have hne : c ≠ b := fun e => hm (.inl (e ▸ hc))
          exact Bool.eq_iff_iff.2 ((hq c).trans (and_iff_left hne))
      simp only [List.filter_cons, ha, hqb, Bool.false_eq_true, ↓reduceIte, total_cons]
      omega
    · have hl : a ∈ l ∨ w a = 0 := by
        rcases h with h | h
        · exact .inl ((List.mem_cons.1 h).resolve_left (Ne.symm hba))
        · exact .inr h
      have ih := total_filter_le w ha hq l hl
      have hb : q b = p b := Bool.eq_iff_iff.2 ((hq b).trans (and_iff_left hba))
      simp only [List.filter_cons, hb]
      split
      · simp only [total_cons]
        omega
      · exact ih

end SlotScript
