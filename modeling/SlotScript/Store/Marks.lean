import SlotScript.Slot

/-!
# Marks on slots

A set of slots. It is kept in a binary tree of places: place `0` is at the root, and of the others
the odd ones are numbered anew on the left and the even ones on the right. Each place has the
generations that are marked. Any slot can be marked, live or stale. `mem_mark` says that marking
adds one slot and nothing else.
-/

namespace SlotScript

/-- A set of slots. -/
inductive Marks where
  | empty
  /-- The marked generations of place `0`, and the marks on the odd and the even places. -/
  | node (generations : List UInt32) (odd even : Marks)

namespace Marks

def generations : Marks → Nat → List UInt32
  | .empty, _ => []
  | .node gs odd even, i =>
    if i = 0 then gs
    else if i % 2 = 1 then odd.generations (i / 2)
    else even.generations (i / 2 - 1)

def markAt (g : UInt32) (i : Nat) (m : Marks) : Marks :=
  match m with
  | .empty =>
    if _h : i = 0 then .node [g] .empty .empty
    else if i % 2 = 1 then .node [] (markAt g (i / 2) .empty) .empty
    else .node [] .empty (markAt g (i / 2 - 1) .empty)
  | .node gs odd even =>
    if _h : i = 0 then .node (g :: gs) odd even
    else if i % 2 = 1 then .node gs (markAt g (i / 2) odd) even
    else .node gs odd (markAt g (i / 2 - 1) even)
termination_by i

/-- Marking a generation of a place adds it there and changes no other place. -/
theorem generations_markAt (g : UInt32) (i j : Nat) (m : Marks) :
    (markAt g i m).generations j = if j = i then g :: m.generations j else m.generations j := by
  induction i using Nat.strongRecOn generalizing j m with
  | ind i ih =>
    have hodd : i ≠ 0 → j ≠ 0 → i % 2 = 1 → j % 2 = 1 → (j / 2 = i / 2 ↔ j = i) := by omega
    have heven : i ≠ 0 → j ≠ 0 → ¬ i % 2 = 1 → ¬ j % 2 = 1 → (j / 2 - 1 = i / 2 - 1 ↔ j = i) := by
      omega
    cases m with
    | empty => grind [markAt, generations]
    | node gs odd even => grind [markAt, generations]

def contains (m : Marks) (s : Slot) : Bool :=
  (m.generations s.index).contains s.generation

instance : Membership Slot Marks where
  mem m s := m.contains s = true

instance (s : Slot) (m : Marks) : Decidable (s ∈ m) :=
  inferInstanceAs (Decidable (m.contains s = true))

def mark (m : Marks) (s : Slot) : Marks :=
  m.markAt s.generation s.index

/-- A slot is marked when its generation is marked at its place. -/
theorem mem_iff {m : Marks} {s : Slot} : s ∈ m ↔ s.generation ∈ m.generations s.index :=
  List.contains_iff_mem

/-- No slot is in the empty set. -/
theorem not_mem_empty (s : Slot) : s ∉ empty := by
  simp [mem_iff, generations]

/-- Marking a slot adds it to the set. -/
theorem mem_mark {m : Marks} {s t : Slot} : t ∈ m.mark s ↔ t = s ∨ t ∈ m := by
  obtain ⟨i, g⟩ := s
  obtain ⟨j, h⟩ := t
  simp only [mem_iff, mark, generations_markAt, Slot.mk.injEq]
  by_cases hij : j = i <;> simp [hij]

end Marks

end SlotScript
