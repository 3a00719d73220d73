import SlotScript.Store
import SlotScript.Store.Weight

/-!
# Well-formed stores

A store is seen through `get?`, the partial map from slots to values. Its list of vacant places is
well formed (`WF`) when it has every place without a value exactly once. On a well-formed store the
next slot is not live, so each operation changes the map at one slot only: `get?_allocate`,
`get?_vacate` and `get?_put` say which one and how. Everything else about a store's contents follows
from these three.

The bookkeeping of the journal does not touch the map at all.
-/

namespace SlotScript.Store

variable {β : Type} {st : Store β} {s t : Slot} {v w : Value β}

/-! ## The map of a store -/

theorem get?_congr {st' : Store β} (h : st'.places = st.places) : st'.get? s = st.get? s := by
  simp only [get?, h]

theorem isLive_iff : st.isLive s = true ↔ ∃ v, st.get? s = some v := by
  rw [isLive, Option.isSome_iff_exists]

theorem isLive_eq_false_iff : st.isLive s = false ↔ st.get? s = none := by
  rw [isLive, Option.isSome_eq_false_iff, Option.isNone_iff_eq_none]

theorem get_eq_ok_iff : st.get s = .ok v ↔ st.get? s = some v := by
  unfold get
  cases st.get? s <;> simp

theorem items_of_get? (h : st.get? s = some v) : st.items s = v.items := by
  simp only [items, h]

theorem items_eq_nil_of_get?_eq_none (h : st.get? s = none) : st.items s = [] := by
  simp only [items, h]

theorem isLive_of_mem_items (h : t ∈ st.items s) : st.isLive s = true := by
  cases hs : st.get? s with
  | none =>
    rw [items_eq_nil_of_get?_eq_none hs] at h
    cases h
  | some v => exact isLive_iff.2 ⟨v, hs⟩

theorem exists_list_of_mem_items (h : t ∈ st.items s) :
    ∃ items, st.get? s = some (.list items) ∧ t ∈ items := by
  obtain ⟨v, hv⟩ := isLive_iff.1 (isLive_of_mem_items h)
  rw [items_of_get? hv] at h
  cases v with
  | list items => exact ⟨items, hv, h⟩
  | _ => cases h

theorem items_congr {st' : Store β} (h : st'.get? s = st.get? s) : st'.items s = st.items s := by
  simp only [items, h]

/-! ## Vacating and overwriting -/

/-- Vacating a live slot ends that slot and no other one: another slot of the place was stale before
and is stale after. -/
theorem get?_vacate (h : st.get? s = some w) :
    (st.vacate s v).get? t = if t = s then none else st.get? t := by
  have hp := places_of_get? h
  obtain ⟨hlt, -⟩ := Array.getElem?_eq_some_iff.1 hp
  obtain ⟨i, g⟩ := s
  obtain ⟨j, k⟩ := t
  simp only [get?, vacate, Array.getElem?_setIfInBounds, Slot.mk.injEq] at hp hlt ⊢
  by_cases hij : i = j
  · subst hij
    simp only [hlt, ↓reduceIte, hp, true_and, ite_self]
    by_cases hk : k = g
    · simp only [hk, ↓reduceIte]
    · simp only [hk, Ne.symm hk, ↓reduceIte]
  · simp only [hij, ↓reduceIte, Ne.symm hij, false_and]

/-- Overwriting a live slot changes the value of that slot only. -/
theorem get?_put (h : st.get? s = some w) :
    (st.put s v).get? t = if t = s then some v else st.get? t := by
  have hp := places_of_get? h
  obtain ⟨hlt, -⟩ := Array.getElem?_eq_some_iff.1 hp
  obtain ⟨i, g⟩ := s
  obtain ⟨j, k⟩ := t
  simp only [get?, put, Array.getElem?_setIfInBounds, Slot.mk.injEq] at hp hlt ⊢
  by_cases hij : i = j
  · subst hij
    simp only [hlt, ↓reduceIte, hp, true_and]
    by_cases hk : g = k
    · simp only [hk, ↓reduceIte]
    · simp only [hk, Ne.symm hk, ↓reduceIte]
  · simp only [hij, ↓reduceIte, Ne.symm hij, false_and]

/-! ## The journal is apart from the map -/

@[simp] theorem places_note (slots : List Slot) : (st.note slots).places = st.places := by
  unfold note
  split <;> rfl

@[simp] theorem vacant_note (slots : List Slot) : (st.note slots).vacant = st.vacant := by
  unfold note
  split <;> rfl

@[simp] theorem journals_note (slots : List Slot) : (st.note slots).journals = st.journals := by
  unfold note
  split <;> rfl

@[simp] theorem tally_note (slots : List Slot) : (st.note slots).tally = st.tally := by
  unfold note
  split <;> rfl

@[simp] theorem get?_note (slots : List Slot) : (st.note slots).get? s = st.get? s :=
  get?_congr (places_note slots)

@[simp] theorem get?_openJournal : st.openJournal.2.get? s = st.get? s :=
  get?_congr rfl

@[simp] theorem get?_closeJournal (mark : Nat) : (st.closeJournal mark).2.get? s = st.get? s :=
  get?_congr rfl

theorem toList_journal_note (slots : List Slot) :
    (st.note slots).journal.toList = st.journal.toList ++
      if 0 < st.journals then slots else [] := by
  unfold note
  split <;> simp

theorem toList_journal_allocate :
    (st.allocate v).2.journal.toList =
      st.journal.toList ++ if 0 < st.journals then [st.nextSlot] else [] :=
  toList_journal_note _

@[simp] theorem journals_allocate : (st.allocate v).2.journals = st.journals :=
  journals_note _

theorem closeJournal_fst (mark : Nat) :
    (st.closeJournal mark).1 = st.journal.toList.drop mark := by
  simp only [closeJournal, Array.drop_eq_extract, Array.toList_extract, List.extract_eq_take_drop]
  exact List.take_of_length_le (by simp)

theorem toList_journal_closeJournal (mark : Nat) :
    (st.closeJournal mark).2.journal.toList = st.journal.toList.take mark := by
  simp [closeJournal, Array.shrink_eq_take]

/-! ## Well-formed stores -/

/-- The vacant places of a store are its places without a value, each listed once. -/
structure WF (st : Store β) : Prop where
  nodup : st.vacant.Nodup
  mem_vacant : ∀ {i}, i ∈ st.vacant ↔ ∃ g, st.places[i]? = some ⟨g, none⟩

namespace WF

theorem congr {st' : Store β} (h : st.WF) (hp : st'.places = st.places)
    (hv : st'.vacant = st.vacant) : st'.WF :=
  ⟨hv ▸ h.nodup, by rw [hv, hp]; exact h.mem_vacant⟩

theorem empty : (Store.empty : Store β).WF :=
  ⟨List.nodup_nil, by simp [Store.empty]⟩

theorem note (h : st.WF) (slots : List Slot) : (st.note slots).WF :=
  h.congr (places_note slots) (vacant_note slots)

theorem openJournal (h : st.WF) : st.openJournal.2.WF :=
  h.congr rfl rfl

theorem closeJournal (h : st.WF) (mark : Nat) : (st.closeJournal mark).2.WF :=
  h.congr rfl rfl

theorem index_notMem_vacant (h : st.WF) (hs : st.get? s = some v) : s.index ∉ st.vacant := by
  intro hm
  obtain ⟨g, hg⟩ := h.mem_vacant.1 hm
  rw [places_of_get? hs] at hg
  cases hg

/-- Vacating a live slot puts its place on the list. -/
theorem vacate (h : st.WF) (hs : st.get? s = some w) : (st.vacate s v).WF := by
  obtain ⟨hlt, -⟩ := Array.getElem?_eq_some_iff.1 (places_of_get? hs)
  refine ⟨List.nodup_cons.2 ⟨h.index_notMem_vacant hs, h.nodup⟩, ?_⟩
  intro i
  simp only [Store.vacate, List.mem_cons, Array.getElem?_setIfInBounds]
  by_cases hi : s.index = i
  · subst hi
    simp only [true_or, hlt, ↓reduceIte, true_iff]
    exact ⟨_, rfl⟩
  · simp only [hi, Ne.symm hi, false_or, ↓reduceIte]
    exact h.mem_vacant

theorem put (h : st.WF) (hs : st.get? s = some w) : (st.put s v).WF := by
  refine ⟨h.nodup, ?_⟩
  intro i
  simp only [Store.put, Array.getElem?_setIfInBounds]
  by_cases hi : s.index = i
  · subst hi
    have hn := h.index_notMem_vacant hs
    obtain ⟨hlt, -⟩ := Array.getElem?_eq_some_iff.1 (places_of_get? hs)
    simp only [hn, hlt, ↓reduceIte, false_iff, not_exists]
    intro g hg
    cases hg
  · simp only [hi, ↓reduceIte]
    exact h.mem_vacant

/-- The next slot is in the present generation of a place without a value, or of a new place. -/
theorem nextSlot_cases (h : st.WF) :
    (∃ rest, st.vacant = st.nextSlot.index :: rest ∧
      st.places[st.nextSlot.index]? = some ⟨st.nextSlot.generation, none⟩) ∨
    (st.vacant = [] ∧ st.nextSlot = ⟨st.places.size, 0⟩) := by
  unfold nextSlot
  cases hv : st.vacant with
  | nil => exact .inr ⟨rfl, rfl⟩
  | cons i rest =>
    obtain ⟨g, hg⟩ := h.mem_vacant.1 (hv ▸ List.mem_cons_self)
    exact .inl ⟨rest, rfl, by simp [hg]⟩

theorem get?_nextSlot (h : st.WF) : st.get? st.nextSlot = none := by
  rcases h.nextSlot_cases with ⟨rest, -, hp⟩ | ⟨-, hs⟩
  · simp only [get?, hp, ↓reduceIte]
  · simp [get?, hs]

/-- Storing a value makes the next slot live with that value and changes no other slot. -/
theorem get?_allocate (h : st.WF) :
    (st.allocate v).2.get? t = if t = st.nextSlot then some v else st.get? t := by
  rcases h.nextSlot_cases with ⟨rest, hv, hp⟩ | ⟨hv, hs⟩
  · obtain ⟨hlt, -⟩ := Array.getElem?_eq_some_iff.1 hp
    simp only [Store.allocate, get?_note]
    rw [hv]
    generalize hn : st.nextSlot = n at *
    obtain ⟨i, g⟩ := n
    obtain ⟨j, k⟩ := t
    simp only [get?, Array.getElem?_setIfInBounds, Slot.mk.injEq] at hp hlt ⊢
    by_cases hij : i = j
    · subst hij
      simp only [hlt, ↓reduceIte, hp, true_and, ite_self]
      by_cases hk : g = k
      · simp only [hk, ↓reduceIte]
      · simp only [hk, Ne.symm hk, ↓reduceIte]
    · simp only [hij, ↓reduceIte, Ne.symm hij, false_and]
  · simp only [Store.allocate, get?_note]
    rw [hv, hs]
    obtain ⟨j, k⟩ := t
    simp only [get?, Array.getElem?_push, Slot.mk.injEq]
    by_cases hj : j = st.places.size
    · subst hj
      by_cases hk : k = 0
      · simp [hk]
      · simp [hk, Ne.symm hk]
    · simp only [hj, ↓reduceIte, false_and]

/-- Storing a value takes the next slot's place off the list, or adds an occupied place. -/
theorem allocate (h : st.WF) : (st.allocate v).2.WF := by
  rcases h.nextSlot_cases with ⟨rest, hv, hp⟩ | ⟨hv, hs⟩
  · have hnd := h.nodup
    rw [hv, List.nodup_cons] at hnd
    obtain ⟨hlt, -⟩ := Array.getElem?_eq_some_iff.1 hp
    simp only [Store.allocate]
    apply WF.note
    refine ⟨by simp only [hv, List.tail_cons]; exact hnd.2, ?_⟩
    intro i
    rw [hv]
    simp only [List.tail_cons, Array.getElem?_setIfInBounds]
    by_cases hi : st.nextSlot.index = i
    · subst hi
      simp only [hnd.1, hlt, ↓reduceIte, false_iff, not_exists]
      intro g hg
      cases hg
    · have hm := h.mem_vacant (i := i)
      rw [hv, List.mem_cons] at hm
      simp only [Ne.symm hi, false_or] at hm
      simp only [hi, ↓reduceIte]
      exact hm
  · simp only [Store.allocate]
    apply WF.note
    refine ⟨by simp [hv], ?_⟩
    intro i
    have hm := h.mem_vacant (i := i)
    rw [hv] at hm ⊢
    simp only [List.tail_nil, Array.getElem?_push]
    by_cases hi : i = st.places.size
    · subst hi
      simp
    · simpa [hi] using hm

end WF

end SlotScript.Store
