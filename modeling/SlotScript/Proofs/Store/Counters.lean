import Mathlib.Data.List.Induction
import Mathlib.Order.Bounds.Basic
import SlotScript.Proofs.Store.Refinement

/-!
# The counters of a store

A store counts what its array of places also tells: the places with a value, the values stored,
those stored in a place that was used before, and the releases. `Books` says how the counters, the
array and the list of vacant places go together. Every operation keeps it, one that is refused
included.

The number of places is more than a fact about one store: it is the largest number of values that
were held at once since the store was empty. A place is added only when none is vacant, so when all
places are taken (`Books.size_operate`), and no place is ever given up.
-/

namespace SlotScript.Store

variable {β : Type} {st : Store β} {s : Slot} {v w : Value β}

/-! ## Operations -/

/-- What can be done with a store: the operations of a client, and keeping journals. -/
inductive Operation (β : Type) where
  | client (op : Op β)
  | openJournal
  | closeJournal (mark : Nat)
  | note (slots : List Slot)

def operate (st : Store β) : Operation β → Store β
  | .client op => (st.runOp op).2
  | .openJournal => st.openJournal.2
  | .closeJournal mark => (st.closeJournal mark).2
  | .note slots => st.note slots

/-- The store after operations on an empty one. -/
def operateAll (ops : List (Operation β)) : Store β :=
  ops.foldl operate .empty

theorem operateAll_append (ops : List (Operation β)) (op : Operation β) :
    operateAll (ops ++ [op]) = (operateAll ops).operate op := by
  simp [operateAll]

/-! ## Places with a value -/

/-- The number of places with a value. -/
def taken (st : Store β) : Nat :=
  st.places.toList.countP (·.value.isSome)

theorem taken_set {i : Nat} {p q : Place β} (h : st.places[i]? = some p) :
    (st.places.setIfInBounds i q).toList.countP (·.value.isSome) +
        (if p.value.isSome then 1 else 0) =
      st.taken + if q.value.isSome then 1 else 0 := by
  obtain ⟨hlt, hp⟩ := Array.getElem?_eq_some_iff.1 h
  have hlt' : i < st.places.toList.length := by simpa using hlt
  have hget : st.places.toList[i] = p := by simpa using hp
  rw [Array.toList_setIfInBounds, List.countP_set hlt', hget, taken]
  by_cases hsome : p.value.isSome
  · have hpos : 0 < st.places.toList.countP (·.value.isSome) :=
      List.countP_pos_iff.2 ⟨p, hget ▸ List.getElem_mem hlt', hsome⟩
    simp only [hsome, ↓reduceIte]
    omega
  · simp [hsome]

/-! ## The live slots in order -/

theorem slotAt?_eq_some_iff {i : Nat} :
    st.slotAt? i = some s ↔ s.index = i ∧ st.isLive s = true := by
  obtain ⟨j, g⟩ := s
  cases hp : st.places[i]? with
  | none =>
    simp only [slotAt?, hp, reduceCtorEq, false_iff, not_and]
    rintro rfl
    simp [isLive, get?, hp]
  | some p =>
    simp only [slotAt?, hp, Option.ite_none_right_eq_some, Option.some.injEq, Slot.mk.injEq]
    constructor
    · rintro ⟨hv, rfl, rfl⟩
      simpa [isLive, get?, hp] using hv
    · rintro ⟨rfl, hl⟩
      simp only [isLive, get?, hp] at hl
      split at hl
      · next hg => exact ⟨hl, rfl, hg⟩
      · cases hl

/-- The slots that are listed are the live ones. -/
theorem mem_slots_iff : s ∈ st.slots ↔ st.isLive s = true := by
  simp only [slots, List.mem_filterMap, List.mem_range, slotAt?_eq_some_iff]
  constructor
  · rintro ⟨i, -, -, hl⟩
    exact hl
  · intro hl
    obtain ⟨v, hv⟩ := isLive_iff.1 hl
    exact ⟨s.index, (Array.getElem?_eq_some_iff.1 (places_of_get? hv)).1, rfl, hl⟩

theorem slots_congr {st' : Store β} (h : st'.places = st.places) : st'.slots = st.slots := by
  rw [slots, slots, h]
  exact List.filterMap_congr fun i _ => by rw [slotAt?, slotAt?, h]

/-- The slots are listed by place. -/
theorem pairwise_slots (st : Store β) : st.slots.Pairwise (·.index < ·.index) := by
  refine List.Pairwise.filterMap _ (fun i j hij s hs t ht => ?_) List.pairwise_lt_range
  rw [slotAt?_eq_some_iff] at hs ht
  rw [hs.1, ht.1]
  exact hij

theorem nodup_slots (st : Store β) : st.slots.Nodup :=
  (pairwise_slots st).imp fun hlt heq => absurd (heq ▸ hlt) (Nat.lt_irrefl _)

theorem countP_range {α : Type} (p : α → Bool) (l : List α) :
    (List.range l.length).countP (fun i => l[i]?.any p) = l.countP p := by
  induction l with
  | nil => rfl
  | cons a l ih =>
    rw [List.length_cons, List.range_succ_eq_map, List.countP_cons, List.countP_map,
      List.countP_cons, ← ih]
    rfl

theorem length_slots (st : Store β) : st.slots.length = st.taken := by
  have hsome : ∀ i, (st.slotAt? i).isSome = st.places.toList[i]?.any (·.value.isSome) := by
    intro i
    simp only [slotAt?, Array.getElem?_toList]
    cases st.places[i]? with
    | none => rfl
    | some p => cases hv : p.value <;> simp [hv]
  rw [slots, List.length_filterMap_eq_countP, taken, ← countP_range _ st.places.toList,
    Array.length_toList]
  exact congrArg (List.countP · _) (funext hsome)

/-! ## The books -/

/-- How the counters of a store go together with its places. -/
structure Books (st : Store β) : Prop extends WF st where
  occupied : st.occupied = st.taken
  size : st.occupied + st.vacant.length = st.size
  stored : st.tally.stored = st.occupied + st.tally.released
  reused : st.tally.stored = st.size + st.tally.reused

namespace Books

theorem empty : (Store.empty : Store β).Books :=
  ⟨.empty, rfl, rfl, rfl, rfl⟩

theorem note (h : st.Books) (slots : List Slot) : (st.note slots).Books := by
  unfold Store.note
  split
  · exact ⟨h.toWF.congr rfl rfl, h.occupied, h.size, h.stored, h.reused⟩
  · exact h

theorem openJournal (h : st.Books) : st.openJournal.2.Books :=
  ⟨h.toWF.openJournal, h.occupied, h.size, h.stored, h.reused⟩

theorem closeJournal (h : st.Books) (mark : Nat) : (st.closeJournal mark).2.Books :=
  ⟨h.toWF.closeJournal mark, h.occupied, h.size, h.stored, h.reused⟩

theorem put (h : st.Books) (hs : st.get? s = some w) (v : Value β) : (st.put s v).Books := by
  have htaken := taken_set (q := ⟨s.generation, some v⟩) (places_of_get? hs)
  have hsize := h.size
  have hreused := h.reused
  refine ⟨h.toWF.put hs, h.occupied.trans ?_, ?_, h.stored, ?_⟩
  · simpa [taken, Store.put] using htaken.symm
  · simpa [Store.put, Store.size] using hsize
  · simpa [Store.put, Store.size] using hreused

/-- A release takes a value out of a place, which is vacant then. -/
theorem vacate (h : st.Books) (hs : st.get? s = some v) : (st.vacate s v).Books := by
  have htaken := taken_set (q := ⟨s.generation + 1, none⟩) (places_of_get? hs)
  simp only [Option.isSome_some, ↓reduceIte, Option.isSome_none, Bool.false_eq_true,
    Nat.add_zero] at htaken
  have hoccupied := h.occupied
  have hsize := h.size
  have hstored := h.stored
  refine ⟨h.toWF.vacate hs, ?_, ?_, ?_, ?_⟩
  · simp only [Store.vacate, taken]
    omega
  · simp only [Store.vacate, Store.size, Array.size_setIfInBounds, List.length_cons] at hsize ⊢
    omega
  · simp only [Store.vacate, Tally.release]
    omega
  · simpa [Store.vacate, Tally.release, Store.size] using h.reused

/-- A value is stored in a vacant place, or in a new one when there is none. -/
theorem allocate (h : st.Books) (v : Value β) : (st.allocate v).2.Books := by
  have hwf : (st.allocate v).2.WF := h.toWF.allocate
  have hoccupied := h.occupied
  have hsize := h.size
  have hstored := h.stored
  have hreused := h.reused
  simp only [Store.allocate] at hwf ⊢
  have hwf := hwf.congr (places_note _).symm (vacant_note _).symm
  apply Books.note
  rcases h.toWF.nextSlot_cases with ⟨rest, hv, hp⟩ | ⟨hv, hs⟩
  · have htaken := taken_set (q := ⟨st.nextSlot.generation, some v⟩) hp
    simp only [Option.isSome_some, ↓reduceIte, Option.isSome_none, Bool.false_eq_true,
      Nat.add_zero] at htaken
    rw [hv, List.length_cons] at hsize
    refine ⟨hwf, ?_, ?_, ?_, ?_⟩
    · simp only [taken, hv]
      omega
    · simp only [Store.size, hv, List.tail_cons, Array.size_setIfInBounds] at hsize ⊢
      omega
    · simp only [Tally.store]
      omega
    · simp only [Store.size, Tally.store, hv, List.isEmpty_cons, Bool.not_false, ↓reduceIte,
        Array.size_setIfInBounds] at hreused ⊢
      omega
  · rw [hv, List.length_nil] at hsize
    refine ⟨hwf, ?_, ?_, ?_, ?_⟩
    · simp only [taken, hv, Array.toList_push, List.countP_append, List.countP_singleton,
        Option.isSome_some, ↓reduceIte] at hoccupied ⊢
      omega
    · simp only [Store.size, hv, List.tail_nil, List.length_nil, Array.size_push] at hsize ⊢
      omega
    · simp only [Tally.store]
      omega
    · simp only [Store.size, Tally.store, hv, List.isEmpty_nil, Bool.not_true, Bool.false_eq_true,
        ↓reduceIte, Array.size_push] at hreused ⊢
      omega

/-- A use is refused, or it overwrites or vacates the slot. -/
theorem useSlot (h : st.Books) (s : Slot) (u : Use β) : (st.useSlot s u).2.Books := by
  cases hs : st.get? s with
  | none =>
    rw [useSlot_of_stale hs]
    exact h
  | some v =>
    cases u with
    | release =>
      simp only [Store.useSlot, release, hs, settle]
      exact h.vacate hs
    | modify f =>
      simp only [Store.useSlot, modify, hs, settle, Except.map]
      exact h.put hs _
    | replace w =>
      simp only [Store.useSlot, replace, hs, settle]
      exact h.put hs w
    | get => exact h
    | kind => exact h
    | isLive => exact h

theorem operate (h : st.Books) (op : Operation β) : (st.operate op).Books := by
  cases op with
  | client op =>
    cases op with
    | allocate v => exact h.allocate v
    | use s u => exact h.useSlot s u
  | openJournal => exact h.openJournal
  | closeJournal mark => exact h.closeJournal mark
  | note slots => exact h.note slots

theorem operateAll (ops : List (Operation β)) : (Store.operateAll ops).Books := by
  induction ops using List.reverseRecOn with
  | nil => exact .empty
  | append_singleton ops op ih =>
    rw [operateAll_append]
    exact ih.operate op

/-! ## The number of places -/

/-- Storing a value adds a place exactly when all places are taken. -/
theorem size_allocate (h : st.Books) (v : Value β) :
    (st.allocate v).2.size = max st.size (st.allocate v).2.occupied := by
  have hsize := h.size
  have hbooks := (h.allocate v).size
  rcases h.toWF.nextSlot_cases with ⟨rest, hv, -⟩ | ⟨hv, -⟩
  · have hsame : (st.allocate v).2.size = st.size := by
      simp [Store.allocate, Store.size, hv]
    omega
  · have hvacant : (st.allocate v).2.vacant = [] := by
      simp [Store.allocate, hv]
    have hgrown : (st.allocate v).2.size = st.size + 1 := by
      simp [Store.allocate, Store.size, hv]
    rw [hvacant, List.length_nil] at hbooks
    omega

theorem size_useSlot (st : Store β) (s : Slot) (u : Use β) : (st.useSlot s u).2.size = st.size := by
  cases hs : st.get? s with
  | none => rw [useSlot_of_stale hs]
  | some v => cases u <;> simp [Store.useSlot, release, modify, replace, hs, settle, Except.map,
      Store.vacate, Store.put, Store.size]

/-- The places are as many as before, or as many as are taken, whichever is more. -/
theorem size_operate (h : st.Books) (op : Operation β) :
    (st.operate op).size = max st.size (st.operate op).occupied := by
  have hle := (h.operate op).size
  cases op with
  | client op =>
    cases op with
    | allocate v => exact h.size_allocate v
    | use s u =>
      have hsame : (st.operate (.client (.use s u))).size = st.size := size_useSlot st s u
      omega
  | openJournal =>
    have hsame : (st.operate .openJournal).size = st.size := rfl
    omega
  | closeJournal mark =>
    have hsame : (st.operate (.closeJournal mark)).size = st.size := rfl
    omega
  | note slots =>
    have hsame : (st.operate (.note slots)).size = st.size := by
      simp [Store.operate, Store.size]
    omega

end Books

/-- The numbers of values that were held at once in the course of the operations. -/
def occupancies (ops : List (Operation β)) : Set Nat :=
  { n | ∃ before after, ops = before ++ after ∧ n = (operateAll before).occupied }

theorem occupancies_append (ops : List (Operation β)) (op : Operation β) :
    occupancies (ops ++ [op]) = insert (operateAll (ops ++ [op])).occupied (occupancies ops) := by
  ext n
  simp only [occupancies, Set.mem_ofPred_eq, Set.mem_insert_iff]
  constructor
  · rintro ⟨before, after, heq, rfl⟩
    rcases List.eq_nil_or_concat after with rfl | ⟨after', last, rfl⟩
    · rw [heq, List.append_nil]
      exact .inl rfl
    · rw [List.concat_eq_append, ← List.append_assoc] at heq
      exact .inr ⟨before, after', (List.append_inj' heq rfl).1, rfl⟩
  · rintro (rfl | ⟨before, after, rfl, rfl⟩)
    · exact ⟨ops ++ [op], [], by rw [List.append_nil], rfl⟩
    · exact ⟨before, after ++ [op], by rw [List.append_assoc], rfl⟩

/-- There are as many places as values were ever held at once. -/
theorem isGreatest_size (ops : List (Operation β)) :
    IsGreatest (occupancies ops) (operateAll ops).size := by
  induction ops using List.reverseRecOn with
  | nil =>
    refine ⟨⟨[], [], rfl, rfl⟩, ?_⟩
    rintro n ⟨before, after, heq, rfl⟩
    rw [(List.append_eq_nil_iff.1 heq.symm).1]
    exact Nat.le_refl 0
  | append_singleton ops op ih =>
    rw [occupancies_append, operateAll_append, (Books.operateAll ops).size_operate, max_comm]
    exact ih.insert _

/-- The index of the slot that is handed out next is the same number in 32 bits, as long as fewer
than `2 ^ 32` values were ever held at once. -/
theorem toNat_index_nextSlot {ops : List (Operation β)}
    (h : ∀ n ∈ occupancies ops, n < UInt32.size) :
    (UInt32.ofNat (operateAll ops).nextSlot.index).toNat = (operateAll ops).nextSlot.index := by
  have hsize : (operateAll ops).size < UInt32.size := h _ (isGreatest_size ops).1
  have hindex : (operateAll ops).nextSlot.index ≤ (operateAll ops).size := by
    rcases (Books.operateAll ops).nextSlot_cases with ⟨rest, -, hplace⟩ | ⟨-, hnew⟩
    · exact (Array.getElem?_eq_some_iff.1 hplace).1.le
    · rw [hnew]
      exact Nat.le_refl _
  exact UInt32.toNat_ofNat_of_lt (hindex.trans_lt hsize)

/-- After every sequence of operations the vacant places are those without a value, each once; the
counters agree with the places and with each other; there are as many places as values were ever
held at once; and the slots that are listed, by place, are the live ones. -/
theorem books_operateAll (ops : List (Operation β)) :
    let st := operateAll ops
    st.vacant.Nodup ∧ (∀ i, i ∈ st.vacant ↔ ∃ g, st.places[i]? = some ⟨g, none⟩) ∧
    st.occupied = st.places.toList.countP (·.value.isSome) ∧
    st.occupied + st.vacant.length = st.size ∧
    st.tally.stored = st.occupied + st.tally.released ∧
    st.tally.stored = st.size + st.tally.reused ∧
    IsGreatest (occupancies ops) st.size ∧
    st.slots.Pairwise (·.index < ·.index) ∧ (∀ s, s ∈ st.slots ↔ st.isLive s = true) ∧
    st.slots.length = st.occupied := by
  intro st
  have h : st.Books := .operateAll ops
  exact ⟨h.nodup, fun _ => h.mem_vacant, h.occupied, h.size, h.stored, h.reused,
    isGreatest_size ops, pairwise_slots st, fun _ => mem_slots_iff,
    (length_slots st).trans h.occupied.symm⟩

end SlotScript.Store
