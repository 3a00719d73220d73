import Mathlib.Data.List.Perm.Subperm
import SlotScript.Proofs.Store.WellFormed

/-!
# The history of a store

What happens to the slots of a store is a list of events: a value is stored in a slot, or the slot
ends. `Changes st es st'` says that the operations of a store lead from `st` to `st'` with the
events `es`. The place of a slot is in the generation that counts, modulo `2 ^ 32`, how often its
slots ended (`Changes.generation`).

`Accounts es st` says that `es` tells all that ever happened to `st`. A slot that was stored in and
is stale has a generation that its place has left behind, so as long as no place comes round to the
first generation again, the next slot is one that was never stored in before:
`Accounts.nextSlot_notMem`.
-/

namespace SlotScript

/-- What happens to a slot in the course of a run. -/
inductive Event where
  /-- A value was stored in the slot. -/
  | stored (s : Slot)
  /-- A request released the slot. -/
  | released (s : Slot)
  /-- The slot was stored in for a text that could not be read, and was released again. -/
  | undone (s : Slot)
  /-- The slot was released at the end of a statement. -/
  | reclaimed (s : Slot)
  deriving DecidableEq

namespace Event

/-- The slot that an event ends. -/
def ended? : Event → Option Slot
  | .stored _ => none
  | .released s => some s
  | .undone s => some s
  | .reclaimed s => some s

/-- The places of the slots that events end, in order. -/
def endings (es : List Event) : List Nat :=
  es.filterMap fun e => e.ended?.map Slot.index

@[simp] theorem endings_nil : endings [] = [] :=
  rfl

@[simp] theorem endings_append (es es' : List Event) :
    endings (es ++ es') = endings es ++ endings es' :=
  List.filterMap_append

/-- No place ends as often as there are generations. -/
def Sparing (es : List Event) : Prop :=
  ∀ i, (endings es).count i < UInt32.size

theorem Sparing.of_append {es es' : List Event} (h : Sparing (es ++ es')) : Sparing es := by
  intro i
  have hi := h i
  rw [endings_append, List.count_append] at hi
  omega

end Event

namespace Store

open Event (endings Sparing)

variable {β : Type} {st st' : Store β} {es es' : List Event} {s : Slot} {v w : Value β}

/-! ## The generation of a place -/

/-- The generation of a place; a place that is still to come is in the first one. -/
def generation (st : Store β) (i : Nat) : UInt32 :=
  (st.places[i]?.map (·.generation)).getD 0

theorem generation_congr (h : st'.places = st.places) (i : Nat) :
    st'.generation i = st.generation i := by
  simp only [generation, h]

theorem generation_of_get? (h : st.get? s = some v) : st.generation s.index = s.generation := by
  simp [generation, places_of_get? h]

theorem generation_put (h : st.get? s = some w) (i : Nat) :
    (st.put s v).generation i = st.generation i := by
  have hp := places_of_get? h
  obtain ⟨hlt, -⟩ := Array.getElem?_eq_some_iff.1 hp
  simp only [generation, put, Array.getElem?_setIfInBounds]
  by_cases hi : s.index = i
  · subst hi
    simp only [↓reduceIte, hlt, hp, Option.map_some]
  · simp [hi]

theorem generation_vacate (h : st.get? s = some w) (i : Nat) :
    (st.vacate s v).generation i = st.generation i + if s.index = i then 1 else 0 := by
  have hp := places_of_get? h
  obtain ⟨hlt, -⟩ := Array.getElem?_eq_some_iff.1 hp
  simp only [generation, vacate, Array.getElem?_setIfInBounds]
  by_cases hi : s.index = i
  · subst hi
    simp only [↓reduceIte, hlt, hp, Option.map_some, Option.getD_some]
  · simp [hi]

theorem generation_nextSlot (h : st.WF) :
    st.generation st.nextSlot.index = st.nextSlot.generation := by
  rcases h.nextSlot_cases with ⟨rest, -, hp⟩ | ⟨-, hs⟩
  · simp [generation, hp]
  · simp [generation, hs]

theorem generation_allocate (h : st.WF) (i : Nat) :
    (st.allocate v).2.generation i = st.generation i := by
  rcases h.nextSlot_cases with ⟨rest, hv, hp⟩ | ⟨hv, hs⟩
  · obtain ⟨hlt, -⟩ := Array.getElem?_eq_some_iff.1 hp
    rw [allocate, generation_congr (places_note _), hv]
    simp only [generation, Array.getElem?_setIfInBounds]
    by_cases hi : st.nextSlot.index = i
    · subst hi
      simp only [↓reduceIte, hlt, hp, Option.map_some]
    · simp [hi]
  · rw [allocate, generation_congr (places_note _), hv, hs]
    simp only [generation, Array.getElem?_push]
    by_cases hi : i = st.places.size
    · subst hi
      simp
    · simp [hi]

/-! ## Writing on in the journal -/

/-- The journal of `st'` is that of `st` with more behind it, and every slot there is one that the
events store in. -/
def WritesOn (st : Store β) (es : List Event) (st' : Store β) : Prop :=
  ∃ written, st'.journal.toList = st.journal.toList ++ written ∧ ∀ s ∈ written, .stored s ∈ es

namespace WritesOn

theorem same (h : st'.journal = st.journal) : WritesOn st es st' :=
  ⟨[], by rw [h, List.append_nil], fun _ hs => absurd hs List.not_mem_nil⟩

theorem trans {st'' : Store β} {es' : List Event} (h : WritesOn st es st')
    (h' : WritesOn st' es' st'') : WritesOn st (es ++ es') st'' := by
  obtain ⟨w, hw, hes⟩ := h
  obtain ⟨w', hw', hes'⟩ := h'
  refine ⟨w ++ w', by rw [hw', hw, List.append_assoc], ?_⟩
  intro s hs
  rcases List.mem_append.1 hs with hs | hs
  · exact List.mem_append_left _ (hes s hs)
  · exact List.mem_append_right _ (hes' s hs)

theorem allocate (st : Store β) (v : Value β) :
    WritesOn st [.stored st.nextSlot] (st.allocate v).2 := by
  refine ⟨_, toList_journal_allocate, ?_⟩
  intro s hs
  split at hs
  · rw [List.mem_singleton] at hs ⊢
    rw [hs]
  · cases hs

end WritesOn

/-! ## Changes of a store -/

/-- The operations of a store lead from one store to another. -/
inductive Changes : Store β → List Event → Store β → Prop
  /-- The journal and the counters of stored values change. -/
  | aside {st st' : Store β} (hp : st'.places = st.places) (hv : st'.vacant = st.vacant)
      (ht : st'.tally.released = st.tally.released) : Changes st [] st'
  | trans {st st' st'' : Store β} {es es' : List Event} (h : Changes st es st')
      (h' : Changes st' es' st'') : Changes st (es ++ es') st''
  /-- A value is stored in the next slot. -/
  | store (st : Store β) (v : Value β) : Changes st [.stored st.nextSlot] (st.allocate v).2
  /-- A live slot is overwritten. -/
  | put {st : Store β} {s : Slot} {w : Value β} (hs : st.get? s = some w) (v : Value β) :
      Changes st [] (st.put s v)
  /-- A live slot ends. -/
  | vacate {st : Store β} {s : Slot} {v : Value β} {e : Event} (hs : st.get? s = some v)
      (he : e.ended? = some s) : Changes st [e] (st.vacate s v)

namespace Changes

theorem refl (st : Store β) : Changes st [] st :=
  .aside rfl rfl rfl

theorem wf (h : Changes st es st') (hst : st.WF) : st'.WF := by
  induction h with
  | aside hp hv ht => exact hst.congr hp hv
  | trans _ _ ih ih' => exact ih' (ih hst)
  | store st v => exact hst.allocate
  | put hs v => exact hst.put hs
  | vacate hs he => exact hst.vacate hs

/-- A place moves on by one generation each time one of its slots ends. -/
theorem generation (h : Changes st es st') (hst : st.WF) (i : Nat) :
    st'.generation i = st.generation i + UInt32.ofNat ((endings es).count i) := by
  induction h with
  | aside hp hv ht => simp [generation_congr hp]
  | trans h _ ih ih' =>
    rw [ih' (h.wf hst), ih hst, Event.endings_append, List.count_append, UInt32.ofNat_add,
      UInt32.add_assoc]
  | store st v => simp [generation_allocate hst, endings, Event.ended?]
  | put hs v => simp [generation_put hs]
  | @vacate st s v e hs he =>
    rw [generation_vacate hs]
    by_cases hi : s.index = i
    · simp [endings, he, hi]
    · simp [endings, he, hi]

theorem released (h : Changes st es st') :
    st'.tally.released = st.tally.released + (endings es).length := by
  induction h with
  | aside hp hv ht => simp [ht]
  | trans _ _ ih ih' => rw [ih', ih, Event.endings_append, List.length_append, Nat.add_assoc]
  | store st v =>
    simp only [allocate, note]
    split <;> simp [Tally.store, endings, Event.ended?]
  | put hs v => rfl
  | vacate hs he => simp [Store.vacate, Tally.release, endings, he]

/-- The counter of releases bounds how often a place ends. -/
theorem sparing (h : Changes st es st') (hlt : st'.tally.released < UInt32.size) : Sparing es := by
  intro i
  have hcount : (endings es).count i ≤ (endings es).length := List.count_le_length
  have hreleased := h.released
  omega

/-- Between two stores the places end equally often whichever way the changes go, provided that one
way does not take a place through all generations: the generations tell the numbers modulo `2 ^ 32`,
and the counter of releases their sum. -/
theorem perm_endings (h : Changes st es st') (h' : Changes st es' st') (hst : st.WF)
    (hes : Sparing es) : (endings es).Perm (endings es') := by
  have hcount : ∀ i, (endings es).count i ≤ (endings es').count i := by
    intro i
    have hgen : UInt32.ofNat ((endings es).count i) = UInt32.ofNat ((endings es').count i) := by
      refine UInt32.add_right_inj (st.generation i) |>.1 ?_
      rw [← h.generation hst, ← h'.generation hst]
    have hmod := congrArg UInt32.toNat hgen
    rw [UInt32.toNat_ofNat_of_lt' (hes i), UInt32.toNat_ofNat'] at hmod
    rw [hmod]
    exact Nat.mod_le ..
  have hlen : (endings es').length ≤ (endings es).length := by
    have h1 := h.released
    have h2 := h'.released
    omega
  exact (List.subperm_ext_iff.2 fun i _ => hcount i).perm_of_length_le hlen

theorem sparing_of_sparing (h : Changes st es st') (h' : Changes st es' st') (hst : st.WF)
    {past : List Event} (hes : Sparing (past ++ es)) : Sparing (past ++ es') := by
  intro i
  have hi := hes i
  have hes' : Sparing es := by
    intro j
    have hj := hes j
    rw [Event.endings_append, List.count_append] at hj
    omega
  rw [Event.endings_append, List.count_append] at hi ⊢
  rwa [← (h.perm_endings h' hst hes').count_eq i]

end Changes

/-! ## Whole histories -/

/-- The events `es` are all that ever happened to the slots of `st`. -/
structure Accounts (es : List Event) (st : Store β) : Prop where
  wf : st.WF
  generation : ∀ i, st.generation i = UInt32.ofNat ((endings es).count i)
  live : ∀ s, st.isLive s = true → .stored s ∈ es
  stale : ∀ s, .stored s ∈ es → st.isLive s = false →
    ∃ n < (endings es).count s.index, s.generation = UInt32.ofNat n

namespace Accounts

theorem empty : Accounts [] (Store.empty : Store β) :=
  ⟨.empty, fun _ => rfl, fun s h => by simp [isLive, get?, Store.empty] at h,
    fun s h => absurd h List.not_mem_nil⟩

/-- The next slot is one that was never stored in, as long as no place comes round. -/
theorem nextSlot_notMem (h : Accounts es st) (hes : Sparing es) : .stored st.nextSlot ∉ es := by
  intro hmem
  obtain ⟨n, hn, hgen⟩ := h.stale _ hmem (isLive_eq_false_iff.2 h.wf.get?_nextSlot)
  rw [← generation_nextSlot h.wf, h.generation] at hgen
  have hlt := hes st.nextSlot.index
  have heq := congrArg UInt32.toNat hgen
  rw [UInt32.toNat_ofNat_of_lt' hlt, UInt32.toNat_ofNat_of_lt' (Nat.lt_trans hn hlt)] at heq
  omega

theorem aside (h : Accounts es st) (hp : st'.places = st.places) (hv : st'.vacant = st.vacant) :
    Accounts es st' := by
  have hlive : ∀ s, st'.isLive s = st.isLive s := fun s => by rw [isLive, get?_congr hp]; rfl
  refine ⟨h.wf.congr hp hv, ?_, ?_, ?_⟩
  · intro i
    rw [generation_congr hp, h.generation]
  · intro s hs
    exact h.live s (hlive s ▸ hs)
  · intro s hs hn
    exact h.stale s hs (hlive s ▸ hn)

theorem store (h : Accounts es st) (v : Value β) :
    Accounts (es ++ [.stored st.nextSlot]) (st.allocate v).2 := by
  have hend : endings (es ++ [.stored st.nextSlot]) = endings es := by
    simp [endings, Event.ended?]
  refine ⟨h.wf.allocate, ?_, ?_, ?_⟩
  · intro i
    rw [generation_allocate h.wf, h.generation, hend]
  · intro s hs
    rw [isLive, h.wf.get?_allocate] at hs
    by_cases hsn : s = st.nextSlot
    · simp [hsn]
    · rw [if_neg hsn] at hs
      exact List.mem_append_left _ (h.live s hs)
  · intro s hs hn
    rw [isLive_eq_false_iff, h.wf.get?_allocate] at hn
    split at hn
    · cases hn
    · next hsn =>
      rw [hend]
      refine h.stale s ?_ (isLive_eq_false_iff.2 hn)
      simpa [hsn] using hs

theorem put (h : Accounts es st) (hs : st.get? s = some w) (v : Value β) :
    Accounts es (st.put s v) := by
  have hlive : ∀ t, (st.put s v).isLive t = st.isLive t := by
    intro t
    rw [isLive, isLive, get?_put hs]
    split
    · next ht => rw [ht, hs]; rfl
    · rfl
  refine ⟨h.wf.put hs, ?_, ?_, ?_⟩
  · intro i
    rw [generation_put hs, h.generation]
  · intro t ht
    exact h.live t (hlive t ▸ ht)
  · intro t ht hn
    exact h.stale t ht (hlive t ▸ hn)

theorem vacate (h : Accounts es st) (hs : st.get? s = some v) {e : Event}
    (he : e.ended? = some s) : Accounts (es ++ [e]) (st.vacate s v) := by
  have hend : ∀ i, (endings (es ++ [e])).count i =
      (endings es).count i + if s.index = i then 1 else 0 := by
    intro i
    simp only [endings, List.filterMap_append, List.filterMap_cons, he, List.filterMap_nil,
      Option.map_some, List.count_append, List.count_singleton, beq_iff_eq]
  have hstored : ∀ t, .stored t ∈ es ++ [e] ↔ .stored t ∈ es := by
    intro t
    rw [List.mem_append, List.mem_singleton, or_iff_left]
    rintro rfl
    cases he
  refine ⟨h.wf.vacate hs, ?_, ?_, ?_⟩
  · intro i
    rw [generation_vacate hs, h.generation, hend]
    split <;> simp
  · intro t ht
    rw [isLive, get?_vacate hs] at ht
    split at ht
    · cases ht
    · exact (hstored t).2 (h.live t ht)
  · intro t ht hn
    rw [hstored] at ht
    rw [isLive_eq_false_iff, get?_vacate hs] at hn
    rw [hend]
    split at hn
    · -- The slot that ends was in the generation of its place, which moves on.
      next hts =>
      refine ⟨(endings es).count s.index, by simp [hts], ?_⟩
      rw [hts, ← h.generation, generation_of_get? hs]
    · obtain ⟨n, hn, hgen⟩ := h.stale t ht (isLive_eq_false_iff.2 hn)
      exact ⟨n, by omega, hgen⟩

theorem changes (h : Accounts es st) (hc : Changes st es' st') : Accounts (es ++ es') st' := by
  induction hc generalizing es with
  | aside hp hv ht => rw [List.append_nil]; exact h.aside hp hv
  | trans _ _ ih ih' => rw [← List.append_assoc]; exact ih' (ih h)
  | store st v => exact h.store v
  | put hs v => rw [List.append_nil]; exact h.put hs v
  | vacate hs he => exact h.vacate hs he

end Accounts

/-! ## Slots that were handed out -/

/-- The slot is live, or its place has moved on to a later generation. As long as no place comes
round to its first generation, these are the slots that were ever stored in. -/
def Issued (st : Store β) (s : Slot) : Prop :=
  st.isLive s = true ∨ s.generation < st.generation s.index

theorem issued_of_get? (h : st.get? s = some v) : st.Issued s :=
  .inl (isLive_iff.2 ⟨v, h⟩)

theorem not_issued_nextSlot (h : st.WF) : ¬ st.Issued st.nextSlot := by
  rintro (hlive | hlt)
  · rw [isLive, h.get?_nextSlot] at hlive
    cases hlive
  · rw [generation_nextSlot h] at hlt
    exact UInt32.lt_irrefl _ hlt

theorem Accounts.toNat_generation (h : Accounts es st) (hes : Sparing es) (i : Nat) :
    (st.generation i).toNat = (endings es).count i := by
  rw [h.generation, UInt32.toNat_ofNat_of_lt' (hes i)]

theorem Accounts.issued (h : Accounts es st) (hes : Sparing es) (hs : .stored s ∈ es) :
    st.Issued s := by
  cases hlive : st.isLive s with
  | true => exact .inl hlive
  | false =>
    obtain ⟨n, hn, hgen⟩ := h.stale s hs hlive
    have hlt := hes s.index
    refine .inr (UInt32.lt_iff_toNat_lt.2 ?_)
    rw [h.toNat_generation hes, hgen, UInt32.toNat_ofNat_of_lt' (Nat.lt_trans hn hlt)]
    exact hn

theorem Accounts.issued_mono (h : Accounts es st) (hc : Changes st es' st')
    (hes : Sparing (es ++ es')) (hs : st.Issued s) : st'.Issued s := by
  have h' := h.changes hc
  rcases hs with hlive | hlt
  · exact h'.issued hes (List.mem_append_left _ (h.live s hlive))
  · refine .inr (UInt32.lt_iff_toNat_lt.2 (Nat.lt_of_lt_of_le (UInt32.lt_iff_toNat_lt.1 hlt) ?_))
    rw [h'.toNat_generation hes, h.toNat_generation hes.of_append, Event.endings_append,
      List.count_append]
    omega

theorem Accounts.not_issued_of_stored (h : Accounts es st) (hc : Changes st es' st')
    (hes : Sparing (es ++ es')) (hs : .stored s ∈ es') : ¬ st.Issued s := by
  induction hc generalizing es with
  | aside hp hv ht => cases hs
  | trans hc _ ih ih' =>
    rw [← List.append_assoc] at hes
    rcases List.mem_append.1 hs with hs | hs
    · exact ih h hes.of_append hs
    · exact fun hi => ih' (h.changes hc) hes hs (h.issued_mono hc hes.of_append hi)
  | store st v =>
    cases List.mem_singleton.1 hs
    exact not_issued_nextSlot h.wf
  | put _ v => cases hs
  | vacate _ he =>
    cases List.mem_singleton.1 hs
    cases he

end Store

end SlotScript
