import SlotScript.Proofs.Store.History

/-!
# Stores whose places last

A slot has ended when its place has moved on to a later generation. A slot that has ended could
become live again only if its place came round to its first generation. `Lasts st st'` says that
changes lead from `st` to `st'` and that no place has come round by then, from the empty store on;
so between two such stores a slot that has ended stays so (`Lasts.ended`), and a slot that was
handed out and is live was live before (`Lasts.isLive`).

The events are hidden: whichever changes lead from `st` to `st'`, the places end equally often, so
`Lasts` can be taken apart at every store on the way (`Lasts.split`).
-/

namespace SlotScript.Store

open Event (Sparing)

variable {β : Type} {st st' st'' : Store β} {es es' : List Event} {s : Slot} {v : Value β}

/-- The place of the slot has moved on to a later generation. -/
def Ended (st : Store β) (s : Slot) : Prop :=
  s.generation < st.generation s.index

theorem Ended.get? (h : st.Ended s) : st.get? s = none := by
  cases hs : st.get? s with
  | none => rfl
  | some v =>
    rw [Ended, generation_of_get? hs] at h
    exact absurd h (UInt32.lt_irrefl _)

theorem Issued.ended (h : st.Issued s) (hs : st.get? s = none) : st.Ended s := by
  refine h.resolve_left fun hl => ?_
  rw [isLive, hs] at hl
  cases hl

theorem issued_allocate (h : st.WF) (hs : st.Issued s) : (st.allocate v).2.Issued s := by
  rcases hs with hl | hlt
  · refine .inl ?_
    rw [isLive, h.get?_allocate]
    split
    · rfl
    · exact hl
  · refine .inr ?_
    rwa [generation_allocate h]

/-- What was handed out in `st` has the same value in `st'`, or none. -/
def Fades (st st' : Store β) : Prop :=
  ∀ s, st.Issued s → st'.get? s = st.get? s ∨ st'.get? s = none

/-- Changes lead from `st` to `st'`, and no place of `st'` has come round to its first
generation. -/
def Lasts (st st' : Store β) : Prop :=
  ∃ past es, Accounts past st ∧ Changes st es st' ∧ Sparing (past ++ es)

namespace Lasts

theorem wf (h : Lasts st st') : st'.WF := by
  obtain ⟨past, es, ha, hc, -⟩ := h
  exact hc.wf ha.wf

/-- Whichever changes lead from the first store to the second one, they are sparing. -/
theorem accounts (h : Lasts st st') (hc : Changes st es st') :
    ∃ past, Accounts past st ∧ Sparing (past ++ es) := by
  obtain ⟨past, es', ha, hc', hes⟩ := h
  exact ⟨past, ha, hc'.sparing_of_sparing hc ha.wf hes⟩

theorem split (h : Lasts st st'') (hc : Changes st es st') (hc' : Changes st' es' st'') :
    Lasts st st' ∧ Lasts st' st'' := by
  obtain ⟨past, ha, hes⟩ := h.accounts (hc.trans hc')
  rw [← List.append_assoc] at hes
  exact ⟨⟨past, es, ha, hc, hes.of_append⟩, ⟨past ++ es, es', ha.changes hc, hc', hes⟩⟩

theorem refl_left (h : Lasts st st') : Lasts st st := by
  obtain ⟨past, es, ha, -, hes⟩ := h
  exact ⟨past, [], ha, .refl st, by rw [List.append_nil]; exact hes.of_append⟩

/-- The way from the second of three stores to the third one. -/
theorem next (h : Lasts st st') (hc : Changes st' es st'') (h' : Lasts st st'') :
    Lasts st' st'' := by
  obtain ⟨past, es', -, hc', -⟩ := h
  exact (h'.split hc' hc).2

/-- The way from the first of four stores to the third one. -/
theorem upTo {st₀ : Store β} (h : Lasts st₀ st) (hc : Changes st es st')
    (hc' : Changes st' es' st'') (h' : Lasts st₀ st'') : Lasts st₀ st' := by
  obtain ⟨past, es₀, -, hc₀, -⟩ := h
  exact (h'.split (hc₀.trans hc) hc').1

theorem issued (h : Lasts st st') (hs : st.Issued s) : st'.Issued s := by
  obtain ⟨past, es, ha, hc, hes⟩ := h
  exact ha.issued_mono hc hes hs

theorem ended (h : Lasts st st') (hs : st.Ended s) : st'.Ended s := by
  obtain ⟨past, es, ha, hc, hes⟩ := h
  have hcount := (ha.changes hc).toNat_generation hes s.index
  rw [Event.endings_append, List.count_append, ← ha.toNat_generation hes.of_append] at hcount
  have hlt := UInt32.lt_iff_toNat_lt.1 hs
  exact UInt32.lt_iff_toNat_lt.2 (by omega)

/-- A slot that is live was live ever since it was handed out. -/
theorem isLive (h : Lasts st st') (hs : st.Issued s) (hl : st'.isLive s = true) :
    st.isLive s = true := by
  refine hs.resolve_right fun he => ?_
  rw [Store.isLive, (h.ended he).get?] at hl
  cases hl

theorem not_issued_of_stored (h : Lasts st st') (hc : Changes st es st') (hs : .stored s ∈ es) :
    ¬ st.Issued s := by
  obtain ⟨past, ha, hes⟩ := h.accounts hc
  exact ha.not_issued_of_stored hc hes hs

end Lasts

end SlotScript.Store
