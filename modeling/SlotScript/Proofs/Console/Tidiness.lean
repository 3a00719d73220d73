import SlotScript.Proofs.Console.Moves
import SlotScript.Proofs.Machine.Evaluation
import SlotScript.Proofs.Machine.Statements

/-!
# Evaluating leaves nothing unreachable

While a statement of the command line is evaluated, every live slot was there before, is reached
from a binding or a retained slot, or stands in the journal of the statement (`Tidy`). Storing a sum
keeps this because the journal is open; binding a name keeps it because what only the old binding
reached is released. The end of the statement empties the journal, and a text is a sequence of
statements, so after it every live slot that is new is reached: `covered_eval`.
-/

namespace SlotScript.Console

open Machine

variable {β : Type} {old : Slot → Prop}

/-- Every live slot is an old one or reached. -/
def Covered (old : Slot → Prop) (m : Machine β) (roots : List Slot) : Prop :=
  ∀ s, m.store.isLive s = true → old s ∨ m.store.Reaches roots s

/-- Every live slot is an old one, reached, or in the journal behind the mark. -/
structure Tidy (old : Slot → Prop) (mark : Nat) (a : Moment β) : Prop where
  opened : 0 < a.machine.store.journals
  mark_le : mark ≤ a.machine.store.journal.size
  covered : ∀ s, a.machine.store.isLive s = true →
    old s ∨ a.machine.store.Reaches a.roots s ∨ s ∈ a.machine.store.journal.toList.drop mark

namespace Tidy

variable {mark : Nat} {a b : Moment β} {es : List Event}

theorem mem_drop_append {journal written : List Slot} {s : Slot} (h : mark ≤ journal.length)
    (hs : s ∈ journal.drop mark ∨ s ∈ written) : s ∈ (journal ++ written).drop mark := by
  rw [List.drop_append_of_le_length h]
  exact List.mem_append.2 hs

/-- A machine that has stored more, and has written it into the journal, is as tidy as before. -/
theorem stores {m : Machine β} {ss : List Slot} {own : Slot → Prop} (h : Tidy old mark a)
    (hm : a.machine.store.WF) (hst : Stores a.machine ss m) : Tidy old mark ⟨m, a.ctx, own⟩ := by
  have hj : m.store.journal.toList = a.machine.store.journal.toList ++ ss := hst.journal h.opened
  have hroots : m.roots a.ctx = a.roots := by
    rw [Moment.roots, Machine.roots, Machine.roots, hst.globals, hst.retained]
  have hmark : mark ≤ a.machine.store.journal.toList.length := h.mark_le
  refine ⟨?_, ?_, ?_⟩
  · show 0 < m.store.journals
    rw [hst.run.journals]
    exact h.opened
  · show mark ≤ m.store.journal.size
    rw [← Array.length_toList, hj, List.length_append]
    omega
  · intro s hs
    show old s ∨ m.store.Reaches (m.roots a.ctx) s ∨ s ∈ m.store.journal.toList.drop mark
    rw [hj, hroots]
    by_cases hss : s ∈ ss
    · exact .inr (.inr (mem_drop_append hmark (.inr hss)))
    · have hlive : a.machine.store.isLive s = true := by
        rw [Store.isLive, ← hst.get?_of_notMem hm hss]
        exact hs
      rcases h.covered s hlive with hold | hreach | hjournal
      · exact .inl hold
      · -- A slot with items was live before, so it is not one that was stored in.
        refine .inr (.inl (hreach.closed (fun r hr => .root hr) fun r hr t ht => hr.item ?_))
        cases hr' : a.machine.store.get? r with
        | none =>
          rw [Store.items_eq_nil_of_get?_eq_none hr'] at ht
          cases ht
        | some v =>
          rw [Store.items_congr (hst.get?_of_get? hm hr' |>.trans hr'.symm)]
          exact ht
      · exact .inr (.inr (mem_drop_append hmark (.inl hjournal)))

/-- Binding a name and releasing what only its old binding reached leaves nothing unreached. -/
theorem bind {m m' : Machine β} {ctx : Context} {v : Slot} {previous rs : List Slot}
    (h : Tidy old mark a) (hb : Rebinds a.machine a.ctx v previous m ctx) (hrel : Releases m rs m')
    (hrs : ∀ t, t ∈ rs ↔ m.store.isLive t = true ∧ m.store.Reaches previous t ∧
      ¬ m.store.Reaches (m.roots ctx) t) : Tidy old mark ⟨m', ctx, a.own⟩ := by
  have hunreached : ∀ r ∈ rs, ¬ m.store.Reaches (m.roots ctx) r := fun r hr => ((hrs r).1 hr).2.2
  have hjournal : m'.store.journal = a.machine.store.journal := by rw [hrel.journal.1, hb.store]
  refine ⟨?_, ?_, ?_⟩
  · show 0 < m'.store.journals
    rw [hrel.journal.2, hb.store]
    exact h.opened
  · show mark ≤ m'.store.journal.size
    rw [hjournal]
    exact h.mark_le
  · intro s hs
    have hs : m'.store.isLive s = true := hs
    have hnot : s ∉ rs := fun hmem => ne_of_isLive hs (hrel.get?_of_mem hmem) rfl
    have hlive : m.store.isLive s = true := by
      rw [Store.isLive, ← hrel.get?_of_notMem hnot]
      exact hs
    show old s ∨ m'.store.Reaches (m'.roots ctx) s ∨ s ∈ m'.store.journal.toList.drop mark
    rw [hjournal, hrel.roots ctx hunreached, hrel.reaches_iff hunreached]
    rcases h.covered s (hb.store ▸ hlive) with hold | hreach | hj
    · exact .inl hold
    · rw [← hb.store] at hreach
      have hsplit : m.store.Reaches (m.roots ctx ++ previous) s :=
        hreach.mono fun r hr => List.mem_append.2 (hb.mem_roots' r hr)
      rcases Store.Reaches.append_iff.1 hsplit with hnew | hprev
      · exact .inr (.inl hnew)
      · refine .inr (.inl (Classical.byContradiction fun hn => ?_))
        exact hnot ((hrs s).2 ⟨hlive, hprev, hn⟩)
    · exact .inr (.inr hj)

theorem moves (h : Tidy old mark a) (ha : a.Sound) (hm : Moves a es b) : Tidy old mark b := by
  induction hm with
  | refl a => exact h
  | trans hm _ ih ih' => exact ih' (ih h ha) (hm.sound ha)
  | @aside a m hs hg hr =>
    have hroots : Moment.roots { a with machine := m } = a.roots := by
      rw [Moment.roots, Moment.roots, Machine.roots, Machine.roots, hg, hr]
    refine ⟨?_, ?_, ?_⟩
    · rw [hs]
      exact h.opened
    · rw [hs]
      exact h.mark_le
    · intro s
      rw [hs, hroots]
      exact h.covered s
  | give a x => exact h.stores ha.wf (.snoc (.nil _) (.number x))
  | bind _ hb hrel hrs => exact h.bind hb hrel hrs

/-- The end of a statement takes everything out of the journal that nothing keeps. -/
theorem closeStatement {m : Machine β} {ctx : Context} {own : Slot → Prop} {result : Option Slot}
    (h : Tidy old mark ⟨m, ctx, own⟩) :
    Covered old (m.closeStatement mark result ctx)
      (result.toList ++ (m.closeStatement mark result ctx).roots ctx) := by
  intro s hs
  obtain ⟨v, hv⟩ := Store.isLive_iff.1 hs
  rw [get?_closeStatement] at hv
  rw [roots_closeStatement, reaches_closeStatement_iff]
  split at hv
  · cases hv
  · next hkept =>
    rcases h.covered s (Store.isLive_iff.2 ⟨v, hv⟩) with hold | hreach | hj
    · exact .inl hold
    · exact .inr (hreach.mono (List.subset_append_right ..))
    · exact .inr (Classical.byContradiction fun hn => hkept ⟨hj, hn⟩)

end Tidy

/-! ## Statements -/

/-- How a statement ends that began at `m` in the context `ctx`: its text could not be read, or it
was read and its expression was evaluated. -/
inductive Ran (keep : Bool) (m : Machine β) (ctx : Context) :
    Outcome (Option Slot) × Machine β → Prop
  | unread {m' : Machine β} (e : Error) (h : Undoes m.openStatement.2 m') :
      Ran keep m ctx ((.error e, ctx), m'.closeStatement m.store.journal.size none ctx)
  | read {m' m'' : Machine β} {ss expr : List Slot} {es : List Event} {ctx' : Context}
      {own : Slot → Prop} (result : Except Error (Option Slot))
      (hl : Loads m.openStatement.2 ss expr m')
      (hm : Moves ⟨m', ctx, (· ∈ ss)⟩ es ⟨m'', ctx', own⟩) :
      Ran keep m ctx ((result, ctx'),
        m''.closeStatement m.store.journal.size (keptSlot keep result) ctx')

variable {m m' : Machine β} {ctx ctx' : Context} {call : Evaluator β} {keep : Bool}

theorem sound_of_loads {ss expr : List Slot} (hm : m.store.WF) (h : Loads m ss expr m') :
    Moment.Sound ⟨m', ctx, (· ∈ ss)⟩ :=
  ⟨h.stores.wf hm, fun _ hs _ ht => h.mem_iff.2 ((h.mem_iff.1 hs).item ht)⟩

theorem ran_runStatement (hc : Behaves call) (hm : m.store.WF)
    (hr : m.config.reclaimTemporaries = true) (statement : List Char) :
    Ran keep m ctx (runStatement call keep statement ctx m) := by
  have hopen : m.openStatement.2.store.WF := hm.openJournal
  rw [runStatement_of_reclaim hr]
  unfold evaluateOne
  split
  · next e m' hparse => exact .unread e (undoes_of_parse hopen hparse)
  · next expr m' hparse =>
    obtain ⟨ss, hl⟩ := exists_loads_of_parse hopen hparse
    have hexpr : ∀ s ∈ expr, s ∈ ss := fun s hs => hl.mem_iff.2 (.root hs)
    obtain ⟨es, own, hmoves, -⟩ := hc ⟨m', ctx, (· ∈ ss)⟩ expr (sound_of_loads hopen hl) hexpr
    exact .read _ hl hmoves

/-- What is live and reached is reached after everything was undone, although stale slots may be
retained no longer. -/
theorem reaches_of_undoes (h : Undoes m m') {s : Slot} (hs : m.store.isLive s = true)
    (hr : m.store.Reaches (m.roots ctx) s) : m'.store.Reaches (m'.roots ctx) s := by
  induction hr with
  | @root s hroot =>
    refine .root ?_
    rw [mem_roots_iff, h.globals]
    exact (mem_roots_iff.1 hroot).imp id (Or.imp (fun hret => h.mem_retained s hret hs) id)
  | @item r s hr ht ih =>
    have hlive : m.store.isLive r = true := Store.isLive_of_mem_items ht
    refine (ih hlive).item ?_
    rw [Store.items_congr (h.get? r)]
    exact ht

theorem Tidy.undoes {mark : Nat} {own : Slot → Prop} (h : Tidy old mark ⟨m, ctx, own⟩)
    (hu : Undoes m m') : Tidy old mark ⟨m', ctx, own⟩ := by
  obtain ⟨es, hrun, -⟩ := hu.run
  obtain ⟨written, hj, -⟩ := hrun.journal
  have hmark : mark ≤ m.store.journal.toList.length := h.mark_le
  refine ⟨?_, ?_, ?_⟩
  · show 0 < m'.store.journals
    rw [hrun.journals]
    exact h.opened
  · show mark ≤ m'.store.journal.size
    rw [← Array.length_toList, hj, List.length_append]
    omega
  · intro s hs
    show old s ∨ m'.store.Reaches (m'.roots ctx) s ∨ s ∈ m'.store.journal.toList.drop mark
    have hlive : m.store.isLive s = true := by
      rw [Store.isLive, ← hu.get?]
      exact hs
    rw [hj]
    rcases h.covered s hlive with hold | hreach | hjournal
    · exact .inl hold
    · exact .inr (.inl (reaches_of_undoes hu hlive hreach))
    · exact .inr (.inr (Tidy.mem_drop_append hmark (.inl hjournal)))

theorem keptSlot_false (result : Except Error (Option Slot)) : keptSlot false result = none := by
  unfold keptSlot
  split <;> rfl

end SlotScript.Console
