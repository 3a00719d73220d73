import SlotScript.Proofs.Machine.Evaluation
import SlotScript.Proofs.Machine.Routines
import SlotScript.Proofs.Store.Lasting

/-!
# Evaluations on stores whose places last

If no place has come round when an evaluation ends, then none had come round at any moment of it.
This module takes `Store.Lasts` apart along the steps of a routine and of a statement.
-/

namespace SlotScript.Machine

variable {β α γ : Type} {call : Evaluator β} {m : Machine β} {ctx : Context} {st₀ : Store β}
  {s : Slot}

theorem exists_changes_exec (hc : Runs call) (hm : m.store.WF) (r : Routine β α) (ctx : Context) :
    ∃ es, m.store.Changes es (exec call r ctx m).2.store := by
  obtain ⟨es, hrun⟩ := exists_run_runAction hc (r.run.run ctx) m hm
  exact ⟨es, hrun.changes⟩

/-- Changes lead to the end of a step, and from there to the end of what happens next. -/
structure Proceeds (m : Machine β) (out : Outcome α × Machine β)
    (f : α → Context → Machine β → Outcome γ × Machine β) : Prop where
  first : ∃ es, m.store.Changes es out.2.store
  rest : ∀ x, ∃ es, out.2.store.Changes es (f x out.1.2 out.2).2.store

/-- The store lasts through the first step, and then through the others. -/
theorem Proceeds.lasts {out : Outcome α × Machine β}
    {f : α → Context → Machine β → Outcome γ × Machine β} (hp : Proceeds m out f)
    (h : st₀.Lasts m.store) (hlast : st₀.Lasts (next out f).2.store) :
    st₀.Lasts out.2.store ∧ out.2.store.Lasts (next out f).2.store := by
  obtain ⟨⟨es, hfirst⟩, hrest⟩ := hp
  have hnext : ∃ es', out.2.store.Changes es' (next out f).2.store := by
    obtain ⟨⟨result, ctx'⟩, m'⟩ := out
    cases result with
    | error e => exact ⟨[], .refl _⟩
    | ok x => exact hrest x
  obtain ⟨es', hnext⟩ := hnext
  have hmid := h.upTo hfirst hnext hlast
  exact ⟨hmid, hmid.next hnext hlast⟩

theorem proceeds_exec (hc : Runs call) (hm : m.store.WF) (r : Routine β α) (f : α → Routine β γ)
    (ctx : Context) : Proceeds m (exec call r ctx m) fun x => exec call (f x) := by
  obtain ⟨es, hfirst⟩ := exists_changes_exec hc hm r ctx
  exact ⟨⟨es, hfirst⟩, fun x => exists_changes_exec hc (hfirst.wf hm) (f x) _⟩

/-- The store lasts through the first step of a routine, and then through the others. -/
theorem lasts_bind (hc : Runs call) (h : st₀.Lasts m.store) {r : Routine β α}
    {f : α → Routine β γ} (hlast : st₀.Lasts (exec call (r >>= f) ctx m).2.store) :
    st₀.Lasts (exec call r ctx m).2.store ∧
      (exec call r ctx m).2.store.Lasts (exec call (r >>= f) ctx m).2.store := by
  rw [exec_bind] at hlast ⊢
  exact (proceeds_exec hc h.wf r f ctx).lasts h hlast

/-! ## Statements -/

/-- What a statement has written into its journal was not handed out when it began. -/
theorem not_issued_of_mem_journal (hc : Runs call) {statement : List Char}
    (hlast : m.store.Lasts (evaluateOne call statement ctx m.openStatement.2).2.store)
    (hm : m.store.WF)
    (hs : s ∈ (evaluateOne call statement ctx m.openStatement.2).2.store.journal.toList.drop
      m.store.journal.size) : ¬ m.store.Issued s := by
  have hwf : m.openStatement.2.store.WF := hm.openJournal
  obtain ⟨es, hrun⟩ := exists_run_evaluateOne hc hwf statement ctx
  obtain ⟨written, hj, hstored⟩ := hrun.journal
  have hopen : m.store.Changes [] m.openStatement.2.store := .aside rfl rfl rfl
  rw [hj, ← Array.length_toList] at hs
  have hs : s ∈ written := by
    rwa [show m.openStatement.2.store.journal = m.store.journal from rfl, List.drop_left] at hs
  exact hlast.not_issued_of_stored (hopen.trans hrun.changes) (hstored s hs)

/-- The store lasts up to where the statement is evaluated and through its evaluation, if it lasts
until the statement has ended. -/
theorem lasts_openStatement (hc : Runs call) (h : st₀.Lasts m.store) {statement : List Char}
    {mark : Nat} {result : Option Slot} {ctx' : Context}
    (hlast : st₀.Lasts ((evaluateOne call statement ctx m.openStatement.2).2.closeStatement
      mark result ctx').store) :
    st₀.Lasts m.openStatement.2.store ∧
      st₀.Lasts (evaluateOne call statement ctx m.openStatement.2).2.store ∧
      m.store.Lasts (evaluateOne call statement ctx m.openStatement.2).2.store := by
  have hopen : m.store.Changes [] m.openStatement.2.store := .aside rfl rfl rfl
  have hwf : m.openStatement.2.store.WF := h.wf.openJournal
  obtain ⟨es, hrun⟩ := exists_run_evaluateOne hc hwf statement ctx
  obtain ⟨rs, m'', hrel, heq, -⟩ := exists_releases_closeStatement
    (evaluateOne call statement ctx m.openStatement.2).2 mark result ctx'
  have hchanges := hopen.trans hrun.changes
  have hmid := h.upTo hchanges (hrel.changes_closeStatement heq) hlast
  exact ⟨h.upTo hopen hrun.changes hmid, hmid, h.next hchanges hmid⟩

theorem lasts_evaluateOne (hc : Runs call) (h : st₀.Lasts m.store) {statement : List Char}
    (hlast : st₀.Lasts (evaluateOne call statement ctx m).2.store) :
    m.store.Lasts (evaluateOne call statement ctx m).2.store := by
  obtain ⟨es, hrun⟩ := exists_run_evaluateOne hc h.wf statement ctx
  exact h.next hrun.changes hlast

theorem lasts_closeStatement (hlast : st₀.Lasts m.store) {mark : Nat} {result : Option Slot}
    (h : st₀.Lasts (m.closeStatement mark result ctx).store) :
    m.store.Lasts (m.closeStatement mark result ctx).store := by
  obtain ⟨rs, m'', hrel, heq, -⟩ := exists_releases_closeStatement m mark result ctx
  exact hlast.next (hrel.changes_closeStatement heq) h

end SlotScript.Machine
