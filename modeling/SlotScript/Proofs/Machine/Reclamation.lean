import SlotScript.Proofs.Machine.Requests
import SlotScript.Vocabulary.Console

/-!
# The end of a statement spares what is in use

When a statement ends, `closeStatement` releases slots on the strength of a journal and a search
alone. `runStatement_spares` says that this never ends a slot in use: whatever the builtins of the
library did meanwhile, evaluating further texts in contexts of their own included, what is released
was stored since the statement began, and neither the kept result nor a binding nor a retained slot
reaches it. So a slot that was live when the statement began outlives it, unless one of the requests
in the log of the statement was to release it.

The argument is in four lemmas about runs. What stands behind the statement's mark in the journal
was stored by the run of the statement (`Run.journal`); what is released by request is due to a
request in the log (`tracks_freesOnly`); a slot that was live before and that no request released
was not stored anew (`Run.isLive`); and the search finds all that is reached (`Store.mem_reach`).
-/

namespace SlotScript.Machine

variable {β : Type} {m m' : Machine β} {es : List Event} {s : Slot}

/-- The machines that occur at any moment: a fresh one, and from a machine that occurs, those to
which its runs lead and those at which it goes a level deeper or begins a statement. -/
inductive Arises : Machine β → Prop
  | fresh (config : Config) : Arises (.fresh config)
  | run {m m' : Machine β} {es : List Event} (h : Arises m) (hr : Run m es m') : Arises m'
  | deeper {m : Machine β} (h : Arises m) : Arises { m with depth := m.depth + 1 }
  | openStatement {m : Machine β} (h : Arises m) : Arises m.openStatement.2

theorem Arises.wf (h : Arises m) : m.store.WF := by
  induction h with
  | fresh config => exact Store.WF.empty
  | run _ hr ih => exact hr.wf ih
  | deeper _ ih => exact ih
  | openStatement _ ih => exact ih.openJournal

/-- What a statement may change. It began at `begun`, its evaluation made the requests `log` and
ended at `done` after the events `es`, and `after` is the machine after its end. -/
structure Spares (begun done after : Machine β) (es : List Event) (log : Record β)
    (roots : List Slot) : Prop where
  /-- A slot that the end changes is released; it was stored in since the statement began, and the
  roots do not reach it. -/
  changed : ∀ s, after.store.get? s ≠ done.store.get? s →
    after.store.get? s = none ∧ .stored s ∈ es ∧ ¬ done.store.Reaches roots s
  /-- A slot that was live when the statement began and that no builtin has asked to release is live
  after it, with the value it had when the evaluation ended. -/
  older : ∀ s, begun.store.isLive s = true → ¬ log.Frees s →
    after.store.isLive s = true ∧ after.store.get? s = done.store.get? s
  /-- A live slot that the roots reach is live after the statement, with the same value. -/
  reached : ∀ s, done.store.isLive s = true → done.store.Reaches roots s →
    after.store.isLive s = true ∧ after.store.get? s = done.store.get? s

theorem closeStatement_changed (h : Run m.openStatement.2 es m') {result : Option Slot}
    {ctx : Context}
    (hs : (m'.closeStatement m.store.journal.size result ctx).store.get? s ≠ m'.store.get? s) :
    (m'.closeStatement m.store.journal.size result ctx).store.get? s = none ∧ .stored s ∈ es ∧
      ¬ m'.store.Reaches (result.toList ++ m'.roots ctx) s := by
  rw [get?_closeStatement] at hs ⊢
  split at hs
  · next hc =>
    obtain ⟨w, hw, hstored⟩ := h.journal
    have hw : m'.store.journal.toList = m.store.journal.toList ++ w := hw
    have hj := hc.1
    rw [hw, ← Array.length_toList, List.drop_left] at hj
    exact ⟨if_pos hc, hstored s hj, hc.2⟩
  · exact absurd rfl hs

/-- The end of a statement spares what is in use, after every run of the statement. -/
theorem spares_closeStatement (hm : m.store.WF) {log : Record β}
    (hlog : FreesOnly log.Frees m.openStatement.2 m') (h : Run m.openStatement.2 es m')
    (result : Option Slot) (ctx : Context) :
    Spares m m' (m'.closeStatement m.store.journal.size result ctx) es log
      (result.toList ++ m'.roots ctx) := by
  refine ⟨fun s => closeStatement_changed h, ?_, ?_⟩
  · intro s hs hnone
    obtain ⟨es', h', hes'⟩ := hlog
    have hopen : m.openStatement.2.store.isLive s = true := by
      rw [Store.isLive, get?_openStatement]
      exact hs
    have hkept := h'.isLive hm.openJournal hopen fun hmem => hnone (hes' s hmem)
    have heq : (m'.closeStatement m.store.journal.size result ctx).store.get? s =
        m'.store.get? s := by
      refine Classical.byContradiction fun hne => ?_
      exact hkept.2 (closeStatement_changed h' hne).2.1
    exact ⟨by rw [Store.isLive, heq]; exact hkept.1, heq⟩
  · intro s hs hr
    have heq : (m'.closeStatement m.store.journal.size result ctx).store.get? s =
        m'.store.get? s := by
      refine Classical.byContradiction fun hne => ?_
      exact (closeStatement_changed h hne).2.2 hr
    exact ⟨by rw [Store.isLive, heq]; exact hs, heq⟩

/-- Whatever the builtins do, the end of a statement releases only what was stored since the
statement began and is not in use. The evaluator may have any number of levels left, so this holds
of the statements that an embedding program runs and of those that builtins run. -/
theorem runStatement_spares (lib : Library β) (room : Machine β → Nat) (hm : m.Arises)
    (hr : m.config.reclaimTemporaries = true) (keep : Bool) (statement : List Char)
    (ctx : Context) :
    let call : Evaluator β := fun expr ctx m => evaluateAt lib (room m) expr ctx m
    let log := askedByOne (fun expr ctx m => askedAt lib (room m) expr ctx m) statement ctx
      m.openStatement.2
    let done := evaluateOne call statement ctx m.openStatement.2
    let after := runStatement call keep statement ctx m
    after.1 = done.1 ∧ FreesOnly log.Frees m.openStatement.2 done.2 ∧
      ∀ es, Run m.openStatement.2 es done.2 → Spares m done.2 after.2 es log
        ((keptSlot keep done.1.1).toList ++ done.2.roots done.1.2) := by
  intro call log done after
  have hafter : after = (done.1, done.2.closeStatement m.store.journal.size
      (keptSlot keep done.1.1) done.1.2) := by
    simp only [after, runStatement, hr, ↓reduceIte]
    rfl
  have hlog : FreesOnly log.Frees m.openStatement.2 done.2 :=
    tracks_freesOnly.evaluateOne (fun expr ctx m =>
      tracks_freesOnly.evaluateAt lib (room m) expr ctx m)
      statement ctx m.openStatement.2 hm.wf.openJournal
  refine ⟨by rw [hafter], hlog, fun es hes => ?_⟩
  rw [hafter]
  exact spares_closeStatement hm.wf hlog hes _ _

theorem arises_console (config : Config) : (Console.machine config).Arises := by
  simp only [Console.machine, Console.Command.all, List.foldl_cons, List.foldl_nil]
  exact (((Arises.fresh config).run (.register ..)).run (.register ..)).run (.register ..)

/-- The command line's machine after a text has run. -/
private def ran (source : String) : Machine Console.Command :=
  ((Console.machine {}).eval Console.library source none).2

/-- The requests that the command line's builtins make while a statement is evaluated. -/
private def askedBy (statement : String) (m : Machine Console.Command) : Record Console.Command :=
  askedByOne (fun expr ctx m => askedAt Console.library (m.config.maxDepth - m.depth) expr ctx m)
    statement.toList none m.openStatement.2

/-- Binding a name anew on the command line's machine: `set` asks to release what the name was bound
to before and nothing else, so the builtins outlive the statement. -/
theorem runStatement_spares_rebound :
    (ran "set x 1").Arises ∧ (ran "set x 1").config.reclaimTemporaries = true ∧
      (askedBy "set x 'b'" (ran "set x 1")).Frees ⟨5, 0⟩ ∧
      ∀ s ∈ [(⟨0, 0⟩ : Slot), ⟨1, 0⟩, ⟨2, 0⟩], (ran "set x 1").store.isLive s = true ∧
        ¬ (askedBy "set x 'b'" (ran "set x 1")).Frees s ∧
        (runStatement (evaluate Console.library) true "set x 'b'".toList none
          (ran "set x 1")).2.store.isLive s = true := by
  obtain ⟨es, hes⟩ := exists_run_eval Console.library (arises_console {}).wf "set x 1" none
  have hm : (ran "set x 1").Arises := (arises_console {}).run hes
  have hr : (ran "set x 1").config.reclaimTemporaries = true := by
    have hc : (ran "set x 1").config = (Console.machine {}).config := hes.config
    rw [hc]
    rfl
  have hlive : ∀ s ∈ [(⟨0, 0⟩ : Slot), ⟨1, 0⟩, ⟨2, 0⟩], (ran "set x 1").store.isLive s = true ∧
      ¬ (askedBy "set x 'b'" (ran "set x 1")).Frees s := by
    decide +kernel
  refine ⟨hm, hr, by decide +kernel, fun s hs => ?_⟩
  obtain ⟨hbefore, hasked⟩ := hlive s hs
  refine ⟨hbefore, hasked, ?_⟩
  generalize ran "set x 1" = m at *
  obtain ⟨-, ⟨es', hrun, -⟩, hspares⟩ := runStatement_spares Console.library
    (fun m => m.config.maxDepth - m.depth) hm hr true "set x 'b'".toList none
  exact ((hspares es' hrun).older s hbefore hasked).1

end SlotScript.Machine
