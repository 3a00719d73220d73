import SlotScript.Proofs.Machine.Routines
import SlotScript.Proofs.Store.WellFormed

/-!
# Statements one after another

A text is a sequence of statements. `Passes` says that some statements ran, all of them with
success, and with which context and machine they left off; their results are dropped. What follows
them then goes on from there (`Passes.runStatements_append`). A sequence fails where its first
failing statement does, and it ends just as this statement does (`runStatements_eq_error_iff`), so
what the statements before it have done stays done and those after it do not run.
-/

namespace SlotScript.Machine

variable {β : Type} {call : Evaluator β} {m m' m'' : Machine β} {ctx ctx' ctx'' : Context}

/-! ## One statement -/

/-- The machine on which a statement is evaluated. -/
def opened (m : Machine β) : Machine β :=
  if m.config.reclaimTemporaries then m.openStatement.2 else m

theorem opened_of_reclaim (hr : m.config.reclaimTemporaries = true) :
    opened m = m.openStatement.2 :=
  if_pos hr

@[simp] theorem config_opened : (opened m).config = m.config := by
  unfold opened
  split <;> rfl

@[simp] theorem depth_opened : (opened m).depth = m.depth := by
  unfold opened
  split <;> rfl

@[simp] theorem get?_opened {s : Slot} : (opened m).store.get? s = m.store.get? s := by
  unfold opened
  split
  · exact Store.get?_openJournal
  · rfl

theorem opened_of_not_reclaim (hr : m.config.reclaimTemporaries = false) : opened m = m := by
  rw [opened, hr]
  rfl

theorem evaluateOne_eq_next (statement : List Char) :
    evaluateOne call statement ctx m =
      next (((m.parse statement).1, ctx), (m.parse statement).2) call := by
  unfold evaluateOne
  split <;> next hparse => rw [hparse]; rfl

theorem runStatement_of_not_reclaim (hr : m.config.reclaimTemporaries = false) (keep : Bool)
    (statement : List Char) :
    runStatement call keep statement ctx m = evaluateOne call statement ctx m := by
  simp only [runStatement, hr, Bool.false_eq_true, ↓reduceIte]

theorem runStatement_of_reclaim (hr : m.config.reclaimTemporaries = true) (keep : Bool)
    (statement : List Char) :
    runStatement call keep statement ctx m =
      ((evaluateOne call statement ctx m.openStatement.2).1,
        (evaluateOne call statement ctx m.openStatement.2).2.closeStatement m.store.journal.size
          (keptSlot keep (evaluateOne call statement ctx m.openStatement.2).1.1)
          (evaluateOne call statement ctx m.openStatement.2).1.2) := by
  simp only [runStatement, hr, ↓reduceIte]
  rfl

/-- How a statement ends does not depend on whether its result is kept. -/
theorem runStatement_fst (keep : Bool) (statement : List Char) :
    (runStatement call keep statement ctx m).1 = (evaluateOne call statement ctx (opened m)).1 := by
  cases hr : m.config.reclaimTemporaries with
  | false => rw [runStatement_of_not_reclaim hr, opened_of_not_reclaim hr]
  | true => rw [runStatement_of_reclaim hr, opened_of_reclaim hr]

/-- A statement that cannot be read fails. -/
theorem runStatement_of_parse_error {keep : Bool} {statement : List Char} {e : Error}
    (h : ((opened m).parse statement).1 = .error e) :
    (runStatement call keep statement ctx m).1 = (.error e, ctx) := by
  rw [runStatement_fst, evaluateOne_eq_next, h]
  rfl

/-- A statement that fails has no result to keep. -/
theorem runStatement_eq_error_iff (keep keep' : Bool) {statement : List Char} {e : Error} :
    runStatement call keep statement ctx m = ((.error e, ctx'), m') ↔
      runStatement call keep' statement ctx m = ((.error e, ctx'), m') := by
  have hone : ∀ keep keep' : Bool, runStatement call keep statement ctx m = ((.error e, ctx'), m') →
      runStatement call keep' statement ctx m = ((.error e, ctx'), m') := by
    intro keep keep' h
    cases hr : m.config.reclaimTemporaries with
    | false =>
      rw [runStatement_of_not_reclaim hr] at h ⊢
      exact h
    | true =>
      rw [runStatement_of_reclaim hr] at h ⊢
      obtain ⟨hout, hm'⟩ := Prod.mk.inj h
      rw [hout] at hm' ⊢
      rw [← hm']
      rfl
  exact ⟨hone keep keep', hone keep' keep⟩

/-! ## Several statements -/

theorem runStatements_cons_cons (statement next : List Char) (rest : List (List Char)) :
    runStatements call (statement :: next :: rest) ctx m =
      Machine.next (runStatement call false statement ctx m)
        fun _ => runStatements call (next :: rest) := by
  rw [runStatements]
  · generalize Machine.runStatement call false statement ctx m = out
    obtain ⟨⟨result, ctx'⟩, m'⟩ := out
    cases result <;> rfl
  · intro hnil
    cases hnil

theorem eval_of_statements {lib : Library β} {source : String} {statements : List (List Char)}
    (h : Syntax.statements ';' source.toList = .ok statements) :
    m.eval lib source ctx = runStatements (evaluate lib) statements ctx m := by
  rw [eval, evalTextBy, h]

/-- The statements run with success, one after the other, and their results are dropped. -/
inductive Passes (call : Evaluator β) :
    List (List Char) → Context → Machine β → Context → Machine β → Prop
  | nil (ctx : Context) (m : Machine β) : Passes call [] ctx m ctx m
  | cons {statement : List Char} {rest : List (List Char)} {ctx ctx' ctx'' : Context}
      {m m' m'' : Machine β} {result : Option Slot}
      (h : runStatement call false statement ctx m = ((.ok result, ctx'), m'))
      (hrest : Passes call rest ctx' m' ctx'' m'') : Passes call (statement :: rest) ctx m ctx'' m''

/-- What follows statements that have passed goes on from where they left off. -/
theorem Passes.runStatements_append {before after : List (List Char)}
    (h : Passes call before ctx m ctx' m') (hafter : after ≠ []) :
    runStatements call (before ++ after) ctx m = runStatements call after ctx' m' := by
  induction h with
  | nil => rfl
  | @cons statement rest ctx ctx' ctx'' m m' m'' result h _ ih =>
    have hne : rest ++ after ≠ [] := fun hnil => hafter (List.append_eq_nil_iff.1 hnil).2
    obtain ⟨next, rest', heq⟩ := List.exists_cons_of_ne_nil hne
    rw [List.cons_append, heq, runStatements_cons_cons, h, ← ih, heq]
    rfl

/-- A sequence with a failing statement ends as this statement does. -/
theorem Passes.runStatements_of_error {before after : List (List Char)} {statement : List Char}
    {e : Error} (h : Passes call before ctx m ctx' m')
    (he : runStatement call false statement ctx' m' = ((.error e, ctx''), m'')) :
    runStatements call (before ++ statement :: after) ctx m = ((.error e, ctx''), m'') := by
  rw [h.runStatements_append (List.cons_ne_nil _ _)]
  cases after with
  | nil =>
    rw [runStatements]
    exact (runStatement_eq_error_iff true false).2 he
  | cons next rest =>
    rw [runStatements_cons_cons, he]
    rfl

/-- A sequence of statements fails just as its first failing statement does. -/
theorem runStatements_eq_error_iff {statements : List (List Char)} {e : Error} :
    runStatements call statements ctx m = ((.error e, ctx''), m'') ↔
      ∃ before statement after ctx' m', statements = before ++ statement :: after ∧
        Passes call before ctx m ctx' m' ∧
        runStatement call false statement ctx' m' = ((.error e, ctx''), m'') := by
  constructor
  · intro herr
    induction statements generalizing ctx m with
    | nil => cases herr
    | cons statement rest ih =>
      cases rest with
      | nil =>
        rw [runStatements, runStatement_eq_error_iff true false] at herr
        exact ⟨[], statement, [], ctx, m, rfl, .nil ctx m, herr⟩
      | cons next rest =>
        rw [runStatements_cons_cons] at herr
        cases hrun : runStatement call false statement ctx m with
        | mk outcome m₁ =>
          obtain ⟨result, ctx₁⟩ := outcome
          rw [hrun] at herr
          cases result with
          | error e' =>
            cases herr
            exact ⟨[], statement, next :: rest, ctx, m, rfl, .nil ctx m, hrun⟩
          | ok result =>
            obtain ⟨before, failing, after, ctx', m', heq, h, he⟩ := ih herr
            exact ⟨statement :: before, failing, after, ctx', m', by rw [heq]; rfl,
              .cons hrun h, he⟩
  · rintro ⟨before, statement, after, ctx', m', rfl, h, he⟩
    exact h.runStatements_of_error he

end SlotScript.Machine
