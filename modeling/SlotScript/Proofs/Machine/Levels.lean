import SlotScript.Proofs.Machine.Evaluation
import SlotScript.Proofs.Machine.Statements

/-!
# What happens inside an operation

A machine counts the levels of evaluation that it is in; `evaluateAt` is handed the levels that are
left. The two add up to the limit at every moment, so an evaluation that a builtin begins is the one
that the embedding program would get on the same machine (`evaluate_cons_of_lt`).

Therefore the inside of an operation can be told in operations again. `Begins` says which
expressions the answer to a request evaluates, and on which machines; `Enters` which requests the
builtin called by such an evaluation makes, one level deeper; `Makes` puts the two together.
Everything between the beginning and the end of an operation is reached by `Makes` step by step.
-/

namespace SlotScript.Machine

variable {β : Type} {call call' : Evaluator β} {m m' : Machine β} {ctx ctx' : Context}
  {config : Config} {depth : Nat}

/-! ## Levels that are left -/

/-- A machine with a configuration, at a depth. -/
structure Level (config : Config) (depth : Nat) (m : Machine β) : Prop where
  wf : m.store.WF
  config : m.config = config
  depth : m.depth = depth

theorem Level.run {es : List Event} (h : Level config depth m) (hrun : Run m es m') :
    Level config depth m' :=
  ⟨hrun.wf h.wf, hrun.config.trans h.config, hrun.depth.trans h.depth⟩

/-- Evaluators that do the same at a depth. -/
def SameAt (config : Config) (depth : Nat) (call call' : Evaluator β) : Prop :=
  ∀ expr ctx m, Level config depth m → call expr ctx m = call' expr ctx m

section Same

variable (hsame : SameAt config depth call call')

include hsame

theorem argumentBy_congr (hm : Level config depth m) (s : Slot) (ctx : Context) :
    argumentBy call s ctx m = argumentBy call' s ctx m := by
  unfold argumentBy
  split
  · rfl
  · rfl
  · rw [hsame _ ctx m hm]
  · rfl

theorem evaluateOne_congr (hm : Level config depth m) (statement : List Char) (ctx : Context) :
    evaluateOne call statement ctx m = evaluateOne call' statement ctx m := by
  obtain ⟨es, hrun⟩ := exists_run_parse hm.wf statement
  unfold evaluateOne
  split
  · rfl
  · next expr m' heq =>
    rw [heq] at hrun
    exact hsame expr ctx m' (hm.run hrun)

theorem runStatement_congr (hm : Level config depth m) (keep : Bool) (statement : List Char)
    (ctx : Context) :
    runStatement call keep statement ctx m = runStatement call' keep statement ctx m := by
  have hopen : Level config depth m.openStatement.2 := ⟨hm.wf.openJournal, hm.config, hm.depth⟩
  cases hr : m.config.reclaimTemporaries with
  | false =>
    rw [runStatement_of_not_reclaim hr, runStatement_of_not_reclaim hr,
      evaluateOne_congr hsame hm statement ctx]
  | true =>
    rw [runStatement_of_reclaim hr, runStatement_of_reclaim hr,
      evaluateOne_congr hsame hopen statement ctx]

theorem runStatements_congr (hc : Runs call) (statements : List (List Char)) (ctx : Context)
    (hm : Level config depth m) :
    runStatements call statements ctx m = runStatements call' statements ctx m := by
  induction statements generalizing ctx m with
  | nil => rfl
  | cons statement rest ih =>
    cases rest with
    | nil => exact runStatement_congr hsame hm true statement ctx
    | cons next rest =>
      obtain ⟨es, hrun⟩ := exists_run_runStatement hc hm.wf false statement ctx
      rw [runStatements_cons_cons, runStatements_cons_cons, ← runStatement_congr hsame hm]
      have hrest := ih (runStatement call false statement ctx m).1.2 (hm.run hrun)
      revert hrest
      generalize runStatement call false statement ctx m = out
      obtain ⟨⟨result, ctx'⟩, m'⟩ := out
      intro hrest
      cases result with
      | error e => rfl
      | ok result => exact hrest

theorem evalTextBy_congr (hc : Runs call) (hm : Level config depth m) (source : String)
    (ctx : Context) : evalTextBy call source ctx m = evalTextBy call' source ctx m := by
  unfold evalTextBy
  split
  · rfl
  · exact runStatements_congr hsame hc _ ctx hm

theorem answer_congr (hc : Runs call) (hm : Level config depth m) (r : Request β) :
    answer call r m = answer call' r m := by
  cases r with
  | evaluate expr ctx => exact hsame expr ctx m hm
  | argument s ctx => exact argumentBy_congr hsame hm s ctx
  | eval source ctx => exact evalTextBy_congr hsame hc hm source ctx
  | _ => rfl

theorem runAction_congr {α : Type} (hc : Runs call) (act : Action β α) (hm : Level config depth m) :
    runAction call act m = runAction call' act m := by
  induction act generalizing m with
  | done a => rfl
  | ask r next ih =>
    obtain ⟨es, hrun⟩ := exists_run_answer hc hm.wf r
    rw [runAction, runAction, ← answer_congr hsame hc hm r]
    exact ih _ (hm.run hrun)

theorem apply_congr (hc : Runs call) (lib : Library β) (head : Slot) (args : List Slot)
    (ctx : Context) (hm : Level config depth m) :
    apply lib call head args ctx m = apply lib call' head args ctx m := by
  unfold apply
  split
  · rfl
  · split
    · rfl
    · exact runAction_congr hsame hc _ hm
    · rfl

end Same

/-- The machine one level deeper. -/
def deeper (m : Machine β) : Machine β :=
  { m with depth := m.depth + 1 }

/-- Below the limit an evaluation goes one level deeper, and evaluations inside it begin there as
they would if the embedding program asked for them. -/
theorem evaluate_cons_of_lt (lib : Library β) (hm : m.store.WF) (h : m.depth < m.config.maxDepth)
    (head : Slot) (args : List Slot) (ctx : Context) :
    evaluate lib (head :: args) ctx m =
      ((apply lib (evaluate lib) head args ctx m.deeper).1,
        { (apply lib (evaluate lib) head args ctx m.deeper).2 with
          depth := (apply lib (evaluate lib) head args ctx m.deeper).2.depth - 1 }) := by
  obtain ⟨room, hroom⟩ := Nat.exists_eq_add_of_lt h
  have hleft : m.config.maxDepth - m.depth = room + 1 := by omega
  have hsame : SameAt m.config (m.depth + 1) (evaluateAt lib room) (evaluate lib) := by
    intro expr ctx m' hm'
    have hleft' : m'.config.maxDepth - m'.depth = room := by
      rw [hm'.config, hm'.depth]
      omega
    rw [evaluate, hleft']
  have happly := apply_congr hsame (runs_evaluateAt lib room) lib head args ctx
    (m := m.deeper) ⟨hm, rfl, rfl⟩
  rw [← happly, evaluate, hleft, evaluateAt]
  rfl

/-- At the limit nothing is evaluated. -/
theorem evaluate_cons_of_le (lib : Library β) (h : m.config.maxDepth ≤ m.depth) (head : Slot)
    (args : List Slot) (ctx : Context) :
    evaluate lib (head :: args) ctx m = ((.error (.tooDeep m.config.maxDepth), ctx), m) := by
  rw [evaluate, Nat.sub_eq_zero_of_le h, evaluateAt]

/-! ## Inside an operation -/

/-- An expression that is evaluated in a context, and the machine when this begins. -/
structure Evaluation (β : Type) where
  expr : List Slot
  ctx : Context
  machine : Machine β

/-- The evaluations that answering a request begins. Of a text, those statements are evaluated that
can be read and come after statements that have passed. -/
inductive Begins (call : Evaluator β) (m : Machine β) : Request β → Evaluation β → Prop
  | evaluate (expr : List Slot) (ctx : Context) : Begins call m (.evaluate expr ctx) ⟨expr, ctx, m⟩
  | argument {s : Slot} {items : List Slot} (ctx : Context) (h : m.value s = .ok (.list items)) :
      Begins call m (.argument s ctx) ⟨items, ctx, m⟩
  | eval {source : String} {ctx ctx' : Context} {before after : List (List Char)}
      {statement : List Char} {m' m'' : Machine β} {expr : List Slot}
      (hs : Syntax.statements ';' source.toList = .ok (before ++ statement :: after))
      (hbefore : Passes call before ctx m ctx' m')
      (hparse : (opened m').parse statement = (.ok expr, m'')) :
      Begins call m (.eval source ctx) ⟨expr, ctx', m''⟩

/-- The requests that an action makes, and the machines that it makes them on. -/
inductive Asks (call : Evaluator β) {α : Type} :
    Action β α → Machine β → Request β → Machine β → Prop
  | now (r : Request β) (next : r.Reply → Action β α) (m : Machine β) :
      Asks call (.ask r next) m r m
  | later {r r' : Request β} {next : r.Reply → Action β α} {m m' : Machine β}
      (h : Asks call (next (answer call r m).1) (answer call r m).2 r' m') :
      Asks call (.ask r next) m r' m'

/-- The requests that a builtin makes which an evaluation calls. -/
inductive Enters (lib : Library β) : Evaluation β → Request β → Machine β → Prop
  | call {head s : Slot} {args : List Slot} {ctx : Context} {m m' : Machine β} {name : String}
      {code : β} {r : Request β} (hroom : m.depth < m.config.maxDepth)
      (hop : m.operator ctx head = .ok s) (hv : m.value s = .ok (.builtin name code))
      (h : Asks (evaluate lib) ((lib code args).run.run ctx) m.deeper r m') :
      Enters lib ⟨head :: args, ctx, m⟩ r m'

/-- The requests that builtins make while a request is answered, those of the builtins apart that
are called while such a request is answered. -/
def Makes (lib : Library β) (a b : Request β × Machine β) : Prop :=
  ∃ e, Begins (evaluate lib) a.2 a.1 e ∧ Enters lib e b.1 b.2

/-- The evaluations that begin inside another one, those apart that begin inside these. -/
def Inside (lib : Library β) (e e' : Evaluation β) : Prop :=
  ∃ r m, Enters lib e r m ∧ Begins (evaluate lib) m r e'

theorem Passes.exists_run (hc : Runs call) {before : List (List Char)}
    (h : Passes call before ctx m ctx' m') (hm : m.store.WF) : ∃ es, Run m es m' := by
  induction h with
  | nil => exact ⟨[], .refl _⟩
  | @cons statement rest ctx ctx' ctx'' m m' m'' result hrun _ ih =>
    obtain ⟨es, hes⟩ := exists_run_runStatement hc hm false statement ctx
    rw [hrun] at hes
    obtain ⟨es', hes'⟩ := ih (hes.wf hm)
    exact ⟨_, hes.trans hes'⟩

end SlotScript.Machine
