import SlotScript.Machine.Eval

/-!
# Running routines

`exec` runs a routine on a machine in a context. The equations of this module open the routines of a
library step by step: sequencing hands the context and the machine on and stops at the first failure
(`exec_bind`), a request is what the machine answers (`exec_ask`).
-/

namespace SlotScript.Machine

open Routine

variable {β α γ : Type} {call : Evaluator β} {m : Machine β} {ctx : Context}

/-- Runs a routine in a context. -/
def exec (call : Evaluator β) (r : Routine β α) (ctx : Context) (m : Machine β) :
    Outcome α × Machine β :=
  runAction call (r.run.run ctx) m

/-- What happens next when a step has ended: its failure, or the next step on its result. -/
def next (out : Outcome α × Machine β) (f : α → Context → Machine β → Outcome γ × Machine β) :
    Outcome γ × Machine β :=
  match out with
  | ((.ok a, ctx), m) => f a ctx m
  | ((.error e, ctx), m) => ((.error e, ctx), m)

theorem runAction_andThen (act : Action β α) (f : α → Action β γ) (m : Machine β) :
    runAction call (act.andThen f) m =
      runAction call (f (runAction call act m).1) (runAction call act m).2 := by
  induction act generalizing m with
  | done a => rfl
  | ask r next ih => exact ih _ _

theorem exec_bind (r : Routine β α) (f : α → Routine β γ) :
    exec call (r >>= f) ctx m = next (exec call r ctx m) fun a => exec call (f a) := by
  have h : exec call (r >>= f) ctx m =
      runAction call ((r.run.run ctx).andThen fun x =>
        (ExceptT.bindCont f x.1 : StateT Context (Action β) (Except Error γ)) x.2) m := rfl
  rw [h, runAction_andThen]
  unfold exec next
  generalize runAction call (r.run.run ctx) m = out
  obtain ⟨⟨result, ctx'⟩, m'⟩ := out
  cases result with
  | ok a => rfl
  | error e => rfl

theorem exec_ask (r : Request β) :
    exec call (Routine.ask r) ctx m = ((.ok (answer call r m).1, ctx), (answer call r m).2) :=
  rfl

theorem exec_context : exec call (context : Routine β Context) ctx m = ((.ok ctx, ctx), m) :=
  rfl

theorem exec_setContext (ctx' : Context) :
    exec call (setContext ctx' : Routine β Unit) ctx m = ((.ok (), ctx'), m) :=
  rfl

theorem exec_expect (x : Except Error α) :
    exec call (expect x : Routine β α) ctx m = ((x, ctx), m) := by
  cases x with
  | ok a => rfl
  | error e => rfl

theorem exec_give (v : Value β) :
    exec call (give v) ctx m = ((.ok (some m.store.nextSlot), ctx), (m.allocate v).2) :=
  rfl

theorem exec_value (s : Slot) :
    exec call (Routine.value s : Routine β _) ctx m = ((m.value s, ctx), m) := by
  unfold Routine.value
  rw [exec_bind, exec_ask]
  exact exec_expect _

theorem exec_render (s : Slot) :
    exec call (Routine.render s : Routine β _) ctx m = ((m.render s, ctx), m) := by
  unfold Routine.render
  rw [exec_bind, exec_ask]
  exact exec_expect _

theorem exec_argument (s : Slot) :
    exec call (Routine.argument s : Routine β _) ctx m = argumentBy call s ctx m := by
  unfold Routine.argument
  rw [exec_bind, exec_context]
  simp only [next]
  rw [exec_bind, exec_ask]
  simp only [next, answer]
  rw [exec_bind, exec_setContext]
  simp only [next]
  rw [exec_expect]

end SlotScript.Machine
