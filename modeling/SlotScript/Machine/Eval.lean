import SlotScript.Machine.Action
import SlotScript.Machine.Load
import SlotScript.Machine.Render
import SlotScript.Syntax.Split

/-!
# Evaluation

An expression is evaluated by its first slot. A symbol stands for the slot it is bound to, in the
context first; if that slot holds a builtin, its routine runs on the other slots, which are handed
over unevaluated; any other value is the result itself.

Evaluations nest at most as deep as the configured limit. `evaluateAt` counts the levels that are
left, and each level evaluates what lies inside it by the level below, so evaluation always ends:
with a result, or with the error `tooDeep`.

Command text is a sequence of statements. After each statement the slots that it allocated are
released unless something keeps them.
-/

namespace SlotScript

variable {β : Type}

/-- How an evaluation ends: its result, and the context as it leaves it. -/
abbrev Outcome (α : Type) := Except Error α × Context

/-- Something that evaluates expressions. -/
abbrev Evaluator (β : Type) :=
  List Slot → Context → Machine β → Outcome (Option Slot) × Machine β

namespace Machine

/-- The slot that a slot stands for: a symbol stands for its binding, any other slot for itself. -/
def operator (m : Machine β) (ctx : Context) (s : Slot) : Except Error Slot :=
  match m.value s with
  | .error e => .error e
  | .ok (.symbol name) => m.resolve ctx name
  | .ok _ => .ok s

/-- Evaluates an argument: a symbol stands for its binding, a list is evaluated as an expression and
has to give a value, any other slot is its own value. -/
def argumentBy (call : Evaluator β) (s : Slot) (ctx : Context) (m : Machine β) :
    Outcome Slot × Machine β :=
  match m.value s with
  | .error e => ((.error e, ctx), m)
  | .ok (.symbol name) => ((m.resolve ctx name, ctx), m)
  | .ok (.list items) =>
    match call items ctx m with
    | ((.error e, ctx), m) => ((.error e, ctx), m)
    | ((.ok none, ctx), m) => ((.error .noValue, ctx), m)
    | ((.ok (some r), ctx), m) => ((.ok r, ctx), m)
  | .ok _ => ((.ok s, ctx), m)

def evaluateOne (call : Evaluator β) (statement : List Char) (ctx : Context) (m : Machine β) :
    Outcome (Option Slot) × Machine β :=
  match m.parse statement with
  | (.error e, m) => ((.error e, ctx), m)
  | (.ok expr, m) => call expr ctx m

/-- Opens the journal of a statement; the mark is what closes it. -/
def openStatement (m : Machine β) : Nat × Machine β :=
  let (mark, store) := m.store.openJournal
  (mark, { m with store })

/-- Closes the journal of a statement and takes away what was written since its mark. -/
def closeJournal (m : Machine β) (mark : Nat) : List Slot × Machine β :=
  let (allocated, store) := m.store.closeJournal mark
  (allocated, { m with store })

/-- Closes the journal of a statement and releases what the statement allocated and nothing keeps.
The slots that stay are written into the enclosing journal. -/
def closeStatement (m : Machine β) (mark : Nat) (result : Option Slot) (ctx : Context) :
    Machine β :=
  let (allocated, m) := m.closeJournal mark
  let (survivors, m) := m.reclaim allocated result ctx
  { m with store := m.store.note survivors }

/-- The slot that a statement's result keeps from being released, when results are kept. -/
def keptSlot (keep : Bool) : Except Error (Option Slot) → Option Slot
  | .ok (some s) => if keep then some s else none
  | _ => none

/-- Evaluates a statement and then releases what it allocated and nothing keeps; its result counts
as kept when `keep` is set. -/
def runStatement (call : Evaluator β) (keep : Bool) (statement : List Char) (ctx : Context)
    (m : Machine β) : Outcome (Option Slot) × Machine β :=
  if m.config.reclaimTemporaries then
    let (mark, m) := m.openStatement
    let ((result, ctx), m) := evaluateOne call statement ctx m
    ((result, ctx), m.closeStatement mark (keptSlot keep result) ctx)
  else evaluateOne call statement ctx m

/-- Evaluates statements in order until one fails. The result is that of the last one. -/
def runStatements (call : Evaluator β) :
    List (List Char) → Context → Machine β → Outcome (Option Slot) × Machine β
  | [], ctx, m => ((.ok none, ctx), m)
  | [statement], ctx, m => runStatement call true statement ctx m
  | statement :: rest, ctx, m =>
    match runStatement call false statement ctx m with
    | ((.error e, ctx), m) => ((.error e, ctx), m)
    | ((.ok _, ctx), m) => runStatements call rest ctx m

/-- Evaluates command text. A text that is not well nested is refused before anything runs. -/
def evalTextBy (call : Evaluator β) (source : String) (ctx : Context) (m : Machine β) :
    Outcome (Option Slot) × Machine β :=
  match Syntax.statements ';' source.toList with
  | .error e => ((.error (.unterminated e), ctx), m)
  | .ok statements => runStatements call statements ctx m

def settle (m : Machine β) : Except Error (Machine β) → Except Error Unit × Machine β
  | .error e => (.error e, m)
  | .ok m' => (.ok (), m')

/-- Answers a request, evaluating expressions by `call`. -/
def answer (call : Evaluator β) : (r : Request β) → Machine β → r.Reply × Machine β
  | .allocate v, m => m.allocate v
  | .release s, m => m.settle (m.release s)
  | .releaseTree s, m => ((), m.releaseTree s)
  | .releaseUnreachable s ctx, m => ((), m.releaseUnreachable ctx s)
  | .duplicate s, m =>
    match m.duplicate s with
    | .error e => (.error e, m)
    | .ok (s, m) => (.ok s, m)
  | .value s, m => (m.value s, m)
  | .overwrite s v, m => m.overwrite s v
  | .push list item, m => m.settle (m.push list item)
  | .retain s, m => m.settle (m.retain s)
  | .unretain s, m => m.unretain s
  | .isRetained s, m => (m.isRetained s, m)
  | .isReachable s ctx, m => (m.isReachable ctx s, m)
  | .globals, m => (m.globals, m)
  | .assignGlobal name s, m => m.assignGlobal name s
  | .removeGlobal name, m => m.removeGlobal name
  | .parse source, m => m.parse source.toList
  | .evaluate expr ctx, m => call expr ctx m
  | .argument s ctx, m => argumentBy call s ctx m
  | .eval source ctx, m => evalTextBy call source ctx m
  | .render s, m => (m.render s, m)
  | .renderAll expr, m => (m.renderAll expr, m)
  | .depth, m => (m.depth, m)
  | .print line, m => ((), m.notify (.line line))
  | .handOver s, m => ((), m.notify (.handed s))

/-- Runs an action on a machine, evaluating expressions by `call`. -/
def runAction {α : Type} (call : Evaluator β) : Action β α → Machine β → α × Machine β
  | .done a, m => (a, m)
  | .ask r next, m =>
    let (x, m) := answer call r m
    runAction call (next x) m

/-- Evaluates an expression with the operator `head`, evaluating what lies inside by `call`. -/
def apply (lib : Library β) (call : Evaluator β) (head : Slot) (args : List Slot)
    (ctx : Context) (m : Machine β) : Outcome (Option Slot) × Machine β :=
  match m.operator ctx head with
  | .error e => ((.error e, ctx), m)
  | .ok s =>
    match m.value s with
    | .error e => ((.error e, ctx), m)
    | .ok (.builtin _ code) => runAction call ((lib code args).run.run ctx) m
    | .ok _ => ((.ok (some s), ctx), m)

/-- Evaluates an expression with `room` levels of nesting left. The expression without slots has no
value at any level. -/
def evaluateAt (lib : Library β) : Nat → Evaluator β
  | _, [], ctx, m => ((.ok none, ctx), m)
  | 0, _ :: _, ctx, m => ((.error (.tooDeep m.config.maxDepth), ctx), m)
  | room + 1, head :: args, ctx, m =>
    let (outcome, m) :=
      apply lib (evaluateAt lib room) head args ctx { m with depth := m.depth + 1 }
    (outcome, { m with depth := m.depth - 1 })

def evaluate (lib : Library β) : Evaluator β :=
  fun expr ctx m => evaluateAt lib (m.config.maxDepth - m.depth) expr ctx m

def perform (lib : Library β) (r : Request β) (m : Machine β) : r.Reply × Machine β :=
  answer (evaluate lib) r m

def eval (lib : Library β) (source : String) (ctx : Context) (m : Machine β) :
    Outcome (Option Slot) × Machine β :=
  evalTextBy (evaluate lib) source ctx m

/-- Evaluates command text without a context and writes the result, if there is one. -/
def evalToText (lib : Library β) (source : String) (m : Machine β) :
    Except Error (Option String) × Machine β :=
  match m.eval lib source none with
  | ((.error e, _), m) => (.error e, m)
  | ((.ok none, _), m) => (.ok none, m)
  | ((.ok (some s), _), m) => ((m.render s).map some, m)

end Machine

end SlotScript
