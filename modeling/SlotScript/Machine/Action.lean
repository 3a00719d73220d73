import SlotScript.Machine

/-!
# Actions of builtins

A builtin works on a machine only through the machine's public operations. `Request` lists these
operations and `Request.Reply` says what each one answers. An `Action` is a program of requests: it
is done, or it makes a request and goes on with the answer. A library gives every code of a builtin
its routine, an action that has the arguments unevaluated, works in a context and may fail.

An action has no access to anything else, so a property that every request keeps is kept by every
builtin of every library.
-/

namespace SlotScript

/-- An operation that a builtin can ask of a machine. -/
inductive Request (β : Type) where
  | allocate (v : Value β)
  | release (s : Slot)
  | releaseTree (s : Slot)
  /-- Release what is below a slot and cannot be reached from a binding or a retained slot. -/
  | releaseUnreachable (s : Slot) (ctx : Context)
  | duplicate (s : Slot)
  | value (s : Slot)
  | overwrite (s : Slot) (v : Value β)
  | push (list item : Slot)
  | retain (s : Slot)
  | unretain (s : Slot)
  | isRetained (s : Slot)
  /-- Ask whether a slot can be reached from a binding or a retained slot. -/
  | isReachable (s : Slot) (ctx : Context)
  | globals
  | assignGlobal (name : String) (s : Slot)
  | removeGlobal (name : String)
  | parse (source : String)
  | evaluate (expr : List Slot) (ctx : Context)
  | argument (s : Slot) (ctx : Context)
  | eval (source : String) (ctx : Context)
  | render (s : Slot)
  | renderAll (expr : List Slot)
  | depth
  | print (line : String)
  | handOver (s : Slot)

/-- The type of the answer to a request. Evaluations also give the context as they leave it. -/
@[reducible] def Request.Reply {β : Type} : Request β → Type
  | .allocate _ => Slot
  | .release _ => Except Error Unit
  | .releaseTree _ => Unit
  | .releaseUnreachable _ _ => Unit
  | .duplicate _ => Except Error Slot
  | .value _ => Except Error (Value β)
  | .overwrite _ _ => Except Error Unit
  | .push _ _ => Except Error Unit
  | .retain _ => Except Error Unit
  | .unretain _ => Bool
  | .isRetained _ => Bool
  | .isReachable _ _ => Bool
  | .globals => Bindings
  | .assignGlobal _ _ => Option Slot
  | .removeGlobal _ => Option Slot
  | .parse _ => Except Error (List Slot)
  | .evaluate _ _ => Except Error (Option Slot) × Context
  | .argument _ _ => Except Error Slot × Context
  | .eval _ _ => Except Error (Option Slot) × Context
  | .render _ => Except Error String
  | .renderAll _ => Except Error String
  | .depth => Nat
  | .print _ => Unit
  | .handOver _ => Unit

/-- A program of requests that ends with an `α`. -/
inductive Action (β α : Type) where
  | done (a : α)
  | ask (r : Request β) (next : r.Reply → Action β α)

namespace Action

variable {β : Type}

def andThen {α γ : Type} (act : Action β α) (f : α → Action β γ) : Action β γ :=
  match act with
  | .done a => f a
  | .ask r next => .ask r fun x => (next x).andThen f

instance : Monad (Action β) where
  pure := .done
  bind := .andThen

def request (r : Request β) : Action β r.Reply :=
  .ask r .done

end Action

/-- What a builtin does: an action in a context that may fail. -/
abbrev Routine (β α : Type) := ExceptT Error (StateT Context (Action β)) α

/-- The routines of builtins, by code, from the unevaluated arguments. `none` is no value. -/
abbrev Library (β : Type) := β → List Slot → Routine β (Option Slot)

namespace Routine

variable {β : Type}

def ask (r : Request β) : Routine β r.Reply :=
  ExceptT.lift (StateT.lift (Action.request r))

def expect {α : Type} : Except Error α → Routine β α
  | .ok a => pure a
  | .error e => throw e

def context : Routine β Context :=
  ExceptT.lift get

/-- Changes the context that the builtin was called in. -/
def setContext (ctx : Context) : Routine β Unit :=
  ExceptT.lift (set ctx)

def allocate (v : Value β) : Routine β Slot :=
  ask (.allocate v)

/-- Stores a value in a fresh slot, the result of the builtin. -/
def give (v : Value β) : Routine β (Option Slot) :=
  some <$> allocate v

def value (s : Slot) : Routine β (Value β) := do
  expect (← ask (.value s))

def render (s : Slot) : Routine β String := do
  expect (← ask (.render s))

def argument (s : Slot) : Routine β Slot := do
  let (result, ctx) ← ask (.argument s (← context))
  setContext ctx
  expect result

def argumentIn (t : Bindings) (s : Slot) : Routine β Slot := do
  let (result, _) ← ask (.argument s (some t))
  expect result

/-- `forEach` after some members; `done` has their results, last first. -/
def forEachFrom {α γ : Type} (f : α → Routine β γ) (done : List γ) : List α → Routine β (List γ)
  | [] => pure done.reverse
  | a :: rest => do
    let c ← f a
    forEachFrom f (c :: done) rest

/-- The results of a routine on the members of a list, from left to right. -/
def forEach {α γ : Type} (f : α → Routine β γ) (members : List α) : Routine β (List γ) :=
  forEachFrom f [] members

def arguments (args : List Slot) : Routine β (List Slot) :=
  forEach argument args

def eval (source : String) : Routine β (Option Slot) := do
  let (result, ctx) ← ask (.eval source (← context))
  setContext ctx
  expect result

def evalIn (t : Bindings) (source : String) : Routine β (Option Slot) := do
  let (result, _) ← ask (.eval source (some t))
  expect result

def numberArg (s : Slot) : Routine β Float := do
  expect (← value (← argument s)).asNumber

/-- The sum of arguments that have to be numbers, added to `total` from left to right. -/
def sumArgs (total : Float) : List Slot → Routine β Float
  | [] => pure total
  | arg :: rest => do
    let x ← numberArg arg
    sumArgs (total + x) rest

def textArg (s : Slot) : Routine β String := do
  expect (← value (← argument s)).asText

/-- The name in an argument that has to be a symbol and is not evaluated. -/
def symbolName (s : Slot) : Routine β String := do
  expect (← value s).asSymbol

/-- Binds a name in the current context, or globally when there is none; gives the slot it was bound
to before. -/
def assign (name : String) (s : Slot) : Routine β (Option Slot) := do
  match (← context) with
  | some t =>
    let (previous, t) := t.assign name s
    setContext (some t)
    pure previous
  | none => ask (.assignGlobal name s)

/-- Removes a name from the current context, or globally when there is none; gives the slot it was
bound to. -/
def remove (name : String) : Routine β (Option Slot) := do
  match (← context) with
  | some t =>
    let (previous, t) := t.remove name
    setContext (some t)
    pure previous
  | none => ask (.removeGlobal name)

/-- Fails unless there are at least `least` arguments. -/
def atLeast (name : String) (args : List Slot) (least : Nat) : Routine β Unit :=
  if least ≤ args.length then pure () else throw (.wrongArity name least args.length)

/-- The failure of a builtin that was to have `expected` arguments. -/
def arityError {α : Type} (name : String) (expected : Nat) (args : List Slot) : Routine β α :=
  throw (.wrongArity name expected args.length)

end Routine

end SlotScript
