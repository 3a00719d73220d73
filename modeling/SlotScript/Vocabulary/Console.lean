import SlotScript.Machine.Eval

/-!
# The command line's vocabulary

The three builtins that scripts of the command line can use.
-/

namespace SlotScript.Console

open Routine

variable {β : Type}

/-- A builtin of the command line. -/
inductive Command where
  | print | add | set
  deriving DecidableEq, Repr

namespace Command

def name : Command → String
  | .print => "print"
  | .add => "add"
  | .set => "set"

/-- The builtins in the order in which they are bound. -/
def all : List Command := [.print, .add, .set]

end Command

/-- What `print` shows of a slot: a text as it is, any other value as it is written. -/
def shown (s : Slot) : Routine β String := do
  match (← value s) with
  | .text t => pure t
  | _ => render s

/-- `print a b …` evaluates its arguments and prints them on one line. -/
def print (args : List Slot) : Routine β (Option Slot) := do
  let words ← forEach shown (← arguments args)
  ask (.print (" ".intercalate words))
  pure none

/-- `add a b …` is the sum of its arguments, of which there is at least one. -/
def add (args : List Slot) : Routine β (Option Slot) := do
  atLeast "add" args 1
  give (.number (← sumArgs 0 args))

/-- `set name value` binds a name in the context, or globally when there is none. What the name was
bound to before is released unless it can still be reached. -/
def set : List Slot → Routine β (Option Slot)
  | [target, source] => do
    let name ← symbolName target
    let v ← argument source
    if let some previous ← assign name v then
      ask (.releaseUnreachable previous (← context))
    pure (some v)
  | args => arityError "set" 2 args

def routine : Command → List Slot → Routine β (Option Slot)
  | .print => print
  | .add => add
  | .set => set

def library : Library Command := routine

def machine (config : Config) : Machine Command :=
  Command.all.foldl (fun m c => (m.register c.name (.builtin c.name c)).2) (.fresh config)

end SlotScript.Console
