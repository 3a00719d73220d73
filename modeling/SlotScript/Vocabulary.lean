import SlotScript.Vocabulary.Console
import SlotScript.Vocabulary.Workbench

/-!
# Vocabularies

The builtins of both vocabularies under one type of codes, and the machines on which they are bound.
-/

namespace SlotScript

/-- A builtin of one of the vocabularies. -/
inductive Builtin where
  | console (c : Console.Command)
  | workbench (c : Workbench.Command)
  deriving DecidableEq, Repr

namespace Builtin

def name : Builtin → String
  | .console c => c.name
  | .workbench c => c.name

def library : Library Builtin
  | .console c => Console.routine c
  | .workbench c => Workbench.routine c

end Builtin

/-- A choice of builtins. -/
inductive Vocabulary where
  | none | console | workbench | both
  deriving DecidableEq, Repr

namespace Vocabulary

/-- The builtins of a vocabulary, in the order in which they are bound. Where both vocabularies have
a name, `both` has the command line's builtin. -/
def builtins : Vocabulary → List Builtin
  | .none => []
  | .console => Console.Command.all.map .console
  | .workbench => Workbench.Command.all.map .workbench
  | .both =>
    let others := Workbench.Command.all.filter fun c => c ≠ .add && c ≠ .set
    Console.Command.all.map .console ++ others.map .workbench

def machine (v : Vocabulary) (config : Config) : Machine Builtin :=
  v.builtins.foldl (fun m b => (m.register b.name (.builtin b.name b)).2) (.fresh config)

end Vocabulary

end SlotScript
