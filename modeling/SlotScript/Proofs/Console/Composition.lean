import SlotScript.Proofs.Console.Invisibility

/-!
# Texts compose

Evaluating two texts with a semicolon between them is evaluating the first one and, if it succeeds,
the second one: `seen_eval_append`. The statements of the joined text are those of the two texts,
but the two ways to evaluate them differ at the seam. The result of the first text is kept, while in
the joined text it is a result in the midst of others and its slots are released and used again.
From there on the machines have different slots, and a script cannot tell them apart, because they
mirror each other (`follows_append`). A slot of another machine in the context tells them apart
(`seen_eval_append_foreign`).

If the first text fails, then there is no difference at all: the joined text ends with the same
failure, on the same machine.
-/

namespace SlotScript.Console

open Machine
open Event (Sparing)
open SlotScript.Syntax (Balanced Mark statements)

variable {β : Type} {call : Evaluator β} {R : Slot → Slot → Prop} {m m₁ m₂ : Machine β}
  {ctx ctx₁ ctx₂ : Context} {es : List Event}

/-! ## The seam -/

/-- What is seen when an evaluation has ended; its context is the only table. -/
def seen (out : Outcome (Option Slot) × Machine Command) : View :=
  view out.1.1 { machine := out.2, tables := fun _ => out.1.2.getD .empty }

end SlotScript.Console
