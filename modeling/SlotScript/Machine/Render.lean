import SlotScript.Machine
import SlotScript.Tree

/-!
# Writing slots as text

A slot is written by unfolding it into its value tree. Unfolding fails at a slot that is not live
and at a list that nests deeper than the configured limit, so it also ends on lists that contain
themselves. The failure that is met first, from left to right, is the one reported.
-/

namespace SlotScript.Machine

variable {β : Type}

/-- The results of `f` on the members of a list, or the first failure. -/
def collect {α γ : Type} (f : α → Except Error γ) : List α → Except Error (List γ)
  | [] => .ok []
  | a :: rest =>
    match f a with
    | .error e => .error e
    | .ok c => (collect f rest).map (c :: ·)

/-- The value tree of a slot, at most `room` levels high. -/
def unfold (m : Machine β) : Nat → Slot → Except Error (Tree β)
  | 0, _ => .error (.tooDeep m.config.maxDepth)
  | room + 1, s =>
    match m.value s with
    | .error e => .error e
    | .ok (.list items) => (collect (m.unfold room) items).map .node
    | .ok v => .ok (.leaf v)

def render (m : Machine β) (s : Slot) : Except Error String :=
  (m.unfold m.config.maxDepth s).map Tree.text

/-- The text of an expression: the texts of its slots with spaces between them. -/
def renderAll (m : Machine β) (expr : List Slot) : Except Error String :=
  (collect (m.unfold m.config.maxDepth) expr).map Tree.textAll

end SlotScript.Machine
