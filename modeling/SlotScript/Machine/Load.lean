import SlotScript.Machine.Reclaim
import SlotScript.Syntax.Term

/-!
# Reading commands into a machine

A term is loaded by storing its parts in fresh slots, the items of a list before the list. Groups
may nest as deep as the configured limit allows; when a term goes deeper, everything that was stored
for the terms before it is released again.
-/

namespace SlotScript.Machine

open SlotScript.Syntax (Term)

variable {β : Type}

mutual

/-- Loads a term below which groups may nest `room` levels deep. -/
def load (m : Machine β) (room : Nat) : Term → Except Error Slot × Machine β
  | .number x => let (s, m) := m.allocate (.number x); (.ok s, m)
  | .text t => let (s, m) := m.allocate (.text t); (.ok s, m)
  | .symbol name => let (s, m) := m.allocate (.symbol name); (.ok s, m)
  | .list items =>
    match room with
    | 0 => (.error (.tooDeep m.config.maxDepth), m)
    | room + 1 =>
      match m.loadAll room [] items with
      | (.error e, m) => (.error e, m)
      | (.ok slots, m) => let (s, m) := m.allocate (.list slots); (.ok s, m)

/-- Loads terms in order; `before` has the slots of those already loaded, last first. When a term
cannot be loaded, those after it are not, and what was stored for those before it is released, the
first one first. -/
def loadAll (m : Machine β) (room : Nat) (before : List Slot) :
    List Term → Except Error (List Slot) × Machine β
  | [] => (.ok before.reverse, m)
  | t :: terms =>
    match m.load room t with
    | (.error e, m) => (.error e, before.reverse.foldl releaseTree m)
    | (.ok s, m) => m.loadAll room (s :: before) terms

end

/-- Reads a text into an expression: the slots of its terms. -/
def parse (m : Machine β) (source : List Char) : Except Error (List Slot) × Machine β :=
  match m.config.maxDepth with
  | 0 => (.error (.tooDeep 0), m)
  | room + 1 =>
    match Term.read source with
    | .error e => (.error (.unterminated e), m)
    | .ok terms => m.loadAll room [] terms

end SlotScript.Machine
