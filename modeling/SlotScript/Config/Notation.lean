import SlotScript.Config
import SlotScript.Notation.Value

/-!
# Configuration text

A configuration is written as named fields in round brackets, with a colon after each name and a
comma after each field:

    (
        initial_capacity: 64,
        max_depth: 256,
        reclaim_temporaries: true,
    )

`Config.write` writes this form. `Config.read?` also takes attributes and the type's name in front,
any blanks and comments between the parts, any order of the fields, and sizes in other bases. A
field that is left out keeps its default, a field of another name may have any value and is passed
over, and a field given twice is refused.
-/

namespace SlotScript.Config

open Notation

def truth (s : List Char) : Read Bool :=
  match word s with
  | some ("true", s) => some (true, s)
  | some ("false", s) => some (false, s)
  | _ => none

/-- The fields that have been read. -/
structure Fields where
  capacity : Option Nat := none
  depth : Option Nat := none
  reclaim : Option Bool := none

namespace Fields

/-- Reads the value of the field with a name. An unknown field lies inside the configuration's own
brackets. -/
def field (f : Fields) (x : Extensions) (key : String) (s : List Char) : Read Fields :=
  if key = "initial_capacity" then
    if f.capacity.isSome then none else (size s).map fun (n, s) =>
      ({ f with capacity := some n }, s)
  else if key = "max_depth" then
    if f.depth.isSome then none else (size s).map fun (n, s) => ({ f with depth := some n }, s)
  else if key = "reclaim_temporaries" then
    if f.reclaim.isSome then none else (truth s).map fun (b, s) => ({ f with reclaim := some b }, s)
  else (passValue x (roomLimit - 2) s).map fun s => (f, s)

/-- Reads fields up to the closing bracket; there are at most `fuel` of them. -/
def read (f : Fields) (x : Extensions) : Nat → List Char → Option (Fields × List Char)
  | 0, _ => none
  | _, ')' :: s => some (f, s)
  | fuel + 1, s => do
    let (key, s) ← name s
    let s ← punctuation ':' (← skip s)
    let (f, s) ← f.field x key s
    match (← skip s) with
    | ',' :: s => f.read x fuel (← skip s)
    | ')' :: s => some (f, s)
    | _ => none

def config (f : Fields) : Config :=
  let default : Config := {}
  { initialCapacity := f.capacity.getD default.initialCapacity
    maxDepth := f.depth.getD default.maxDepth
    reclaimTemporaries := f.reclaim.getD default.reclaimTemporaries }

end Fields

/-- The name that may stand in front of a configuration. -/
def typeName : String := "VMConfig"

def passTypeName (x : Extensions) : Pass := fun s =>
  match name s with
  | some (n, s) => if n = typeName then skip s else none
  | none => if x.explicitNames then none else some s

def read? (text : String) : Option Config := do
  let (x, s) ← attributes (← skip text.toList)
  let s ← punctuation '(' (← passTypeName x s)
  let (fields, s) ← Fields.read {} x (s.length + 1) s
  match (← skip s) with
  | [] => some fields.config
  | _ => none

def write (c : Config) : String :=
  "(\n" ++
  "    initial_capacity: " ++ toString c.initialCapacity ++ ",\n" ++
  "    max_depth: " ++ toString c.maxDepth ++ ",\n" ++
  "    reclaim_temporaries: " ++ toString c.reclaimTemporaries ++ ",\n" ++
  ")"

end SlotScript.Config
