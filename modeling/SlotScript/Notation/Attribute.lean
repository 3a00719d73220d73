import SlotScript.Notation.Quoted

/-!
# Attributes of a notation

In front of a value there can be attributes, each in `#![` and `]`. `enable(...)` switches
extensions of the notation on. `type = "..."` and `schema = "..."` are remarks for other readers.
-/

namespace SlotScript.Notation

/-- The extensions of the notation that make a difference to what is read here. -/
structure Extensions where
  implicitSome : Bool := false
  /-- The brackets of `Some` are also those of the structure or tuple that it holds. -/
  unwrapSome : Bool := false
  explicitNames : Bool := false
  deriving DecidableEq, Repr

def Extensions.enable? (x : Extensions) : String → Option Extensions
  | "implicit_some" => some { x with implicitSome := true }
  | "unwrap_newtypes" => some x
  | "unwrap_variant_newtypes" => some { x with unwrapSome := true }
  | "explicit_struct_names" => some { x with explicitNames := true }
  | _ => none

/-- Reads names of extensions with commas between and perhaps after them, at most `fuel` of them. -/
def Extensions.readFrom (x : Extensions) : Nat → List Char → Option (Extensions × List Char)
  | 0, _ => none
  | fuel + 1, s => do
    let (key, s) ← name s
    let x ← x.enable? key
    match (← skip s) with
    | ',' :: s =>
      let s ← skip s
      if s.head?.any Text.isIdContinue then x.readFrom fuel s else some (x, s)
    | s => some (x, s)

def Extensions.attribute (x : Extensions) (s : List Char) : Option (Extensions × List Char) := do
  let s ← punctuation '[' (← punctuation '!' (← skip s))
  let (key, s) ← word s
  let s ← skip s
  if key = "enable" then
    let s ← punctuation '(' s
    let (x, s) ← x.readFrom (s.length + 1) s
    let s ← punctuation ']' (← punctuation ')' s)
    some (x, s)
  else if key = "type" || key = "schema" then
    let s ← passString (← punctuation '=' s)
    let s ← punctuation ']' (← skip s)
    some (x, s)
  else none

/-- Reads the attributes at the start of a text, at most `fuel` of them. -/
def Extensions.attributesFrom (x : Extensions) : Nat → List Char → Option (Extensions × List Char)
  | fuel + 1, '#' :: s => do
    let (x, s) ← x.attribute s
    x.attributesFrom fuel s
  | _, s => some (x, s)

/-- The extensions that the attributes at the start of a text switch on. -/
def attributes (s : List Char) : Read Extensions :=
  Extensions.attributesFrom {} s.length s

end SlotScript.Notation
