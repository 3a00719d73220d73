import SlotScript.Notation.Quoted

/-!
# Ranges

A range is two bounds with `..` or `..=` between them and no gap. Either bound may be left out, but
not the one after `..=`. A bound is a number or a byte.
-/

namespace SlotScript.Notation

def passBound : Pass := fun s =>
  passByte s <|> passNumber s

/-- Passes over the part of a range from its points on, if there are any. -/
def passRangeEnd : Pass
  | '.' :: '.' :: '=' :: s => passBound s
  | '.' :: '.' :: s => some ((passBound s).getD s)
  | s => some s

def passRange : Pass
  | '.' :: '.' :: s => passRangeEnd ('.' :: '.' :: s)
  | s => do passRangeEnd (← passBound s)

end SlotScript.Notation
