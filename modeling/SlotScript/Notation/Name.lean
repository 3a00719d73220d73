import SlotScript.Notation.Gap
import SlotScript.Text.Identifier

/-!
# Names

A name is an identifier, or `r#` and a raw name, in which points, signs and digits can stand
anywhere. A letter that marks a quoted part, as in `b"x"` or `r"x"`, starts no name.
-/

namespace SlotScript.Notation

open Text (isIdStart isIdContinue)

def word : List Char → Read String
  | [] => none
  | c :: s =>
    if c = '_' || isIdStart c then
      some (.ofList (c :: s.takeWhile isIdContinue), s.dropWhile isIdContinue)
    else none

def isRaw (c : Char) : Bool :=
  c = '.' || c = '+' || c = '-' || isIdContinue c

/-- Whether a text starts with a quoted part that has a letter in front. -/
def startsQuoted : List Char → Bool
  | 'b' :: '"' :: _ | 'b' :: '\x27' :: _ | 'b' :: 'r' :: '#' :: _ | 'b' :: 'r' :: '"' :: _ => true
  | 'r' :: '"' :: _ | 'r' :: '#' :: '"' :: _ | 'r' :: '#' :: '#' :: _ => true
  | _ => false

def name (s : List Char) : Read String :=
  if startsQuoted s then none
  else
    match s with
    | 'r' :: '#' :: s =>
      if (s.takeWhile isRaw).isEmpty then none
      else some (.ofList (s.takeWhile isRaw), s.dropWhile isRaw)
    | s => word s

end SlotScript.Notation
