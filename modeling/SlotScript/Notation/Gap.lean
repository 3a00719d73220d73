/-!
# Gaps between the parts of a notation

Values are written with blanks and comments between their parts. A comment runs to the end of its
line after `//`, or from `/*` to the `*/` that belongs to it: such comments can lie inside each
other.
-/

namespace SlotScript.Notation

/-- What a reader of a part gives: the part and the text after it. -/
abbrev Read (α : Type) := Option (α × List Char)

/-- A reader that only passes over a part: it gives the text after it. -/
abbrev Pass := List Char → Option (List Char)

def isSpace (c : Char) : Bool :=
  c = ' ' || (0x9 ≤ c.toNat && c.toNat ≤ 0xD) || c.toNat = 0x85 || c.toNat = 0x200E ||
    c.toNat = 0x200F || c.toNat = 0x2028 || c.toNat = 0x2029

/-- What is being passed over: blanks, a comment to the end of the line, or comments that are open,
one inside the other. -/
inductive Gap where
  | blank
  | line
  | block (outer : Nat)

/-- The text after blanks and comments; `none` when a comment does not end, and for a slash that
starts none. -/
def skipFrom : Gap → Pass
  | .blank, '/' :: '/' :: s => skipFrom .line s
  | .blank, '/' :: '*' :: s => skipFrom (.block 0) s
  | .blank, '/' :: _ => none
  | .blank, c :: s => if isSpace c then skipFrom .blank s else some (c :: s)
  | .line, '\n' :: s => skipFrom .blank s
  | .line, _ :: s => skipFrom .line s
  | .block 0, '*' :: '/' :: s => skipFrom .blank s
  | .block (n + 1), '*' :: '/' :: s => skipFrom (.block n) s
  | .block n, '/' :: '*' :: s => skipFrom (.block (n + 1)) s
  | .block n, _ :: s => skipFrom (.block n) s
  | .block _, [] => none
  | _, [] => some []

def skip : Pass :=
  skipFrom .blank

/-- The text after one character and the gap that follows it. -/
def punctuation (c : Char) : Pass
  | [] => none
  | d :: s => if d = c then skip s else none

end SlotScript.Notation
