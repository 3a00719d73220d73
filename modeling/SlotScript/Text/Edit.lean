/-!
# Searching, cutting and replacing

Operations on texts whose offsets count characters. Matching is leftmost and matches do not overlap.
An empty pattern is found at offset 0; as a delimiter it cuts nothing.
-/

namespace SlotScript.Text

/-- A range `start..stop` that a text of `length` characters does not have. -/
structure RangeError where
  start : Nat
  stop : Nat
  length : Nat
  deriving DecidableEq, Repr

def RangeError.message (e : RangeError) : String :=
  s!"range {e.start}..{e.stop} out of bounds for length {e.length}"

/-- The characters from offset `start` up to, and without, offset `stop`. -/
def slice (s : List Char) (start stop : Nat) : Except RangeError (List Char) :=
  if start ≤ stop ∧ stop ≤ s.length then .ok ((s.drop start).take (stop - start))
  else .error ⟨start, stop, s.length⟩

def find? (needle : List Char) : List Char → Option Nat
  | [] => if needle.isEmpty then some 0 else none
  | c :: s =>
    if needle.isPrefixOf (c :: s) then some 0 else (find? needle s).map (· + 1)

/-- Puts `new` in the place of the first occurrence of `old`. -/
def replaceFirst (old new s : List Char) : List Char :=
  match find? old s with
  | some k => s.take k ++ new ++ s.drop (k + old.length)
  | none => s

/-- A nonempty needle is found in nonempty texts only. -/
theorem ne_nil_of_find? {needle s : List Char} {k : Nat} (hn : needle ≠ [])
    (h : find? needle s = some k) : s ≠ [] := by
  rintro rfl
  simp [find?, hn] at h

/-- What follows a match of a nonempty needle is shorter than the text. -/
theorem length_drop_lt_of_find? {needle s : List Char} {k : Nat} (hn : needle ≠ [])
    (h : find? needle s = some k) : (s.drop (k + needle.length)).length < s.length := by
  have hs := List.length_pos_iff.2 (ne_nil_of_find? hn h)
  have hl := List.length_pos_iff.2 hn
  simp only [List.length_drop]
  omega

/-- Puts `new` in the place of every occurrence of `old`; an empty `old` occurs nowhere. -/
def replaceAll (old new s : List Char) : List Char :=
  if _hn : old = [] then s
  else
    match _h : find? old s with
    | some k => s.take k ++ new ++ replaceAll old new (s.drop (k + old.length))
    | none => s
termination_by s.length
decreasing_by exact length_drop_lt_of_find? _hn _h

/-- The pieces of a text between the occurrences of `delim`, empty ones included. -/
def splitOn (delim s : List Char) : List (List Char) :=
  if _hn : delim = [] then [s]
  else
    match _h : find? delim s with
    | some k => s.take k :: splitOn delim (s.drop (k + delim.length))
    | none => [s]
termination_by s.length
decreasing_by exact length_drop_lt_of_find? _hn _h

/-- The pieces of a text between the occurrences of one character. -/
def splitOnChar (delim : Char) (s : List Char) : List (List Char) :=
  splitOn [delim] s

end SlotScript.Text
