import SlotScript.Number.Literal
import SlotScript.Syntax.Nesting
import SlotScript.Text.Blank

/-!
# Terms

A command is a sequence of terms: numbers, quoted texts, symbols, and groups of terms in round or
square brackets. A word is a number when it is a decimal literal and a symbol otherwise. `Term.read`
goes through a text once; it keeps the terms of every open group and accepts exactly the well nested
texts.
-/

namespace SlotScript.Syntax

open SlotScript.Text (isBlank)

/-- A part of a command. -/
inductive Term where
  | number (x : Float)
  | text (s : String)
  | symbol (name : String)
  | list (items : List Term)
  deriving Inhabited

namespace Term

def ofWord (word : List Char) : Term :=
  match Number.read? word with
  | some x => .number x
  | none => .symbol (.ofList word)

/-- What has been read of a text. -/
structure Reader where
  nesting : Nesting := .top
  /-- The characters of the current word or quoted text, last first. -/
  word : List Char := []
  /-- The terms of the innermost open group, last first. -/
  items : List Term := []
  /-- The terms in front of each open group, last first, innermost group first. -/
  outer : List (List Term) := []

namespace Reader

def endWord (r : Reader) : Reader :=
  if r.word.isEmpty then r
  else { r with word := [], items := ofWord r.word.reverse :: r.items }

def endGroup (r : Reader) : Reader :=
  match r.outer with
  | [] => r
  | before :: outer => { r with items := .list r.items.reverse :: before, outer }

/-- Takes one more character, which leads to the nesting `n`. -/
def push (r : Reader) (n : Nesting) (c : Char) : Reader :=
  match r.nesting.quote with
  | some q =>
    if c = q then
      { r with nesting := n, word := [], items := .text (.ofList r.word.reverse) :: r.items }
    else { r with nesting := n, word := c :: r.word }
  | none =>
    match Mark.of c with
    | .quote => { r.endWord with nesting := n }
    | .opener _ =>
      let r := r.endWord
      { r with nesting := n, items := [], outer := r.items :: r.outer }
    | .closer => { r.endWord.endGroup with nesting := n }
    | .plain =>
      if isBlank c then { r.endWord with nesting := n }
      else { r with nesting := n, word := c :: r.word }

def run (r : Reader) : List Char → Except NestingError (List Term)
  | [] => r.nesting.finish.map fun _ => r.endWord.items.reverse
  | c :: s =>
    match r.nesting.step c with
    | .error e => .error e
    | .ok n => (r.push n c).run s

end Reader

def read (s : List Char) : Except NestingError (List Term) :=
  Reader.run {} s

end Term

end SlotScript.Syntax
