import SlotScript.Syntax.Nesting
import SlotScript.Text.Blank

/-!
# Cutting command text outside groups and quotes

Two cuts of a text that leave quoted strings and bracketed groups whole. `words` cuts at blanks and
around every outermost string or group, so that each of those is a word of its own. `statements`
cuts at a delimiter, trims what lies between, and drops what is blank.
-/

namespace SlotScript.Syntax

open SlotScript.Text (isBlank trim)

/-- Puts a word, given last character first, in front of the others unless it is empty. -/
def putWord (word : List Char) (rest : List (List Char)) : List (List Char) :=
  if word.isEmpty then rest else word.reverse :: rest

/-- `words` from the middle of a text: `n` is open and `word` has been read, last character
first. -/
def wordsFrom (n : Nesting) (word : List Char) :
    List Char → Except NestingError (List (List Char))
  | [] => n.finish.map fun _ => putWord word []
  | c :: s =>
    match n.step c with
    | .error e => .error e
    | .ok n' =>
      match n.isTop, n'.isTop with
      | true, true =>
        if isBlank c then (wordsFrom n' [] s).map (putWord word) else wordsFrom n' (c :: word) s
      | true, false => (wordsFrom n' [c] s).map (putWord word)
      | false, true => (wordsFrom n' [] s).map (putWord (c :: word))
      | false, false => wordsFrom n' (c :: word) s

/-- The words of a text: runs of ordinary nonblank characters, and outermost strings and groups. -/
def words (s : List Char) : Except NestingError (List (List Char)) :=
  wordsFrom .top [] s

def piecesFrom (delim : Char) (n : Nesting) (piece : List Char) :
    List Char → Except NestingError (List (List Char))
  | [] => n.finish.map fun _ => [piece.reverse]
  | c :: s =>
    match n.step c with
    | .error e => .error e
    | .ok n' =>
      if n.isTop && n'.isTop && c == delim then
        (piecesFrom delim n' [] s).map (piece.reverse :: ·)
      else piecesFrom delim n' (c :: piece) s

/-- What lies between the delimiters that stand outside groups and quotes. -/
def pieces (delim : Char) (s : List Char) : Except NestingError (List (List Char)) :=
  piecesFrom delim .top [] s

/-- The trimmed pieces of a text, without the blank ones. -/
def statements (delim : Char) (s : List Char) : Except NestingError (List (List Char)) :=
  (pieces delim s).map fun ps => (ps.map trim).filter fun p => !p.isEmpty

end SlotScript.Syntax
