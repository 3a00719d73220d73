/-!
# Nesting of groups and quotes

Command text is made of ordinary characters, quoted strings and bracketed groups. `Nesting` is what
has to be known about the text read so far: which closers are awaited and whether a quote is open.
Reading a character is `Nesting.step`, and `Nesting.finish` accepts the end of the text exactly when
everything is closed. Every reader of command text follows these two functions, so all of them
accept the same texts and reject the others with the same error.
-/

namespace SlotScript.Syntax

/-- Why a text is not well nested. -/
inductive NestingError where
  | openQuote (quote : Char)
  /-- The text ends inside a group that `closer` would have closed. -/
  | openGroup (closer : Char)
  | strayCloser (found : Char)
  | wrongCloser (expected found : Char)
  deriving DecidableEq, Repr

def NestingError.message : NestingError → String
  | .openQuote quote => s!"unterminated string starting with {quote}"
  | .openGroup closer => s!"unterminated group, expected '{closer}'"
  | .strayCloser found => s!"unexpected '{found}'"
  | .wrongCloser expected found => s!"expected '{expected}' but found '{found}'"

/-- What a character outside quotes does to the nesting. -/
inductive Mark where
  | quote
  | opener (closer : Char)
  | closer
  | plain
  deriving DecidableEq, Repr

/-- The mark of a character: two kinds of quote, two kinds of bracket, all else is plain. -/
def Mark.of (c : Char) : Mark :=
  if c = '"' ∨ c = '\x27' then .quote
  else if c = '(' then .opener ')'
  else if c = '[' then .opener ']'
  else if c = ')' ∨ c = ']' then .closer
  else .plain

/-- What is open at a place of a text: the awaited closers, innermost first, and an open quote. -/
structure Nesting where
  closers : List Char := []
  quote : Option Char := none
  deriving DecidableEq, Repr

namespace Nesting

def top : Nesting := {}

def isTop (n : Nesting) : Bool :=
  n.closers.isEmpty && n.quote.isNone

def step (n : Nesting) (c : Char) : Except NestingError Nesting :=
  match n.quote with
  | some q => .ok (if c = q then { n with quote := none } else n)
  | none =>
    match Mark.of c with
    | .quote => .ok { n with quote := some c }
    | .opener closer => .ok { n with closers := closer :: n.closers }
    | .closer =>
      match n.closers with
      | [] => .error (.strayCloser c)
      | expected :: rest =>
        if expected = c then .ok { n with closers := rest } else .error (.wrongCloser expected c)
    | .plain => .ok n

/-- Accepts the end of the text when nothing is open. -/
def finish (n : Nesting) : Except NestingError Unit :=
  match n.quote, n.closers with
  | some q, _ => .error (.openQuote q)
  | none, closer :: _ => .error (.openGroup closer)
  | none, [] => .ok ()

end Nesting

end SlotScript.Syntax
