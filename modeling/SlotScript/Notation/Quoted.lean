import SlotScript.Notation.Numeral

/-!
# Quoted parts

Texts in double quotes and single characters in apostrophes, with escapes; a `b` in front makes them
bytes. A raw text starts with `r`, has no escapes, and ends at a quote with as many number signs
after it as stand before its first quote. The readers here pass over a part and refuse one with a
bad escape; of a text, `Ending` also tells whether it was refused because nothing ends it.
-/

namespace SlotScript.Notation

/-- Which escapes a quoted part knows besides those by a letter. -/
structure Escapes where
  /-- Whether `\x` and two digits stand for a byte by themselves. Otherwise they stand for a
  character, or for a part of one. -/
  bytes : Bool := false
  further : Nat := 0
  codePoints : Bool := true
  /-- Whether a line break can be escaped, so that the text goes on with the next line. -/
  breaks : Bool := false

namespace Escapes

def text : Escapes := { further := 3, breaks := true }

def char : Escapes := {}

def byteText : Escapes := { bytes := true, breaks := true }

def byte : Escapes := { bytes := true, codePoints := false }

end Escapes

/-- A byte that is written by two hexadecimal digits. -/
def hexByte : List Char → Option (UInt8 × List Char)
  | c :: d :: s => do
    let high ← digit? c
    let low ← digit? d
    some ((16 * high + low).toUInt8, s)
  | _ => none

/-- Passes over the further bytes of a character, at most as many as given, after the ones it starts
with. -/
def passBytes : Nat → List UInt8 → Pass
  | n, bytes, s =>
    if (String.fromUTF8? ⟨bytes.toArray⟩).isSome then some s
    else
      match n, s with
      | n + 1, '\\' :: 'x' :: s => do
        let (b, s) ← hexByte s
        passBytes n (bytes ++ [b]) s
      | _, _ => none

/-- Passes over a code point of one to six hexadecimal digits and the brace that ends it. -/
def passCodePoint : Pass := fun s =>
  let digits := s.takeWhile fun c => (digit? c).isSome
  match ofDigits? 16 digits, s.drop digits.length with
  | some n, '\x7d' :: s => if digits.length ≤ 6 && decide n.isValidChar then some s else none
  | _, _ => none

/-- Passes over an escape, from the character after the backslash on. -/
def passEscape (e : Escapes) : Pass
  | 'x' :: s => do
    let (b, s) ← hexByte s
    if e.bytes then some s else passBytes e.further [b] s
  | 'u' :: '\x7b' :: s => if e.codePoints then passCodePoint s else none
  | '\n' :: s | '\r' :: '\n' :: s => if e.breaks then some s else none
  | c :: s => if "\x27\"\\nrt0".toList.contains c then some s else none
  | [] => none

/-- How a text goes on after its start. -/
inductive Ending where
  | before (rest : List Char)
  | missing
  | refused

namespace Ending

def rest? : Ending → Option (List Char)
  | .before rest => some rest
  | _ => none

def orElse (e : Ending) (other : Unit → Ending) : Ending :=
  match e with
  | .refused => other ()
  | e => e

instance : OrElse Ending := ⟨orElse⟩

end Ending

/-- The ending of a text from somewhere inside it, found in at most `fuel` steps. -/
def insideEnding (e : Escapes) : Nat → List Char → Ending
  | 0, _ => .missing
  | _, [] => .missing
  | _, '"' :: s => .before s
  | fuel + 1, '\\' :: s =>
    match passEscape e s with
    | some s => insideEnding e fuel s
    | none => if s.contains '"' then .refused else .missing
  | fuel + 1, _ :: s => insideEnding e fuel s

def textEnding (e : Escapes) (s : List Char) : Ending :=
  insideEnding e (s.length + 1) s

def passThrough (ending : List Char) : Pass
  | [] => none
  | c :: s =>
    if ending.isPrefixOf (c :: s) then some (s.drop (ending.length - 1)) else passThrough ending s

def rawEnding (s : List Char) : Ending :=
  let signs := s.takeWhile (· = '#')
  match s.drop signs.length with
  | '"' :: s =>
    match passThrough ('"' :: signs) s with
    | some rest => .before rest
    | none => .missing
  | _ => .refused

def stringEnding : List Char → Ending
  | '"' :: s => textEnding .text s
  | 'r' :: s => rawEnding s
  | _ => .refused

def byteStringEnding : List Char → Ending
  | 'b' :: '"' :: s => textEnding .byteText s
  | 'b' :: 'r' :: s => rawEnding s
  | _ => .refused

def passString : Pass := fun s =>
  (stringEnding s).rest?

/-- Passes over one character and the apostrophe after it. -/
def passSingle (e : Escapes) (allowed : Char → Bool) : Pass := fun s => do
  let s ← match s with
    | '\\' :: s => passEscape e s
    | c :: s => if allowed c then some s else none
    | [] => none
  match s with
  | '\x27' :: s => some s
  | _ => none

def passChar : Pass
  | '\x27' :: s => passSingle .char (fun _ => true) s
  | _ => none

def passByte : Pass
  | 'b' :: '\x27' :: s => passSingle .byte (fun c => c.toNat < 128) s
  | _ => none

/-- The ending of a quoted part, a single byte apart. -/
def quotedEnding (s : List Char) : Ending :=
  match passChar s with
  | some rest => .before rest
  | none => stringEnding s <|> byteStringEnding s

def passQuoted : Pass := fun s =>
  (quotedEnding s).rest?

end SlotScript.Notation
