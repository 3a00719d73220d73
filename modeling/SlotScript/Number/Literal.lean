import SlotScript.Number.Binary64
import SlotScript.Number.Digits

/-!
# Decimal literals

A literal is an optional sign, digits with at most one point among or around them, and an optional
exponent: `12`, `-3.5`, `.5`, `1.`, `+2e-7`. It denotes a rational number; `read?` gives the
binary64 number nearest to it and refuses a literal that is too large for the format. An exponent is
bounded: once its digits come to `exponentBound`, further ones are not counted.
-/

namespace SlotScript.Number

/-- A decimal literal: the digits before and after the point, as read, and the written exponent. -/
structure Literal where
  negative : Bool
  whole : List Char
  fraction : List Char
  exponent : Int
  deriving DecidableEq, Repr

namespace Literal

def digitValue (c : Char) : Nat :=
  c.toNat - '0'.toNat

def value (digits : List Char) : Nat :=
  ofDigits 10 (digits.map digitValue).reverse

/-- The value of a run is found digit by digit, the highest first. -/
theorem value_eq_foldl (digits : List Char) :
    value digits = digits.foldl (fun n c => digitValue c + 10 * n) 0 := by
  simp [value, ofDigits_eq_foldr, List.foldl_map]

/-- The number from which on the digits of an exponent are not counted. -/
def exponentBound : Nat := 65536

/-- The number that the digits of an exponent write, as far as they are counted. -/
def exponentValue (digits : List Char) : Nat :=
  digits.foldl (fun n c => if n < exponentBound then 10 * n + digitValue c else n) 0

def sign : List Char → Bool × List Char
  | '-' :: s => (true, s)
  | '+' :: s => (false, s)
  | s => (false, s)

/-- The written exponent, zero when there is none; the text has to end after it. -/
def exponent? : List Char → Option Int
  | [] => some 0
  | c :: s =>
    if c = 'e' ∨ c = 'E' then
      let (negative, digits) := sign s
      if digits.isEmpty || !digits.all Char.isDigit then none
      else some (if negative then -(exponentValue digits : Int) else exponentValue digits)
    else none

/-- The digits after a point, if there is one, and the text after them. -/
def fractionPart : List Char → List Char × List Char
  | '.' :: s => (s.takeWhile Char.isDigit, s.dropWhile Char.isDigit)
  | s => ([], s)

def parse? (s : List Char) : Option Literal :=
  let (negative, s) := sign s
  let whole := s.takeWhile Char.isDigit
  let (fraction, s) := fractionPart (s.dropWhile Char.isDigit)
  if whole.isEmpty && fraction.isEmpty then none
  else (exponent? s).map fun exponent => { negative, whole, fraction, exponent }

/-- All digits of the literal, as one natural number. -/
def digits (l : Literal) : Nat :=
  value (l.whole ++ l.fraction)

def scale (l : Literal) : Int :=
  l.exponent - l.fraction.length

/-- The magnitude nearest to the literal. A quotient that is out of the format's range by its number
of digits alone is not written out: above 10^400 it is too large, below 10^-400 it is zero. -/
def nearestBits (l : Literal) : Nat :=
  if l.digits = 0 then 0
  else if 400 < l.scale then infinityBits
  else if l.scale + (l.whole.length + l.fraction.length) < -400 then 0
  else nearestDecimal l.digits l.scale

end Literal

/-- The number that a text writes, `none` when it is no literal or too large. -/
def read? (s : List Char) : Option Float :=
  match Literal.parse? s with
  | none => none
  | some l =>
    if l.nearestBits < infinityBits then some (ofMagnitude l.negative l.nearestBits) else none

end SlotScript.Number
