import SlotScript.Number.Shortest

/-!
# Numbers as text

Two notations of a number, both from its shortest decimal. `display` always writes positionally and
leaves out an empty fraction: `10`, `-2.5`, `0.0000001`. `detail` marks every number as one with a
fraction and turns to an exponent for the very large and the very small: `10.0`, `1e16`, `1.5e-7`.
-/

namespace SlotScript.Number

def digitsOf (n : Nat) : List Char :=
  Nat.toDigits 10 n

/-- Positional notation of a decimal, without a point when nothing stands after it. -/
def Decimal.positional (d : Decimal) : List Char :=
  let ds := digitsOf d.digits
  if 0 ≤ d.exponent then ds ++ List.replicate d.exponent.toNat '0'
  else
    let places := (-d.exponent).toNat
    if places < ds.length then
      ds.take (ds.length - places) ++ '.' :: ds.drop (ds.length - places)
    else '0' :: '.' :: (List.replicate (places - ds.length) '0' ++ ds)

/-- Notation with one digit before the point and an exponent. -/
def Decimal.scientific (d : Decimal) : List Char :=
  let ds := digitsOf d.digits
  let exponent : Int := d.exponent + (ds.length - 1 : Nat)
  let mantissa := match ds with
    | first :: second :: rest => first :: '.' :: second :: rest
    | short => short
  mantissa ++ 'e' :: (toString exponent).toList

def signed (negative : Bool) (text : List Char) : List Char :=
  if negative then '-' :: text else text

/-- The text of a number that is no finite one, and of any other by `finite` from its magnitude. -/
def write (finite : Nat → List Char) (x : Float) : List Char :=
  let bits := magnitude x
  if infinityBits < bits then "NaN".toList
  else signed (isNegative x) (if bits = infinityBits then "inf".toList else finite bits)

/-- The text of a number: the shortest decimal that reads back, written positionally. -/
def display (x : Float) : String :=
  .ofList <| write (fun bits => if bits = 0 then ['0'] else (shortest bits).positional) x

/-- The text of a number that always shows it is one with a fraction. Positional notation is used
from 10^-4 up to, and without, 10^16. -/
def detail (x : Float) : String :=
  .ofList <| write (fun bits =>
    if bits = 0 then "0.0".toList
    else
      let d := shortest bits
      if nearestDecimal 1 16 ≤ bits || bits < nearestDecimal 1 (-4) then d.scientific
      else if 0 ≤ d.exponent then d.positional ++ ['.', '0'] else d.positional) x

end SlotScript.Number
