import SlotScript.Notation.Name
import SlotScript.Number.Literal

/-!
# Numbers in a notation

A whole number is written in base ten, or in base two, eight or sixteen after `0b`, `0o` or `0x`;
its digits may be parted by underscores, and a suffix such as `u8` or `i64` names the width that has
to hold it. Any other number is a decimal literal, perhaps with the suffix `f32` or `f64`;
underscores may stand after its digits and its exponent mark.
-/

namespace SlotScript.Notation

open Number (Literal)

/-! ## Whole numbers -/

def digit? (c : Char) : Option Nat :=
  if '0' ≤ c && c ≤ '9' then some (c.toNat - '0'.toNat)
  else if 'a' ≤ c && c ≤ 'f' then some (c.toNat - 'a'.toNat + 10)
  else if 'A' ≤ c && c ≤ 'F' then some (c.toNat - 'A'.toNat + 10)
  else none

/-- Whether a character belongs to a run of digits, which may be parted by underscores. -/
def isDigitRun (c : Char) : Bool :=
  c = '_' || (digit? c).isSome

/-- The number that a run of digits writes in a base. It starts with a digit. -/
def ofDigits? (base : Nat) (run : List Char) : Option Nat :=
  if run.isEmpty || run.head? = some '_' then none
  else
    (run.filter (· ≠ '_')).foldl (fun n c =>
      match n, digit? c with
      | some n, some d => if d < base then some (base * n + d) else none
      | _, _ => none) (some 0)

/-- The base that a number is written in, and its digits. -/
def base : List Char → Nat × List Char
  | '0' :: 'x' :: s => (16, s)
  | '0' :: 'b' :: s => (2, s)
  | '0' :: 'o' :: s => (8, s)
  | s => (10, s)

/-- A kind of fixed-width integers. -/
structure Width where
  signed : Bool
  bits : Nat
  deriving DecidableEq, Repr

namespace Width

def word64 : Width := ⟨false, 64⟩

def ofSuffix? : String → Option Width
  | "i8" => some ⟨true, 8⟩
  | "i16" => some ⟨true, 16⟩
  | "i32" => some ⟨true, 32⟩
  | "i64" => some ⟨true, 64⟩
  | "u8" => some ⟨false, 8⟩
  | "u16" => some ⟨false, 16⟩
  | "u32" => some ⟨false, 32⟩
  | "u64" => some word64
  | _ => none

def holds (w : Width) (i : Int) : Bool :=
  if w.signed then -(Nat.pow 2 (w.bits - 1) : Int) ≤ i && i < Nat.pow 2 (w.bits - 1)
  else 0 ≤ i && i < Nat.pow 2 w.bits

end Width

/-- A whole number as it is written: its value and the width that its suffix names. -/
structure Numeral where
  value : Int
  width : Option Width := none

def numeral (s : List Char) : Option (Numeral × List Char) := do
  let (negative, s) := Literal.sign s
  let (base, s) := base s
  let n ← ofDigits? base (s.takeWhile isDigitRun)
  let value : Int := if negative then -(n : Int) else n
  let s := s.dropWhile isDigitRun
  match word s with
  | some (suffix, rest) =>
    match Width.ofSuffix? suffix with
    | some width => some ({ value, width := some width }, rest)
    | none => some ({ value }, s)
  | none => some ({ value }, s)

def size (s : List Char) : Option (Nat × List Char) := do
  let (n, s) ← numeral s
  if n.width.getD .word64 = .word64 && Width.word64.holds n.value then some (n.value.toNat, s)
  else none

/-- Passes over a whole number that its width holds. Without a suffix there are 64 bits, and a sign
if the number needs one. -/
def passWhole : Pass := fun s => do
  let (n, s) ← numeral s
  if (n.width.getD ⟨n.value < 0, 64⟩).holds n.value then some s else none

/-! ## Decimals -/

def isDecimalRun (c : Char) : Bool :=
  c.isDigit || c = '_' || c = '.' || c = 'e' || c = 'E' || c = '+' || c = '-'

/-- The characters of a decimal. Two points in a row do not belong to it. -/
def decimalRun : List Char → List Char
  | '.' :: '.' :: _ => []
  | c :: s => if isDecimalRun c then c :: decimalRun s else []
  | [] => []

/-- The decimal without its underscores. One may stand where the last character other than a sign
was a digit, an exponent mark or another underscore. -/
def withoutUnderscores : Bool → List Char → Option (List Char)
  | _, [] => some []
  | allowed, c :: s =>
    if c = '_' then if allowed then withoutUnderscores allowed s else none
    else
      let allowed := c ≠ '.' && (allowed || c.isDigit || c = 'e' || c = 'E')
      (withoutUnderscores allowed s).map (c :: ·)

/-- The words for infinity and for what is no number, with their suffixes. -/
def unboundedWords : List String :=
  ["inf", "inff32", "inff64", "NaN", "NaNf32", "NaNf64"]

/-- Passes over a decimal and its suffix, or over a word for no finite number. -/
def passDecimal : Pass := fun s =>
  match word (Literal.sign s).2 with
  | some (w, rest) => if unboundedWords.contains w then some rest else none
  | none =>
    let run := decimalRun s
    let rest := s.drop run.length
    if ((withoutUnderscores false run).bind Literal.parse?).isNone then none
    else
      match word rest with
      | some ("f32", rest) | some ("f64", rest) => some rest
      | _ => some rest

def passNumber : Pass := fun s =>
  let unsigned := (Literal.sign s).2
  if (unsigned.takeWhile isDigitRun).length < (decimalRun unsigned).length then passDecimal s
  else passWhole s <|> passDecimal s

end SlotScript.Notation
