import SlotScript.Notation.Attribute
import SlotScript.Notation.Range

/-!
# Values of any kind

`passValue` passes over one value whatever it is: a name, a number or a range, a quoted part, `Some`
of a value, or values in brackets, in front of which a name may stand. Round brackets hold either
named fields or a tuple, square ones a list, and braces a map. Values can lie inside each other only
so deep: each bracket takes room, and so does each item in it.
-/

namespace SlotScript.Notation

/-- How much room there is for values inside each other. -/
def roomLimit : Nat := 128

/-! ## Items in brackets -/

/-- Passes over items with commas between and perhaps after them, at most `fuel` of them, up to the
closing bracket, which is left. -/
def itemsFrom (item : Pass) (closer : Char) : Nat → Pass
  | 0, _ => none
  | _, [] => none
  | fuel + 1, c :: s =>
    if c = closer then some (c :: s)
    else do
      match (← skip (← item (c :: s))) with
      | ',' :: s => itemsFrom item closer fuel (← skip s)
      | d :: s => if d = closer then some (d :: s) else none
      | [] => none

/-- Passes over items up to the closing bracket, which is left. -/
def items (item : Pass) (closer : Char) : Pass := fun s => do
  let s ← skip s
  itemsFrom item closer (s.length + 1) s

def pair (key value : Pass) : Pass := fun s => do
  value (← punctuation ':' (← skip (← key s)))

def passName : Pass := fun s =>
  (name s).map (·.2)

def startsField (s : List Char) : Bool :=
  match passName s with
  | some s =>
    match skip s with
    | some (':' :: _) => true
    | _ => false
  | none => false

/-- Passes over what stands in round brackets: fields if the first item is one, else a tuple. -/
def members (item : Pass) : Pass := fun s => do
  let s ← skip s
  items (if startsField s then pair passName item else item) ')' s

/-! ## The brackets of an option -/

/-- What the brackets of an option hold, when they can also be those of its content. -/
inductive Content where
  | one
  | several
  | fields

/-- Whether more than one item stands before the closing bracket; `depth` brackets inside are open.
Quoted parts are passed over; one that is refused counts character by character. -/
def severalFrom : Nat → Nat → List Char → Option Bool
  | 0, _, _ => none
  | fuel + 1, depth, s => do
    let s ← skip s
    match quotedEnding s, s with
    | .before s, _ => severalFrom fuel depth s
    | .missing, _ | .refused, [] => none
    | .refused, c :: s =>
      if "([\x7b".toList.contains c then severalFrom fuel (depth + 1) s
      else if ")]\x7d".toList.contains c then
        match depth with
        | 0 => some false
        | depth + 1 => severalFrom fuel depth s
      else if c = ',' && depth = 0 then return (← skip s).head? ≠ some ')'
      else severalFrom fuel depth s

/-- What the brackets of an option hold, given the text after the opening one. -/
def content (s : List Char) : Option Content := do
  if startsField s then return .fields
  let several ← severalFrom (s.length + 1) 0 s
  return if several then .several else .one

/-! ## Values -/

/-- What can be read further inside. -/
structure Inside where
  wrapped : Pass
  bare : Pass
  item : Pass

def passOption (x : Extensions) (i : Inside) : Pass := fun s => do
  match (← skip s) with
  | '(' :: s =>
    let s ← skip (← i.wrapped (← skip s))
    let s ← match s with
      | ',' :: s => skip s
      | s => some s
    match s with
    | ')' :: s => some s
    | _ => none
  | s => if x.implicitSome then i.bare s else none

def plainWords : List String :=
  ["true", "false", "None"]

/-- Passes over a value. Without an inside there is no room for brackets. -/
def passForm (x : Extensions) (inside : Option Inside) (s : List Char) : Option (List Char) :=
  match word s with
  | some (w, rest) =>
    if plainWords.contains w then some rest
    else if unboundedWords.contains w then passRangeEnd rest
    else if w = "Some" then inside.bind fun i => passOption x i rest
    else passOther s
  | none => passOther s
where
  bracketed (content : Inside → Pass) (s : List Char) : Option (List Char) := do
    (← content (← inside) s).tail?
  passOther (s : List Char) : Option (List Char) :=
    match name s, s with
    | some (_, s), _ => do
      match (← skip s) with
      | '(' :: s => bracketed (members ·.item) s
      | s => some s
    | none, '(' :: ')' :: s => some s
    | none, '(' :: s => bracketed (members ·.item) s
    | none, '[' :: s => bracketed (fun i => items i.item ']') s
    | none, '\x7b' :: s => bracketed (fun i => items (pair i.item i.item) '\x7d') s
    | none, s => passQuoted s <|> passRange s

/-- Passes over what stands in the brackets of an option. -/
def passWrapped (x : Extensions) (inside : Option Inside) (s : List Char) : Option (List Char) :=
  if x.unwrapSome && s.head? ≠ some ')' then do
    match (← content s) with
    | .one => passForm x inside s
    | .several => items (← inside).item ')' s
    | .fields => items (pair passName (← inside).item) ')' s
  else if x.unwrapSome then some s
  else passForm x inside s

/-- Passes over a value, or over what stands in the brackets of an option, with some room left. A
bracket takes one unit of room and an item in it another. -/
def passAt (x : Extensions) : Nat → Bool → List Char → Option (List Char)
  | 0, wrapped, s => form wrapped none s
  | 1, wrapped, s =>
    form wrapped (some ⟨fun s => passAt x 0 true s, fun s => passAt x 0 false s, fun _ => none⟩) s
  | room + 2, wrapped, s =>
    form wrapped (some ⟨fun s => passAt x (room + 1) true s, fun s => passAt x (room + 1) false s,
      fun s => passAt x room false s⟩) s
where
  form (wrapped : Bool) (inside : Option Inside) (s : List Char) : Option (List Char) :=
    if wrapped then passWrapped x inside s else passForm x inside s

def passValue (x : Extensions) (room : Nat) : Pass :=
  passAt x room false

end SlotScript.Notation
