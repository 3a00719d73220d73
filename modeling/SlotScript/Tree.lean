import SlotScript.Number.Format
import SlotScript.Value

/-!
# Value trees and their text

A value tree is a value with the trees of its items in the place of their slots. Its text is command
text: numbers in their shortest form, texts in quotes, lists in round brackets, symbols bare.
-/

namespace SlotScript

variable {β : Type}

/-- A value with its items in the place of their slots. -/
inductive Tree (β : Type) where
  | leaf (v : Value β)
  | node (items : List (Tree β))
  deriving Inhabited

/-- A text in double quotes, or in single ones when it has a double quote. -/
def quoted (s : String) : String :=
  let quote := if s.toList.contains '"' then "'" else "\""
  quote ++ s ++ quote

def Value.leafText : Value β → String
  | .nil => "nil"
  | .number x => Number.display x
  | .integer i => toString i.toInt
  | .text s => quoted s
  | .list _ => "()"
  | .builtin name _ => s!"<builtin {name}>"
  | .symbol name => name
  | .host (.borrowed _) => "<host>"
  | .host (.owned ..) => "<host owned>"

namespace Tree

mutual

def text : Tree β → String
  | .leaf v => v.leafText
  | .node items => "(" ++ " ".intercalate (texts items) ++ ")"

def texts : List (Tree β) → List String
  | [] => []
  | t :: rest => t.text :: texts rest

end

def textAll (trees : List (Tree β)) : String :=
  " ".intercalate (texts trees)

end Tree

end SlotScript
