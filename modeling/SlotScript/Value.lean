import SlotScript.Slot

/-!
# Values

What a slot can hold. A list holds the slots of its items, not the items, so items can be shared and
lists can be cyclic. A builtin holds its name and the code `β` by which a library finds its routine.
A host value stands for an object of the embedding program: a borrowed one is only referred to, an
owned one belongs to the slot and may have a destructor that runs when the slot lets go of it.
-/

namespace SlotScript

/-- The kind of a value. -/
inductive Kind where
  | nil | number | integer | text | list | builtin | symbol | host
  deriving DecidableEq, Repr

def Kind.name : Kind → String
  | .nil => "nil"
  | .number => "number"
  | .integer => "integer"
  | .text => "string"
  | .list => "list"
  | .builtin => "builtin"
  | .symbol => "symbol"
  | .host => "host"

/-- A reference to an object of the embedding program, known by its id. -/
inductive Host where
  | borrowed (id : Int)
  | owned (id : Int) (destructor : Bool)
  deriving DecidableEq, Repr

def Host.id : Host → Int
  | .borrowed id => id
  | .owned id _ => id

/-- A value; `β` is the type of codes of builtins. -/
inductive Value (β : Type) where
  | nil
  | number (x : Float)
  | integer (i : Int64)
  | text (s : String)
  | list (items : List Slot)
  | builtin (name : String) (code : β)
  | symbol (name : String)
  | host (h : Host)
  deriving Inhabited

namespace Value

variable {β : Type}

def kind : Value β → Kind
  | .nil => .nil
  | .number _ => .number
  | .integer _ => .integer
  | .text _ => .text
  | .list _ => .list
  | .builtin .. => .builtin
  | .symbol _ => .symbol
  | .host _ => .host

/-- The slots that a value refers to: the items of a list. -/
def items : Value β → List Slot
  | .list items => items
  | _ => []

def isText : Value β → Bool
  | .text _ => true
  | _ => false

/-- The id that the destructor of a value is given, if the value has one. -/
def doomed? : Value β → Option Int
  | .host (.owned id true) => some id
  | _ => none

end Value

end SlotScript
