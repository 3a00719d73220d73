import SlotScript.Syntax.Nesting
import SlotScript.Text.Edit
import SlotScript.Value

/-!
# Errors of a machine

The causes for which an operation of a machine fails, and their wording.
-/

namespace SlotScript

/-- Why an operation failed. -/
inductive Error where
  | undefinedSymbol (name : String)
  | wrongKind (expected found : Kind)
  | unterminated (cause : Syntax.NestingError)
  | invalidHandle (slot : Slot)
  | tooDeep (limit : Nat)
  | wrongArity (name : String) (expected found : Nat)
  | noValue
  | badIndex (index length : Nat)
  | badRange (range : Text.RangeError)
  | ownedCopy
  | failed (reason : String)
  deriving DecidableEq, Repr

def Error.message : Error → String
  | .undefinedSymbol name => s!"Undefined symbol: {name}"
  | .wrongKind expected found =>
    s!"Type mismatch: expected {expected.name}, found {found.name}"
  | .unterminated cause => s!"Unterminated expression: {cause.message}"
  | .invalidHandle slot => s!"Invalid handle: {slot.text}"
  | .tooDeep limit => s!"Stack overflow: nesting exceeds {limit} levels"
  | .wrongArity name expected found =>
    s!"Arity mismatch: {name} expects {expected} argument(s), got {found}"
  | .noValue => "Expression produced no value"
  | .badIndex index length => s!"Index out of bounds: {index} of {length}"
  | .badRange range => s!"Index out of bounds: {range.message}"
  | .ownedCopy => "Runtime error: owned host values cannot be duplicated"
  | .failed reason => s!"Runtime error: {reason}"

namespace Value

variable {β : Type}

/-- A copy of a value for another slot. The items of a list are shared, an owned host value has no
copy. -/
def copy : Value β → Except Error (Value β)
  | .host (.owned ..) => .error .ownedCopy
  | v => .ok v

def asNumber : Value β → Except Error Float
  | .number x => .ok x
  | v => .error (.wrongKind .number v.kind)

def asInteger : Value β → Except Error Int64
  | .integer i => .ok i
  | v => .error (.wrongKind .integer v.kind)

def asText : Value β → Except Error String
  | .text s => .ok s
  | v => .error (.wrongKind .text v.kind)

def asList : Value β → Except Error (List Slot)
  | .list items => .ok items
  | v => .error (.wrongKind .list v.kind)

def asSymbol : Value β → Except Error String
  | .symbol name => .ok name
  | v => .error (.wrongKind .symbol v.kind)

end Value

end SlotScript
