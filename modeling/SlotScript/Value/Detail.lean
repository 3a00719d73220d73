import SlotScript.Number.Format
import SlotScript.Text.Quoted
import SlotScript.Value

/-!
# Values in detail

A notation of single values for diagnostics. It shows the kind of a value and the slots of a list,
so it needs no machine.
-/

namespace SlotScript

def Slot.detail (s : Slot) : String :=
  "Slot \x7b index: " ++ toString s.index ++
    ", generation: " ++ toString s.generation.toNat ++ " \x7d"

def Host.detail : Host → String
  | .borrowed _ => "HostValue::Borrowed(..)"
  | .owned .. => "HostValue::Owned(..)"

def Value.detail {β : Type} : Value β → String
  | .nil => "Nil"
  | .number x => "Number(" ++ Number.detail x ++ ")"
  | .integer i => "Integer(" ++ toString i.toInt ++ ")"
  | .text s => "String(" ++ Text.quote s ++ ")"
  | .list items => "List([" ++ ", ".intercalate (items.map Slot.detail) ++ "])"
  | .builtin name _ => "Builtin(NativeFunction \x7b name: " ++ Text.quote name ++ " \x7d)"
  | .symbol name => "Symbol(" ++ Text.quote name ++ ")"
  | .host h => "Host(" ++ h.detail ++ ")"

end SlotScript
