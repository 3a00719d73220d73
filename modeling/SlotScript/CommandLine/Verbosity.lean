/-!
# Log levels
-/

namespace SlotScript

/-- How much is logged, the most first. -/
inductive Verbosity where
  | trace | debug | info | warn | error
  deriving DecidableEq, Repr

namespace Verbosity

/-- The level for a number of times that more output was asked for. -/
def ofCount : Nat → Verbosity
  | 0 => .warn
  | 1 => .info
  | 2 => .debug
  | _ => .trace

def name : Verbosity → String
  | .trace => "Trace"
  | .debug => "Debug"
  | .info => "Info"
  | .warn => "Warn"
  | .error => "Error"

def tag (l : Verbosity) : String :=
  l.name.toUpper

end Verbosity

end SlotScript
