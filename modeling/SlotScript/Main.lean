import SlotScript.CommandLine

/-!
# The program

Looks up the files that the arguments name, then writes what `CommandLine.report` says and ends with
its code.
-/

namespace SlotScript

/-- The number of an operating system error, which some calls give with a minus sign. -/
def osNumber (code : UInt32) : Nat :=
  code.toInt32.toInt.natAbs

def lookUp (path : String) : IO (Except FileError FileNode) := do
  try
    return .ok (.file (← IO.FS.readBinFile path))
  catch
    | .noFileOrDirectory .. => return .error .missing
    | .inappropriateType _ code reason =>
      match osNumber code with
      | 20 => return .error .notDirectory
      | 21 => return .ok .directory
      | number => return .error (.system reason number)
    | .invalidArgument _ code reason =>
      match osNumber code with
      | 36 => return .error .nameTooLong
      | number => return .error (.system reason number)
    | .permissionDenied _ code reason => return .error (.system reason (osNumber code))
    | e => return .error (.system (toString e) 5)

end SlotScript

open SlotScript in
def main (args : List String) : IO UInt32 := do
  let found ← (CommandLine.paths args).mapM fun path => return (path, ← lookUp path)
  let report := CommandLine.report (fun path => (found.lookup path).getD (.error .missing)) args
  IO.print report.out
  IO.eprint report.err
  return (report.code.map UInt8.toUInt32).getD 134
