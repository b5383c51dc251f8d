import PL0.Command

/-!
# The program

Real files and terminals for `respond`.
-/

namespace PL0

/-- The number of an error of the system, which may be given negated. -/
def systemErrorNumber (code : UInt32) : Nat :=
  if code.toNat < UInt32.size / 2 then code.toNat else UInt32.size - code.toNat

/-- A fault of the system in the words of the command line. -/
def FileFault.ofSystem : IO.Error → FileFault
  | .noFileOrDirectory _ _ _ => .notFound
  | .permissionDenied _ code _ => .other ("Permission denied (os error " ++ (systemErrorNumber code).repr ++ ")")
  | .inappropriateType _ code _ => if systemErrorNumber code = 20 then .notADirectory else .isADirectory
  | .invalidArgument _ code details =>
    if systemErrorNumber code = 36 then .nameTooLong
    else .other (details ++ " (os error " ++ (systemErrorNumber code).repr ++ ")")
  | e => .other e.toString

instance : FileAccess IO where
  read path := do
    try return .ok (← IO.FS.readBinFile path)
    catch e => return .error (.ofSystem e)
  write path content := do
    try return .ok (← IO.FS.writeBinFile path content)
    catch e => return .error (.ofSystem e)

end PL0

def main (arguments : List String) : IO UInt32 := do
  let report : PL0.Report ← PL0.respond arguments
  IO.print report.stdout
  IO.eprint report.stderr
  return report.status.toUInt32
