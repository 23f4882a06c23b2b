import Allotment.Command.Basic

/-!
# The executable

Runs the command: reads the configuration file if one is needed, prints what the command printed,
and ends with its exit code.
-/

namespace Allotment.Command

/-- The system's code for a name in a path that is not a folder. -/
def notFolderCode : UInt32 := 20

/-- Loads a file. -/
def load (path : String) : IO (Except LoadError String) := do
  try
    return .ok (← IO.FS.readFile path)
  catch
    | .permissionDenied .. => return .error .denied
    | .invalidArgument .. => return .error .badPath
    | .inappropriateType _ code _ =>
      return .error (if code == notFolderCode then .notFolder else .folder)
    | _ => return .error .missing

/-- Prints an outcome and gives its exit code. -/
def Outcome.emit (o : Outcome) : IO UInt32 := do
  (← IO.getStdout).putStr o.stdout
  (← IO.getStderr).putStr o.stderr
  return UInt32.ofNat o.code

end Allotment.Command

/-- Runs the command with its arguments. -/
def main (args : List String) : IO UInt32 := do
  match Allotment.Command.plan args with
  | .finish o => o.emit
  | .load path withBlocks verbosity =>
    (Allotment.Command.report path withBlocks verbosity (← Allotment.Command.load path)).emit
