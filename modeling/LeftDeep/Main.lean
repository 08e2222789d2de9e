import LeftDeep.CommandLine

/-!
# The program

Reads the workload file named on the command line and prints the chosen join order.
-/

namespace LeftDeep

/-- Reads the bytes of a file. -/
def readContent (file : String) : IO (Except ReadError ByteArray) := do
  try
    return .ok (← IO.FS.readBinFile file)
  catch e =>
    match e with
    | .noFileOrDirectory .. => return .error .notFound
    | .permissionDenied .. => return .error (.system "Permission denied" 13)
    | .inappropriateType .. => return .error (.system "Is a directory" 21)
    | _ => return .error (.system "Input/output error" 5)

end LeftDeep

def main (args : List String) : IO UInt32 := do
  let outcome ← match LeftDeep.Invocation.parse? args with
    | none => pure LeftDeep.Outcome.usageError
    | some invocation => do
      let content ← LeftDeep.readContent invocation.file
      pure (invocation.run content)
  IO.print outcome.stdout
  IO.eprint outcome.stderr
  return outcome.code
