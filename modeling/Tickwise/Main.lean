import Tickwise.CommandLine
set_option autoImplicit false

/-!
# The program

The command line on the files and the screen of the machine.
-/
namespace Tickwise

/-- The system's words for a failed access to a file. -/
def describeFailure (e : IO.Error) : String :=
  let numbered (code : UInt32) (details : String) := details ++ " (os error " ++ toString code ++ ")"
  match e with
  | .noFileOrDirectory _ code details => numbered code details
  | .permissionDenied _ code details => numbered code details
  | .inappropriateType _ code details => numbered code details
  | e => toString e

def systemConsole : Console IO where
  fetch file := do
    match ← (IO.FS.readBinFile file).toBaseIO with
    | .ok bytes => return .ok bytes.data.toList
    | .error e => return .error (describeFailure e)
  store file bytes := do
    match ← (IO.FS.writeBinFile file ⟨bytes.toArray⟩).toBaseIO with
    | .ok () => return .ok ()
    | .error e => return .error (describeFailure e)
  print line := IO.println line

end Tickwise

def main (args : List String) : IO UInt32 := do
  let path := toString (← IO.appPath)
  Tickwise.systemConsole.execute ((path.splitOn "/").getLastD path) args
