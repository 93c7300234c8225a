import SyntaxChart.Command.Outcome

/-!
# The program

Reads what the command line asks for, and writes the outcome.
-/

namespace SyntaxChart

/-- The input error behind an error of the system. Reading a folder fails with code 21; a path that
leads through a file fails with another code of the same kind. The only argument that reading can
find invalid is a name, for its length. -/
def InputError.ofSystem : IO.Error → InputError
  | .noFileOrDirectory _ _ _ => .missing
  | .inappropriateType _ 21 _ => .directory
  | .inappropriateType _ _ _ => .notDirectory
  | .invalidArgument _ _ _ => .nameTooLong
  | .permissionDenied _ _ _ => .other "Permission denied (os error 13)"
  | error => .other (toString error)

/-- Reads bytes, and keeps a failure as a value. -/
def readBytes (action : IO ByteArray) : IO (Except InputError ByteArray) := do
  match ← action.toBaseIO with
  | .ok bytes => return .ok bytes
  | .error error => return .error (.ofSystem error)

/-- Reads the one input that a request is about. -/
def Request.readInputs (request : Request) : IO Inputs := do
  match request.file with
  | some name =>
    let bytes ← readBytes (IO.FS.readBinFile name)
    return ⟨fun _ => bytes, .error .missing⟩
  | none =>
    let bytes ← readBytes do (← IO.getStdin).readBinToEnd
    return ⟨fun _ => .error .missing, bytes⟩

/-- How a command line is written. -/
def usageText : String :=
  "usage: [-d TD|LR] [-v]... [--] [FILE]"

/-- Runs a command line and gives its exit code. -/
def runProgram (args : List String) : IO UInt32 := do
  match Command.request? args with
  | none =>
    IO.eprintln usageText
    return 2
  | some request =>
    let outcome := request.outcome (← request.readInputs)
    for line in outcome.messages do
      IO.eprintln line
    IO.print outcome.output
    return .ofNat outcome.code

end SyntaxChart

def main (args : List String) : IO UInt32 :=
  SyntaxChart.runProgram args
