import DefUse.CommandLine

namespace DefUse

/-- The files that an invocation reads. -/
def Invocation.files (i : Invocation) : List String :=
  match i.command with
  | .lift _ files => files
  | .check files => files
  | .userops => []

/-- Whether an invocation reads the standard input. -/
def Invocation.readsInput (i : Invocation) : Bool :=
  match i.command with
  | .lift _ [] => true
  | _ => false

/-- The fault that the system reports; it gives its codes with either sign. -/
def ReadFault.ofError : IO.Error → ReadFault
  | .inappropriateType _ code _ => if code = 21 || code = -21 then .isDirectory else .notDirectory
  | .invalidArgument .. => .nameTooLong
  | .permissionDenied .. => .denied
  | .userError _ => .notText
  | _ => .missing

def readFiles (files : List String) : IO (Assoc String (Except ReadFault String)) :=
  files.foldlM (fun texts (file : String) => do
    try return texts.put file (.ok (← IO.FS.readFile file))
    catch e => return texts.put file (.error (.ofError e))) []

def readInput : IO String := do
  (← IO.getStdin).readToEnd

end DefUse

open DefUse in
def main (args : List String) : IO UInt32 := do
  let answer ← match CommandLine.parse? args with
    | none => pure Answer.usage
    | some invocation =>
      let texts ← readFiles invocation.files
      let stdin ← if invocation.readsInput then readInput else pure ""
      pure (invocation.answer stdin fun file => (texts.get? file).getD (.error .missing))
  (← IO.getStdout).putStr answer.stdout
  (← IO.getStderr).putStr answer.stderr
  return answer.status.toUInt32
