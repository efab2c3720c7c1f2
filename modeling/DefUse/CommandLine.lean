import DefUse.Check.Verdict
import DefUse.Text.Quoted

namespace DefUse

inductive Command where
  | lift (settings : Settings) (files : List String)
  | check (files : List String)
  | userops
deriving DecidableEq, Repr

structure Invocation where
  command : Command
  verbose : Bool := false
deriving DecidableEq, Repr

/-- Why a path gives no text. -/
inductive ReadFault where
  | missing
  | notDirectory
  | isDirectory
  | nameTooLong
  | denied
  | notText
deriving DecidableEq, Repr

def ReadFault.message : ReadFault → String
  | missing => "Os \x7b code: 2, kind: NotFound, message: \"No such file or directory\" \x7d"
  | notDirectory => "Os \x7b code: 20, kind: NotADirectory, message: \"Not a directory\" \x7d"
  | isDirectory => "Os \x7b code: 21, kind: IsADirectory, message: \"Is a directory\" \x7d"
  | nameTooLong => "Os \x7b code: 36, kind: InvalidFilename, message: \"File name too long\" \x7d"
  | denied => "Os \x7b code: 13, kind: PermissionDenied, message: \"Permission denied\" \x7d"
  | notText =>
    "Error \x7b kind: InvalidData, message: \"stream did not contain valid UTF-8\" \x7d"

/-- What a command leaves behind. -/
structure Answer where
  status : Nat := 0
  stdout : String := ""
  stderr : String := ""
deriving DecidableEq, Repr

namespace CommandLine

/-- Arguments as they are read: settings, files, and the names of the options given. -/
structure Reading where
  settings : Settings := {}
  files : List String := []
  given : List String := []
  verbose : Bool := false
deriving DecidableEq, Repr

/-- Notes that an option is given; a second time it is refused. -/
def Reading.once (r : Reading) (option : String) : Option Reading :=
  if option ∈ r.given then none else some { r with given := option :: r.given }

/-- A file has a name. -/
def Reading.addFile (r : Reading) (file : String) : Option Reading :=
  if file.isEmpty then none else some { r with files := r.files ++ [file] }

def Reading.addVerbose (r : Reading) : Option Reading := do
  let r ← r.once "--verbose"
  return { r with verbose := true }

def Reading.addSwitch (r : Reading) (option : String) : Option Reading := do
  let r ← r.once option
  let settings ← r.settings.switch? option
  return { r with settings }

def takesValue (option : String) : Bool :=
  option = "--mismatch" || option = "--threads" || option = "--taint"

def Reading.addValue (r : Reading) (option value : String) : Option Reading := do
  let r ← r.once option
  match option with
  | "--mismatch" =>
    let mismatch ← OnMismatch.ofText? value
    return { r with settings := { r.settings with mismatch } }
  | "--threads" =>
    match Text.readCount value.toList with
    | .ok threads => return { r with settings := { r.settings with threads := max threads 1 } }
    | .error _ => none
  | "--taint" => return { r with settings := { r.settings with taint := some value } }
  | _ => none

/-- Whether an argument can be the value of the option before it. -/
def isValue : List Char → Bool
  | ['-'] => true
  | '-' :: _ => false
  | _ => true

/-- The options of a command beside the one that is common to all. -/
inductive Options where
  | lift
  | none
deriving DecidableEq, Repr

/-- A cluster of short options; the argument after it may be the value of the last. -/
def readShorts (o : Options) (r : Reading) :
    List Char → (after : Option String) → Option (Reading × Bool)
  | [], _ => some (r, false)
  | 'v' :: rest, after => do
    let r ← r.addVerbose
    readShorts o r rest after
  | 'j' :: value, after =>
    if o = .lift then
      match value, after with
      | [], some v => if isValue v.toList then (r.addValue "--threads" v).map (·, true) else none
      | [], none => none
      | '=' :: v, _ => (r.addValue "--threads" (String.ofList v)).map (·, false)
      | v, _ => (r.addValue "--threads" (String.ofList v)).map (·, false)
    else none
  | _ :: _, _ => none

/-- A long option; the argument after it may be its value. -/
def readLong (o : Options) (r : Reading) (arg : String) (after : Option String) :
    Option (Reading × Bool) :=
  match cutFlag arg with
  | ("--verbose", none) => r.addVerbose.map (·, false)
  | (option, value) =>
    if o = .lift then
      if takesValue option then
        match value, after with
        | some v, _ => (r.addValue option v).map (·, false)
        | none, some v => if isValue v.toList then (r.addValue option v).map (·, true) else none
        | none, none => none
      else
        match value with
        | none => (r.addSwitch option).map (·, false)
        | some _ => none
    else none

/-- One argument that may be an option; tells whether the argument after it was its value. -/
def readOption (o : Options) (r : Reading) (arg : String) (after : Option String) :
    Option (Reading × Bool) :=
  match arg.toList with
  | '-' :: '-' :: _ => readLong o r arg after
  | '-' :: c :: rest => readShorts o r (c :: rest) after
  | _ => (r.addFile arg).map (·, false)

/-- The arguments behind the name of a command. What follows a lone double dash is no option. -/
def readArgs (o : Options) (r : Reading) : List String → Option Reading
  | [] => some r
  | "--" :: files => files.foldlM Reading.addFile r
  | [arg] => do return (← readOption o r arg none).1
  | arg :: after :: rest => do
    let (r, taken) ← readOption o r arg (some after)
    if taken then readArgs o r rest else readArgs o r (after :: rest)

/-- The arguments in front of the name of a command, which can only ask for more words. -/
def readFront (verbose : Bool) : List String → Option (Bool × String × List String)
  | [] => none
  | arg :: rest =>
    if arg = "-v" || arg = "--verbose" then
      if verbose then none else readFront true rest
    else some (verbose, arg, rest)

/-- What the arguments ask for, if they are well formed. -/
def parse? (args : List String) : Option Invocation := do
  let (verbose, name, args) ← readFront false args
  match name with
  | "translate" =>
    let r ← readArgs .lift {} args
    return ⟨.lift r.settings r.files, verbose || r.verbose⟩
  | "check" =>
    let r ← readArgs .none {} args
    if r.files.isEmpty then none else return ⟨.check r.files, verbose || r.verbose⟩
  | "userops" =>
    let r ← readArgs .none {} args
    if r.files.isEmpty then return ⟨.userops, verbose || r.verbose⟩ else none
  | _ => none

end CommandLine

namespace Answer

def print (a : Answer) (text : String) : Answer :=
  { a with stdout := a.stdout ++ text }

def note (a : Answer) (text : String) : Answer :=
  { a with stderr := a.stderr ++ text }

/-- Ends with an error, told on the error channel. -/
def stop (a : Answer) (error : String) : Answer :=
  { a with status := 1, stderr := a.stderr ++ "Error: " ++ error ++ "\n" }

def usage : Answer :=
  { status := 2, stderr := "usage" }

end Answer

namespace Command

/-- The texts of the files named, or what is wrong with the first that cannot be read. -/
def readAll (read : String → Except ReadFault String) (files : List String) :
    Except ReadFault (List (String × String)) :=
  files.mapM fun file => (read file).map (file, ·)

/-- Each text in turn; the first that cannot be run ends the command. -/
def liftAll (s : Settings) (verbose : Bool) :
    (complete : Bool) → Answer → List (String × String) → Answer
  | complete, a, [] => if complete then a else { a with status := 2 }
  | complete, a, (name, text) :: rest =>
    let a := if verbose then a.note ("Translating " ++ name ++ "\n") else a
    match Program.parse text with
    | .error e => a.stop (Text.quote (name ++ ": " ++ e.message))
    | .ok p =>
      match run {} s p with
      | .error e => a.stop ("UnknownClient(" ++ Text.quote e.name ++ ")")
      | .ok result =>
        liftAll s verbose (complete && result.allLifted)
          (a.print (result.text s.printStats)) rest

def liftFiles (s : Settings) (verbose : Bool) (files : List String) (stdin : String)
    (read : String → Except ReadFault String) : Answer :=
  let texts := if files.isEmpty then .ok [("<stdin>", stdin)] else readAll read files
  match texts with
  | .error fault => ({} : Answer).stop fault.message
  | .ok texts => liftAll s verbose true {} texts

/-- Each file in turn, with the counts of those that passed and failed. -/
def checkFiles (verbose : Bool) (read : String → Except ReadFault String) :
    (passed failed : Nat) → Answer → List String → Answer
  | passed, failed, a, [] =>
    let a := a.print (toString passed ++ " passed, " ++ toString failed ++ " failed\n")
    if failed = 0 then a else { a with status := 1 }
  | passed, failed, a, file :: rest =>
    match read file with
    | .error fault => a.stop fault.message
    | .ok text =>
      let (log, verdict) := checkText text
      let a := if verbose then a.print log else a
      match verdict with
      | .ok _ => checkFiles verbose read (passed + 1) failed (a.print ("PASS: " ++ file ++ "\n")) rest
      | .error e =>
        checkFiles verbose read passed (failed + 1)
          (a.print ("FAIL: " ++ file ++ ": " ++ e.message ++ "\n")) rest

end Command

/-- A userop's signature, as the command line lists it. -/
def Userop.signature (u : Userop) : String :=
  "@" ++ u.name ++ "(" ++ ", ".intercalate (u.inputs.map Behavior.text)
    ++ (if u.variadic then ", ..." else "") ++ ") -> " ++ u.output.text
    ++ (if u.isPure then " pure" else "")

def Userops.text (lib : Userops) : String :=
  String.join ((lib.names.filterMap lib.get?).map fun u => u.signature ++ "\n")

/-- What an invocation answers, given the standard input and the texts of files. -/
def Invocation.answer (i : Invocation) (stdin : String)
    (read : String → Except ReadFault String) : Answer :=
  match i.command with
  | .lift settings files => Command.liftFiles settings i.verbose files stdin read
  | .check files => Command.checkFiles i.verbose read 0 0 {} files
  | .userops => { stdout := Userops.builtin.text }

end DefUse
