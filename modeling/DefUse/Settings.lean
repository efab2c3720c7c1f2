import DefUse.Text.Number

namespace DefUse

/-- What is done about an operand that disagrees with the type of its value. -/
inductive OnMismatch where
  /-- The bits are reinterpreted there. -/
  | coerce
  /-- The unit is given up. -/
  | reject
deriving DecidableEq, Repr

namespace OnMismatch

def text : OnMismatch → String
  | .coerce => "coerce"
  | .reject => "reject"

def ofText? : String → Option OnMismatch
  | "coerce" => some .coerce
  | "reject" => some .reject
  | _ => none

end OnMismatch

structure Settings where
  mismatch : OnMismatch := .coerce
  deadCode : Bool := true
  /-- Check the graph after each pass. -/
  verify : Bool := false
  threads : Nat := 1
  /-- The name of a taint client. -/
  taint : Option String := none
  printGraph : Bool := false
  printTypes : Bool := false
  printPlan : Bool := false
  printStats : Bool := false
deriving DecidableEq, Repr

inductive FlagError where
  | unknownFlag (flag : String)
  | unknownPolicy (value : String)
  | badThreads (value : String)
deriving DecidableEq, Repr

def FlagError.message : FlagError → String
  | unknownFlag flag => "unknown flag '" ++ flag ++ "'"
  | unknownPolicy value => "unknown mismatch policy '" ++ value ++ "'"
  | badThreads value => "invalid thread count '" ++ value ++ "'"

/-- A flag cut at its first equals sign: the name and, if there is a sign, the value. -/
def cutFlag (flag : String) : String × Option String :=
  let name := flag.toList.takeWhile (· ≠ '=')
  match flag.toList.dropWhile (· ≠ '=') with
  | [] => (flag, none)
  | _ :: value => (String.ofList name, some (String.ofList value))

namespace Settings

/-- Turns on what a flag without a value asks for. -/
def switch? (s : Settings) : String → Option Settings
  | "--print-graph" => some { s with printGraph := true }
  | "--print-types" => some { s with printTypes := true }
  | "--print-plan" => some { s with printPlan := true }
  | "--print-stats" => some { s with printStats := true }
  | "--no-dce" => some { s with deadCode := false }
  | "--verify" => some { s with verify := true }
  | _ => none

def applyFlag (s : Settings) (flag : String) : Except FlagError Settings :=
  match cutFlag flag with
  | (name, none) =>
    match s.switch? name with
    | some s => .ok s
    | none => .error (.unknownFlag flag)
  | ("--mismatch", some value) =>
    match OnMismatch.ofText? value with
    | some mismatch => .ok { s with mismatch }
    | none => .error (.unknownPolicy value)
  | ("--threads", some value) =>
    match Text.readCount value.toList with
    | .ok (n + 1) => .ok { s with threads := n + 1 }
    | _ => .error (.badThreads value)
  | ("--taint", some value) => .ok { s with taint := some value }
  | _ => .error (.unknownFlag flag)

/-- The default settings changed by each flag in turn. -/
def ofFlags (flags : List String) : Except FlagError Settings :=
  flags.foldlM applyFlag {}

end Settings
end DefUse
