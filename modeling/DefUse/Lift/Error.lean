import DefUse.Behavior
import DefUse.Graph.Refusal

namespace DefUse

inductive UnitError where
  | malformed (line : Nat) (message : String)
  | unsupportedOpcode (line : Nat) (opcode : String)
  | unknownUserop (line : Nat) (name : String)
  | useropArity (line : Nat) (name : String) (expected found : Nat)
  | unknownRegister (line : Nat) (name : String)
  | unsupported (line : Nat) (reason : String)
  | typeRejected (use : Use) (expected found : Behavior)
  | graph (error : Refusal)
deriving DecidableEq, Repr

namespace UnitError

def atLine (line : Nat) (text : String) : String :=
  "line " ++ toString line ++ ": " ++ text

def message : UnitError → String
  | malformed line message => atLine line message
  | unsupportedOpcode line opcode => atLine line ("unsupported opcode " ++ opcode)
  | unknownUserop line name => atLine line ("unknown userop @" ++ name)
  | useropArity line name expected found =>
    atLine line ("userop @" ++ name ++ " takes " ++ toString expected ++ " arguments, got "
      ++ toString found)
  | unknownRegister line name => atLine line ("unknown register " ++ name)
  | unsupported line reason => atLine line reason
  | typeRejected use expected found =>
    use.op.text ++ " operand " ++ toString use.position ++ ": expected " ++ expected.text
      ++ ", found " ++ found.text
  | graph error => "Graph invariant violated: " ++ error.message

/-- Whether the unit can still be run without a graph. -/
def isRecoverable : UnitError → Bool
  | graph _ => false
  | _ => true

end UnitError
end DefUse
