import DefUse.Opcode
import DefUse.Snapshot
import DefUse.Userop
import DefUse.Values

namespace DefUse

inductive Operation where
  | copy (out input : ValueId)
  | load (out : ValueId) (space : Space) (offset : ValueId)
  | store (space : Space) (offset value : ValueId)
  | binary (opcode : BinaryOpcode) (out left right : ValueId)
  | unary (opcode : UnaryOpcode) (out input : ValueId)
  | branch (target : UInt64)
  | cbranch (target : UInt64) (condition : ValueId)
  | branchInd (target : ValueId)
  /-- Puts a value into the location it stands for. -/
  | writeback (location : Location) (value : ValueId)
  /-- A userop call, with what was asked of each argument and what every location held. -/
  | call (userop : Userop) (out : Option ValueId) (args : List ValueId) (types : List Behavior)
      (state : Snapshot)
deriving DecidableEq, Repr

namespace Operation

def mnemonic : Operation → String
  | copy .. => "COPY"
  | load .. => "LOAD"
  | store .. => "STORE"
  | binary opcode .. => opcode.mnemonic
  | unary opcode .. => opcode.mnemonic
  | branch .. => "BRANCH"
  | cbranch .. => "CBRANCH"
  | branchInd .. => "BRANCHIND"
  | writeback .. => "WRITEBACK"
  | call .. => "CALLOTHER"

/-- The values read, in operand order. -/
def inputs : Operation → List ValueId
  | copy _ input => [input]
  | load _ _ offset => [offset]
  | store _ offset value => [offset, value]
  | binary _ _ left right => [left, right]
  | unary _ _ input => [input]
  | branch _ => []
  | cbranch _ condition => [condition]
  | branchInd target => [target]
  | writeback _ value => [value]
  | call _ _ args _ _ => args

def output : Operation → Option ValueId
  | copy out _ => some out
  | load out _ _ => some out
  | binary _ out _ _ => some out
  | unary _ out _ => some out
  | call _ out _ _ _ => out
  | _ => none

/-- What is asked of each operand. -/
def inputTypes : Operation → List Behavior
  | copy .. => [.any]
  | load .. => [.integer]
  | store .. => [.integer, .any]
  | binary opcode .. => [opcode.input, opcode.input]
  | unary opcode .. => [opcode.input]
  | branch _ => []
  | cbranch .. => [.integer]
  | branchInd _ => [.integer]
  | writeback .. => [.any]
  | call _ _ _ types _ => types

def inputAt? (op : Operation) (position : Nat) : Option Behavior :=
  op.inputTypes[position]?

/-- The behavior of the output: a copy and a load leave it to whoever reads the value. -/
def outputType : Operation → Option Behavior
  | copy .. => some .any
  | load .. => some .any
  | binary opcode .. => some opcode.output
  | unary opcode .. => some opcode.output
  | call userop (some _) _ _ _ => some userop.output
  | _ => none

/-- Whether it does something observable besides defining its output. -/
def hasEffects : Operation → Bool
  | store .. | branch _ | cbranch .. | branchInd _ | writeback .. => true
  | call userop .. => !userop.isPure
  | _ => false

/-- Whether types flow across it both ways. -/
def isTransparent : Operation → Bool
  | copy .. => true
  | _ => false

/-- Whether it keeps its place among the operations that touch memory or have effects. -/
def isOrdered : Operation → Bool
  | load .. => true
  | op => op.hasEffects

/-- The operand that is no value: a space, a target, a location or a userop's name. -/
def auxiliary? : Operation → Option String
  | load _ space _ => some space.name
  | store space _ _ => some space.name
  | branch target => some (Text.hex target.toNat)
  | cbranch target _ => some (Text.hex target.toNat)
  | writeback location _ => some location.text
  | call userop .. => some ("@" ++ userop.name)
  | _ => none

/-- Records the definition of the output, then a use of each input. -/
def link (op : Operation) (id : OpId) : Call Values Unit := do
  match op.output with
  | some out => Values.define out id
  | none => pure ()
  Values.addUses id 0 op.inputs

/-- Takes back what `link` recorded. -/
def unlink (op : Operation) (id : OpId) : Call Values Unit := do
  match op.output with
  | some out => Values.undefine out id
  | none => pure ()
  Values.removeUses id 0 op.inputs

/-- Whether dropping it changes nothing that can be seen. -/
def isRemovable (op : Operation) (vs : Values) : Bool :=
  !op.hasEffects &&
    match op.output with
    | some out => !vs.isUsed out
    | none => true

/-- Its line in a listing, given how the output is written and the texts of the inputs. -/
def line (op : Operation) (result : ValueId → String) (inputs : List String) : String :=
  let head := match op.output with
    | some out => result out ++ " = " ++ op.mnemonic
    | none => op.mnemonic
  let operands := op.auxiliary?.toList ++ inputs
  if operands.isEmpty then head else head ++ " " ++ ", ".intercalate operands

end Operation
end DefUse
