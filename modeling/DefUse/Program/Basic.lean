namespace DefUse

inductive Operand where
  /-- `space[offset:size]` -/
  | varnode (space : String) (offset : UInt64) (size : Nat)
  /-- A register or a space. -/
  | name (text : String)
  /-- A bare number, which is a branch target. -/
  | address (word : UInt64)
  /-- `@name` -/
  | userop (text : String)
deriving DecidableEq, Repr

structure Record where
  line : Nat
  output : Option Operand
  opcode : String
  operands : List Operand
deriving DecidableEq, Repr

structure CodeUnit where
  name : String
  /-- Where its keyword stands. -/
  line : Nat
  records : List Record
deriving DecidableEq, Repr

structure Program where
  units : List CodeUnit := []
deriving DecidableEq, Repr

def Program.unit? (p : Program) (name : String) : Option CodeUnit :=
  p.units.find? (·.name = name)

end DefUse
