import DefUse.Program.Basic
import DefUse.Text.Number

namespace DefUse

def Operand.text : Operand → String
  | .varnode space offset size =>
    space ++ "[" ++ Text.hex offset.toNat ++ ":" ++ toString size ++ "]"
  | .name n => n
  | .address word => Text.hex word.toNat
  | .userop n => "@" ++ n

def Record.text (r : Record) : String :=
  let head := match r.output with
    | some out => out.text ++ " = " ++ r.opcode
    | none => r.opcode
  if r.operands.isEmpty then head
  else head ++ " " ++ ", ".intercalate (r.operands.map Operand.text)

def CodeUnit.text (u : CodeUnit) : String :=
  "unit " ++ u.name ++ " \x7b\n"
    ++ String.join (u.records.map fun r => "  " ++ r.text ++ "\n")
    ++ "\x7d\n"

def Program.text (p : Program) : String :=
  String.join (p.units.map CodeUnit.text)

end DefUse
