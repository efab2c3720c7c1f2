import DefUse.Graph.Basic

namespace DefUse

def Value.describe (value : Value) : String :=
  match value.origin, value.definer with
  | .constant word, _ => "const " ++ Text.hex word.toNat ++ ":" ++ toString value.size
  | .entry location, _ => location.text
  | .output, some definer => "out:" ++ toString value.size ++ " of " ++ definer.text
  | .output, none => "out:" ++ toString value.size ++ " undefined"

def Value.line (v : ValueId) (value : Value) : String :=
  v.text ++ " = " ++ value.describe ++ " (uses: " ++ toString value.uses.length ++ ")"

def Operation.plainLine (op : Operation) : String :=
  op.line ValueId.text (op.inputs.map ValueId.text)

namespace Graph

def valueLine (g : Graph) (v : ValueId) : Except Refusal String := do
  return (← g.value v).line v

def opLine (g : Graph) (id : OpId) : Except Refusal String := do
  return (← g.op id).plainLine

def text (g : Graph) : String :=
  "Values:\n"
    ++ String.join (g.values.list.map fun (v, value) => "  " ++ value.line v ++ "\n")
    ++ "Ops:\n"
    ++ String.join (g.nodeList.map fun (id, node) =>
      "  " ++ id.text ++ ": " ++ node.op.plainLine ++ (if node.linked then "" else " (unlinked)")
        ++ "\n")

end Graph
end DefUse
