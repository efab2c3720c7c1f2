import DefUse.Graph.Schedule
import DefUse.Typing

namespace DefUse

structure Plan where
  graph : Graph
  order : List OpId
  typing : Typing

namespace Plan

def make (g : Graph) (typing : Typing) : Except Refusal Plan := do
  return { graph := g, order := ← g.schedule, typing }

def typedText (p : Plan) (v : ValueId) : String :=
  match p.typing.typeOf? v with
  | some type => v.text ++ ":" ++ type.text
  | none => v.text

def operandText (p : Plan) (id : OpId) (position : Nat) (v : ValueId) : Except Refusal String :=
  if p.typing.isCoerced ⟨id, position⟩ then do
    let expected ← p.graph.asked id position
    return "(" ++ p.typedText v ++ " as " ++ expected.text ++ ")"
  else return p.typedText v

def operandTexts (p : Plan) (id : OpId) :
    (position : Nat) → List ValueId → Except Refusal (List String)
  | _, [] => .ok []
  | position, v :: rest => do
    let text ← p.operandText id position v
    return text :: (← operandTexts p id (position + 1) rest)

def opLine (p : Plan) (id : OpId) : Except Refusal String := do
  let op ← p.graph.op id
  let operands ← p.operandTexts id 0 op.inputs
  return "  " ++ id.text ++ ": " ++ op.line p.typedText operands ++ "\n"

/-- One line for each operation. -/
def text (p : Plan) : Except Refusal String := do
  return String.join (← p.order.mapM p.opLine)

end Plan
end DefUse
