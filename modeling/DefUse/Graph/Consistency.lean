import DefUse.Graph.Basic

namespace DefUse.Graph

def checkInputs (g : Graph) (id : OpId) : (position : Nat) → List ValueId → Except Refusal Unit
  | _, [] => .ok ()
  | position, v :: rest => do
    let value ← g.value v
    if value.hasUse ⟨id, position⟩ then checkInputs g id (position + 1) rest
    else .error (.missingUse v ⟨id, position⟩)

def checkOp (g : Graph) (id : OpId) (op : Operation) : Except Refusal Unit := do
  checkInputs g id 0 op.inputs
  match op.output with
  | none => .ok ()
  | some out =>
    let value ← g.value out
    if value.definer = some id then .ok () else .error (.definerMismatch out id)

/-- How many operand positions of linked operations hold the value. -/
def readCount (g : Graph) (v : ValueId) : Nat :=
  g.linkedOps.foldr (fun (_, op) n => op.inputs.count v + n) 0

def checkValue (g : Graph) (v : ValueId) (value : Value) : Except Refusal Unit :=
  if value.uses.length = g.readCount v then
    match value.definer with
    | none => .ok ()
    | some definer =>
      match g.node? definer with
      | none => .error (.unknownOp definer)
      | some node =>
        if node.linked && node.op.output = some v then .ok ()
        else .error (.definerMismatch v definer)
  else .error (.inconsistentUses v value.uses.length (g.readCount v))

/-- Compares what the linked operations read and define with what the values record. A use too many
shows up as a wrong count. -/
def verify (g : Graph) : Except Refusal Unit := do
  g.linkedOps.forM fun (id, op) => g.checkOp id op
  g.values.list.forM fun (v, value) => g.checkValue v value

end DefUse.Graph
