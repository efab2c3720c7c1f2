import DefUse.Operation

namespace DefUse

structure Node where
  op : Operation
  linked : Bool := false
deriving DecidableEq, Repr

/-- The values and operations of one unit. An operation is added first and linked afterwards. -/
structure Graph where
  values : Values := {}
  nodes : Slots Node := {}
deriving DecidableEq, Repr

namespace Graph

def value? (g : Graph) (v : ValueId) : Option Value :=
  g.values.value? v

def node? (g : Graph) (id : OpId) : Option Node :=
  g.nodes.get? id.index

def isLinked (g : Graph) (id : OpId) : Bool :=
  match g.node? id with
  | some node => node.linked
  | none => false

/-- All operations in order of creation. -/
def nodeList (g : Graph) : List (OpId × Node) :=
  g.nodes.entries.map fun (i, node) => (⟨i⟩, node)

/-- The linked operations in order of creation. -/
def linkedOps (g : Graph) : List (OpId × Operation) :=
  g.nodeList.filterMap fun (id, node) => if node.linked then some (id, node.op) else none

theorem mem_nodeList {g : Graph} {id : OpId} {node : Node} :
    (id, node) ∈ g.nodeList ↔ g.node? id = some node := by
  rw [node?, ← Slots.mem_entries]
  simp only [nodeList, List.mem_map]
  constructor
  · rintro ⟨⟨i, n⟩, hm, he⟩
    obtain ⟨rfl, rfl⟩ := Prod.mk.inj he
    exact hm
  · exact fun h => ⟨(id.index, node), h, rfl⟩

theorem mem_linkedOps {g : Graph} {id : OpId} {op : Operation} :
    (id, op) ∈ g.linkedOps ↔ g.node? id = some ⟨op, true⟩ := by
  simp only [linkedOps, List.mem_filterMap]
  constructor
  · rintro ⟨⟨i, o, linked⟩, hm, he⟩
    cases linked with
    | false => simp at he
    | true =>
      obtain ⟨rfl, rfl⟩ : i = id ∧ o = op := by simpa using he
      exact mem_nodeList.mp hm
  · exact fun h => ⟨(id, ⟨op, true⟩), mem_nodeList.mpr h, by simp⟩

def value (g : Graph) (v : ValueId) : Except Refusal Value :=
  match g.value? v with
  | some value => .ok value
  | none => .error (.unknownValue v)

def op (g : Graph) (id : OpId) : Except Refusal Operation :=
  match g.node? id with
  | some node => .ok node.op
  | none => .error (.unknownOp id)

/-- What the operation asks of the operand at a position. -/
def asked (g : Graph) (id : OpId) (position : Nat) : Except Refusal Behavior := do
  let op ← g.op id
  match op.inputAt? position with
  | some behavior => .ok behavior
  | none => .error (.operandOutOfRange id op.mnemonic position)

def isRemovable (g : Graph) (id : OpId) : Except Refusal Bool :=
  match g.node? id with
  | none => .error (.unknownOp id)
  | some node =>
    if node.linked then .ok (node.op.isRemovable g.values) else .error (.notLinked id)

def create (value : Value) : Call Graph ValueId := fun g =>
  .ok ⟨g.values.next⟩ { g with values := g.values.push value }

def newConstant (word : UInt64) (size : Nat) : Call Graph ValueId :=
  create { origin := .constant word, size }

/-- A free value that stands for what the location holds on entry. -/
def newEntry (location : Location) : Call Graph ValueId :=
  create { origin := .entry location, size := location.size }

def newOutput (size : Nat) : Call Graph ValueId :=
  create { origin := .output, size }

/-- Adds an operation without linking it. -/
def add (op : Operation) : Call Graph OpId := fun g =>
  .ok ⟨g.nodes.next⟩ { g with nodes := g.nodes.push { op } }

def setLinked (g : Graph) (id : OpId) (linked : Bool) : Graph :=
  { g with nodes := g.nodes.modify id.index fun node => { node with linked } }

theorem node?_setLinked (g : Graph) (id other : OpId) (linked : Bool) :
    (g.setLinked id linked).node? other =
      if id = other then (g.node? other).map fun node => { node with linked } else g.node? other := by
  cases id; cases other
  simp [node?, setLinked, Slots.get?_modify]

/-- A refused link keeps the records it made before the refusal, and the operation stays
unlinked. -/
def link (id : OpId) : Call Graph Unit := fun g =>
  match g.node? id with
  | none => .error (.unknownOp id) g
  | some node =>
    if node.linked then .error (.alreadyLinked id) g
    else
      match node.op.link id g.values with
      | .ok _ values => .ok () ({ g with values }.setLinked id true)
      | .error e values => .error e { g with values }

def unlink (id : OpId) : Call Graph Unit := fun g =>
  match g.node? id with
  | none => .error (.unknownOp id) g
  | some node =>
    if node.linked then
      match node.op.unlink id g.values with
      | .ok _ values => .ok () ({ g with values }.setLinked id false)
      | .error e values => .error e { g with values }
    else .error (.notLinked id) g

def addLinked (op : Operation) : Call Graph OpId := do
  let id ← add op
  link id
  return id

def outputUsedReason : String := "output still used"

def effectsReason : String := "operation has side effects"

/-- Drops an operation that is not linked, and with it the value it names as output. -/
def detach (id : OpId) : Call Graph Operation := fun g =>
  match g.node? id with
  | none => .error (.unknownOp id) g
  | some node =>
    if node.linked then .error (.stillLinked id) g
    else
      let nodes := g.nodes.erase id.index
      match node.op.output with
      | none => .ok node.op { g with nodes }
      | some out =>
        if g.values.isUsed out then .error (.notRemovable id outputUsedReason) g
        else .ok node.op { values := g.values.release out, nodes }

/-- Unlinks and detaches an operation whose removal cannot be seen. -/
def remove (id : OpId) : Call Graph Operation := fun g =>
  match g.node? id with
  | none => .error (.unknownOp id) g
  | some node =>
    if node.linked then
      if node.op.isRemovable g.values then
        match unlink id g with
        | .ok _ g => detach id g
        | .error e g => .error e g
      else
        .error (.notRemovable id (if node.op.hasEffects then effectsReason else outputUsedReason)) g
    else .error (.notLinked id) g

end Graph
end DefUse
