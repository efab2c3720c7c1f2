import DefUse.Graph.Basic

namespace DefUse

inductive Diagnostic where
  | mismatch (use : Use) (expected : Behavior) (found : ValueType)
  | floatSize (value : ValueId) (size : Nat)
deriving DecidableEq, Repr

def Diagnostic.message : Diagnostic → String
  | mismatch use expected found =>
    "type mismatch: " ++ use.op.text ++ " operand " ++ toString use.position ++ " expects "
      ++ expected.text ++ ", found " ++ found.text
  | floatSize value size =>
    value.text ++ " has no float encoding at size " ++ toString size ++ ", using integer"

structure Typing where
  /-- One entry for each live value, in order of creation. -/
  types : Assoc ValueId ValueType := []
  diagnostics : List Diagnostic := []
  /-- The operand positions whose value has to be reinterpreted. -/
  coercions : List Use := []
deriving DecidableEq, Repr

/-- Votes for the two categories. -/
structure Ballot where
  integer : Nat := 0
  float : Nat := 0
deriving DecidableEq, Repr

namespace Ballot

def cast (b : Ballot) : Behavior → Ballot
  | .integer => { b with integer := b.integer + 1 }
  | .float => { b with float := b.float + 1 }
  | .any => b

def ofVotes (votes : List Behavior) : Ballot :=
  votes.foldl cast {}

/-- An even vote goes to the integers unless nobody voted. -/
def winner (b : Ballot) : Option Behavior :=
  if b.integer < b.float then some .float
  else if b.integer = 0 then none
  else some .integer

end Ballot

namespace Typing

/-- What is known of the values: what their definers declare, and how the votes stand. -/
structure Poll where
  declared : Assoc ValueId Behavior := []
  voted : Assoc ValueId (Option Behavior) := []
deriving DecidableEq, Repr

def Poll.known? (p : Poll) (v : ValueId) : Option Behavior :=
  match p.declared.get? v with
  | some behavior => some behavior
  | none => (p.voted.get? v).join

/-- The category that the definer of a value declares. -/
def declared? (g : Graph) (value : Value) : Except Refusal (Option Behavior) :=
  match value.definer with
  | none => .ok none
  | some definer => do
    let op ← g.op definer
    return op.outputType.filter (·.isConcrete)

/-- Values with a declared category are fixed; the others are open and have no votes yet. -/
def openPoll (g : Graph) : List (ValueId × Value) → Except Refusal Poll
  | [] => .ok {}
  | (v, value) :: rest => do
    let declared ← declared? g value
    let poll ← openPoll g rest
    match declared with
    | some behavior => return { poll with declared := (v, behavior) :: poll.declared }
    | none => return { poll with voted := (v, none) :: poll.voted }

/-- The vote of one operand position that reads the value. -/
def useVote (g : Graph) (p : Poll) (u : Use) : Except Refusal Behavior := do
  let op ← g.op u.op
  if op.isTransparent then return (op.output.bind p.known?).getD .any
  else g.asked u.op u.position

/-- The votes that a copy brings to its output. -/
def definerVotes (g : Graph) (p : Poll) (value : Value) : Except Refusal (List Behavior) :=
  match value.definer with
  | none => .ok []
  | some definer => do
    let op ← g.op definer
    return if op.isTransparent then op.inputs.filterMap p.known? else []

def ballot (g : Graph) (p : Poll) (v : ValueId) : Except Refusal Ballot := do
  let value ← g.value v
  let uses ← value.uses.mapM (useVote g p)
  let copied ← definerVotes g p value
  return Ballot.ofVotes (uses ++ copied)

/-- Takes the votes on each value in turn, each vote seeing the ones before it, and tells whether
any changed. -/
def round (g : Graph) : List ValueId → Poll → Except Refusal (Poll × Bool)
  | [], p => .ok (p, false)
  | v :: rest, p => do
    let winner := (← ballot g p v).winner
    if (p.voted.get? v).join = winner then round g rest p
    else
      let (p, _) ← round g rest { p with voted := p.voted.put v winner }
      return (p, true)

/-- At most `limit` rounds, up to one that changes nothing. -/
def settle (g : Graph) (values : List ValueId) : (limit : Nat) → Poll → Except Refusal Poll
  | 0, p => .ok p
  | limit + 1, p => do
    let (p, changed) ← round g values p
    if changed then settle g values limit p else return p

/-- The type of a value once the votes are in. -/
def decide (p : Poll) (v : ValueId) (size : Nat) : ValueType × List Diagnostic :=
  let behavior := (p.known? v).getD .integer
  match behavior.resolve size with
  | some type => (type, [])
  | none => (.int size, if behavior = .float then [.floatSize v size] else [])

/-- Whether an operand position disagrees with the type found for its value. -/
def mismatch? (g : Graph) (found : ValueType) (u : Use) :
    Except Refusal (Option (Use × Diagnostic)) := do
  let expected ← g.asked u.op u.position
  return if found.satisfies expected then none else some (u, .mismatch u expected found)

def mismatches (g : Graph) (types : Assoc ValueId ValueType) :
    List (ValueId × Value) → Except Refusal (List (Use × Diagnostic))
  | [] => .ok []
  | (v, value) :: rest => do
    let here ← match types.get? v with
      | none => pure []
      | some found => value.uses.mapM (mismatch? g found)
    return here.filterMap id ++ (← mismatches g types rest)

/-- Types for all values. A value that nobody votes on, or whose votes are even, is an integer, and
so is a float at a width without floats, which is reported. Every operand position that asks for
another category than its value has is reported and coerced. -/
def infer (g : Graph) : Except Refusal Typing := do
  let values := g.values.list
  let poll ← openPoll g values
  let undecided := poll.voted.map (·.1)
  let poll ← settle g undecided (undecided.length + 1) poll
  let decided := values.map fun (v, value) => (v, decide poll v value.size)
  let types := decided.map fun (v, type, _) => (v, type)
  let found := (← mismatches g types values).mergeSort fun a b => a.1.le b.1
  return {
    types
    diagnostics := decided.flatMap (·.2.2) ++ found.map (·.2)
    coercions := found.map (·.1) }

def typeOf? (t : Typing) (v : ValueId) : Option ValueType :=
  t.types.get? v

def isCoerced (t : Typing) (u : Use) : Bool :=
  t.coercions.contains u

/-- The disagreement at the least operand position. -/
def leastMismatch? (t : Typing) : Option (Use × Behavior × ValueType) :=
  t.diagnostics.findSome? fun
    | .mismatch use expected found => some (use, expected, found)
    | .floatSize .. => none

end Typing
end DefUse
