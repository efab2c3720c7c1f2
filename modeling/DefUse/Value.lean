import DefUse.Location

namespace DefUse

structure ValueId where
  index : Nat
deriving DecidableEq, Repr

structure OpId where
  index : Nat
deriving DecidableEq, Repr

def ValueId.text (v : ValueId) : String :=
  "v" ++ toString v.index

def OpId.text (o : OpId) : String :=
  "op" ++ toString o.index

/-- One operand position of one operation. -/
structure Use where
  op : OpId
  position : Nat
deriving DecidableEq, Repr

/-- By operation, then position. -/
def Use.le (a b : Use) : Bool :=
  a.op.index < b.op.index || (a.op.index = b.op.index && a.position ≤ b.position)

inductive Origin where
  | constant (word : UInt64)
  /-- Defined by the operation that has it as output, once that one is linked. -/
  | output
  /-- What the location holds on entry. -/
  | entry (location : Location)
deriving DecidableEq, Repr

structure Value where
  origin : Origin
  /-- In bytes. -/
  size : Nat
  definer : Option OpId := none
  /-- The operand positions that read it, in the order they were recorded. -/
  uses : List Use := []
deriving DecidableEq, Repr

namespace Value

def isUsed (v : Value) : Bool :=
  !v.uses.isEmpty

def isFree (v : Value) : Bool :=
  v.definer.isNone

def hasUse (v : Value) (u : Use) : Bool :=
  v.uses.contains u

end Value
end DefUse
