import DefUse.Graph.Basic
import DefUse.Lift.Error
import DefUse.Program.Printer
import DefUse.Registers
import DefUse.Statistics

namespace DefUse

/-- What is known of the machine whose code is lifted. -/
structure Machine where
  userops : Userops := .builtin
  registers : Registers := .x8664

/-- A write to a register or to memory is put off: it becomes a write-back with the next write to an
overlapping location, branch, impure call or memory access to its space, or at the end of the unit.
-/
structure Lifting where
  graph : Graph := {}
  contents : Assoc Location ValueId := []
  /-- Every location written, for overlap checks. -/
  touched : List Location := []
  /-- Observable locations whose last write is not written back, in order of writing. -/
  pending : List Location := []
  constants : Assoc (UInt64 × Nat) ValueId := []
  writebacks : Nat := 0
  /-- Spaces that may hold bytes the unit did not put there. -/
  foreign : List Space := []
  statistics : Statistics := {}

/-- A step of lifting; what was counted and built before a failure stays. -/
abbrev Lift (α : Type) := EStateM UnitError Lifting α

namespace Lift

def onGraph {α : Type} (call : Call Graph α) : Lift α := fun s =>
  match call s.graph with
  | .ok a g => .ok a { s with graph := g }
  | .error e g => .error (.graph e) { s with graph := g }

/-- Adds and links an operation; it is counted first. -/
def append (op : Operation) : Lift OpId := fun s =>
  onGraph (Graph.addLinked op) { s with statistics := s.statistics.recordOp op.mnemonic }

/-- Constants of one word and size are one value. -/
def constant (word : UInt64) (size : Nat) : Lift ValueId := fun s =>
  match s.constants.get? (word, size) with
  | some v => .ok v s
  | none =>
    (do
      let v ← onGraph (Graph.newConstant word size)
      modify fun s => { s with constants := s.constants.put (word, size) v }
      return v : Lift ValueId) s

/-- The value of a location that is not known yet. -/
def fresh (l : Location) : Lift ValueId := fun s =>
  if s.foreign.contains l.space then
    (do
      let offset ← constant l.offset 8
      let out ← onGraph (Graph.newOutput l.size)
      let _ ← append (.load out l.space offset)
      return out : Lift ValueId) s
  else onGraph (Graph.newEntry l) s

/-- The value a location holds now. One that a write covers in part has none. -/
def readLocation (line : Nat) (l : Location) : Lift ValueId := fun s =>
  if l.space = .const then constant l.offset l.size s
  else
    match s.contents.get? l with
    | some v => .ok v s
    | none =>
      if s.touched.any (·.overlaps l) then
        .error (.unsupported line
          ("read of " ++ l.text ++ " partially overlaps an earlier write")) s
      else
        (do
          let v ← fresh l
          modify fun s => { s with contents := s.contents.put l v }
          return v : Lift ValueId) s

/-- Makes the pending write of a location a write-back. -/
def writeBack (l : Location) : Lift Unit := fun s =>
  let s := { s with pending := s.pending.filter (· ≠ l) }
  match s.contents.get? l with
  | none => .ok () s
  | some v =>
    (do
      let _ ← append (.writeback l v)
      modify fun s => { s with
        writebacks := s.writebacks + 1
        statistics := s.statistics.recordWriteback } : Lift Unit) s

/-- A step for each location in turn. -/
def each (step : Location → Lift Unit) : List Location → Lift Unit
  | [] => pure ()
  | l :: rest => do
    step l
    each step rest

/-- Writes back what is pending, in order of writing. -/
def settle : Lift Unit := fun s =>
  each writeBack s.pending s

/-- Forgets all that is known of a space. -/
def forget (space : Space) : Lift Unit :=
  modify fun s => { s with
    contents := s.contents.filter (·.1.space ≠ space)
    touched := s.touched.filter (·.space ≠ space)
    foreign := if s.foreign.contains space then s.foreign else s.foreign ++ [space] }

/-- Notes that a location holds a value; what is known of overlapping ones goes. -/
def hold (l : Location) (v : ValueId) : Lift Unit :=
  modify fun s => { s with
    contents := Assoc.put (s.contents.filter (!·.1.overlaps l)) l v
    touched := if s.touched.contains l then s.touched else s.touched ++ [l]
    pending :=
      if !l.space.isObservable || s.pending.contains l then s.pending else s.pending ++ [l] }

/-- The steps that rely on what is known of locations. They are left open below, so that lifting can
be watched while it makes them. -/
structure Primitives where
  writeBack : Location → Lift Unit
  settle : Lift Unit
  forget : Space → Lift Unit

/-- Lifting as it is. -/
def plain : Primitives := ⟨writeBack, settle, forget⟩

namespace Primitives
variable (k : Primitives)

/-- Writes back what is pending in a space. -/
def settleSpace (space : Space) : Lift Unit := fun s =>
  each k.writeBack (s.pending.filter (·.space = space)) s

/-- Writes a location, after the pending writes of the others it overlaps are written back. -/
def assign (l : Location) (v : ValueId) : Lift Unit := fun s =>
  (do
    each k.writeBack (s.pending.filter fun p => p ≠ l && p.overlaps l)
    hold l v : Lift Unit) s

end Primitives
end Lift
end DefUse
