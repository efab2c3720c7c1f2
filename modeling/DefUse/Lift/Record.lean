import DefUse.Lift.Basic

namespace DefUse

/-- The opcodes that records can name. -/
inductive RecordOpcode where
  | binary (opcode : BinaryOpcode)
  | unary (opcode : UnaryOpcode)
  | copy
  | load
  | store
  | branch
  | cbranch
  | branchInd
  | callOther
deriving DecidableEq, Repr

def RecordOpcode.ofMnemonic? (text : String) : Option RecordOpcode :=
  match BinaryOpcode.ofMnemonic? text, UnaryOpcode.ofMnemonic? text with
  | some opcode, _ => some (.binary opcode)
  | none, some opcode => some (.unary opcode)
  | none, none =>
    match text with
    | "COPY" => some .copy
    | "LOAD" => some .load
    | "STORE" => some .store
    | "BRANCH" => some .branch
    | "CBRANCH" => some .cbranch
    | "BRANCHIND" => some .branchInd
    | "CALLOTHER" => some .callOther
    | _ => none

namespace Machine

/-- The location that an operand names. -/
def location (m : Machine) (line : Nat) : Operand → Except UnitError Location
  | .varnode space offset size =>
    match Space.ofName? space with
    | some s => .ok ⟨s, offset, size⟩
    | none => .error (.unsupported line ("unknown space '" ++ space ++ "'"))
  | .name name =>
    match m.registers.location? name with
    | some l => .ok l
    | none => .error (.unknownRegister line name)
  | operand => .error (.unsupported line ("'" ++ operand.text ++ "' is not a varnode"))

/-- The location that an output operand names. -/
def outputLocation (m : Machine) (line : Nat) : Option Operand → Except UnitError Location
  | none => .error (.unsupported line "operation needs an output")
  | some operand => do
    let l ← m.location line operand
    if l.space = .const then .error (.unsupported line "cannot write to the const space")
    else return l

end Machine

namespace Operand

/-- The space that a load or store addresses. -/
def memorySpace? : Operand → Option Space
  | .name text => (Space.ofName? text).filter (·.isMemory)
  | _ => none

def memorySpace (line : Nat) (operand : Operand) : Except UnitError Space :=
  match operand.memorySpace? with
  | some space => .ok space
  | none => .error (.unsupported line ("'" ++ operand.text ++ "' is not an addressable space"))

def branchTarget (line : Nat) : Operand → Except UnitError UInt64
  | .address word => .ok word
  | .varnode "ram" offset _ => .ok offset
  | operand => .error (.unsupported line ("'" ++ operand.text ++ "' is not a branch target"))

end Operand

namespace Lift

def ofExcept {α : Type} : Except UnitError α → Lift α
  | .ok a => pure a
  | .error e => throw e

def fail {α : Type} (line : Nat) (reason : String) : Lift α :=
  throw (.unsupported line reason)

def read (m : Machine) (line : Nat) (operand : Operand) : Lift ValueId := do
  readLocation line (← ofExcept (m.location line operand))

def readAll (m : Machine) (line : Nat) : List Operand → Lift (List ValueId)
  | [] => pure []
  | operand :: rest => do
    let v ← read m line operand
    return v :: (← readAll m line rest)

def wrongCount (r : Record) (count : Nat) : Lift Unit :=
  fail r.line (r.opcode ++ " takes " ++ toString count ++ " operands, got "
    ++ toString r.operands.length)

namespace Primitives
variable (k : Primitives)

/-- Appends an operation with a new output and writes the output's location. -/
def define (l : Location) (op : ValueId → Operation) : Lift Unit := do
  let out ← onGraph (Graph.newOutput l.size)
  let _ ← append (op out)
  k.assign l out

def callOther (m : Machine) (r : Record) : Lift Unit := do
  match r.operands with
  | .userop name :: args =>
    match m.userops.get? name with
    | none => throw (.unknownUserop r.line name)
    | some userop =>
      if !userop.acceptsArity args.length then
        throw (.useropArity r.line name userop.inputs.length args.length)
      let out ← match r.output with
        | none => pure none
        | some operand => some <$> ofExcept (m.outputLocation r.line (some operand))
      let values ← readAll m r.line args
      let types := (List.range args.length).map fun i => (userop.inputAt? i).getD .any
      let state := Snapshot.ofList (← get).contents
      if !userop.isPure then k.settle
      match out with
      | none =>
        let _ ← append (.call userop none values types state)
        if !userop.isPure then k.forget .ram
      | some l =>
        let result ← onGraph (Graph.newOutput l.size)
        let _ ← append (.call userop (some result) values types state)
        if !userop.isPure then k.forget .ram
        k.assign l result
  | _ => fail r.line "CALLOTHER needs a userop name"

def record (m : Machine) (r : Record) : Lift Unit :=
  match RecordOpcode.ofMnemonic? r.opcode with
  | none => throw (.unsupportedOpcode r.line r.opcode)
  | some (.binary opcode) =>
    match r.operands with
    | [left, right] => do
      let l ← ofExcept (m.outputLocation r.line r.output)
      let left ← read m r.line left
      let right ← read m r.line right
      k.define l fun out => .binary opcode out left right
    | _ => wrongCount r 2
  | some (.unary opcode) =>
    match r.operands with
    | [input] => do
      let l ← ofExcept (m.outputLocation r.line r.output)
      let input ← read m r.line input
      k.define l fun out => .unary opcode out input
    | _ => wrongCount r 1
  | some .copy =>
    match r.operands with
    | [input] => do
      let l ← ofExcept (m.outputLocation r.line r.output)
      let input ← read m r.line input
      k.define l fun out => .copy out input
    | _ => wrongCount r 1
  | some .load =>
    match r.operands with
    | [space, offset] => do
      let l ← ofExcept (m.outputLocation r.line r.output)
      let space ← ofExcept (space.memorySpace r.line)
      let offset ← read m r.line offset
      k.settleSpace space
      k.define l fun out => .load out space offset
    | _ => wrongCount r 2
  | some .store =>
    match r.operands with
    | [space, offset, value] => do
      let space ← ofExcept (space.memorySpace r.line)
      let offset ← read m r.line offset
      let value ← read m r.line value
      k.settleSpace space
      let _ ← append (.store space offset value)
      k.forget space
    | _ => wrongCount r 3
  | some .branch =>
    match r.operands with
    | [target] => do
      let target ← ofExcept (target.branchTarget r.line)
      k.settle
      let _ ← append (.branch target)
    | _ => wrongCount r 1
  | some .cbranch =>
    match r.operands with
    | [target, condition] => do
      let target ← ofExcept (target.branchTarget r.line)
      let condition ← read m r.line condition
      k.settle
      let _ ← append (.cbranch target condition)
    | _ => wrongCount r 2
  | some .branchInd =>
    match r.operands with
    | [target] => do
      let target ← read m r.line target
      k.settle
      let _ ← append (.branchInd target)
    | _ => wrongCount r 1
  | some .callOther => k.callOther m r

end Primitives

def record (m : Machine) (r : Record) : Lift Unit :=
  plain.record m r

def records (m : Machine) : List Record → Lift Unit
  | [] => pure ()
  | r :: rest => do
    record m r
    records m rest

/-- All records of a unit; what is pending at its end is written back. -/
def codeUnit (m : Machine) (u : CodeUnit) : Lift Unit := do
  records m u.records
  settle

end Lift

/-- Lifts a unit from the empty graph. -/
def Machine.lift (m : Machine) (u : CodeUnit) : EStateM.Result UnitError Lifting Unit :=
  Lift.codeUnit m u {}

end DefUse
