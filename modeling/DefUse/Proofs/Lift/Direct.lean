import DefUse.Proofs.Graph.Execution
import DefUse.Proofs.Lift.Record
import DefUse.Proofs.Overlap

namespace DefUse

abbrev Memory := Space → Nat → UInt8

/-- Registers and memory, which outlive the unit. -/
structure Observed where
  register : Nat → UInt8
  ram : Nat → UInt8

namespace Memory

def read (m : Memory) (space : Space) (address size : Nat) : List UInt8 :=
  (List.range size).map fun i => m space (address + i)

def write (m : Memory) (space : Space) (address : Nat) (bytes : List UInt8) : Memory :=
  fun s a => if s = space ∧ address ≤ a then bytes[a - address]?.getD (m s a) else m s a

def contents (m : Memory) (l : Location) : List UInt8 :=
  m.read l.space l.offset.toNat l.size

def put (m : Memory) (l : Location) (bytes : List UInt8) : Memory :=
  m.write l.space l.offset.toNat bytes

def observed (m : Memory) : Observed :=
  ⟨m .register, m .ram⟩

theorem length_read (m : Memory) (space : Space) (address size : Nat) :
    (m.read space address size).length = size := by
  simp [read]

theorem length_contents (m : Memory) (l : Location) : (m.contents l).length = l.size :=
  m.length_read ..

variable {m n : Memory} {l : Location}

theorem contents_congr (h : ∀ space x, l.Covers space x → m space x = n space x) :
    m.contents l = n.contents l := by
  apply List.map_congr_left
  intro i hi
  have hlt : i < l.size := List.mem_range.mp hi
  exact h l.space (l.offset.toNat + i) ⟨rfl, by omega, by omega⟩

/-- Writing changes the bytes written only. -/
theorem put_of_not_covers {bytes : List UInt8} (hlen : bytes.length = l.size) {space : Space}
    {x : Nat} (h : ¬l.Covers space x) : m.put l bytes space x = m space x := by
  unfold put write
  split
  next hin =>
    have hout : l.offset.toNat + l.size ≤ x := by
      by_contra hlt
      exact h ⟨hin.1.symm, hin.2, by omega⟩
    rw [List.getElem?_eq_none (by omega)]
    rfl
  next => rfl

theorem put_of_covers {bytes : List UInt8} (hlen : bytes.length = l.size) {space : Space} {x : Nat}
    (h : l.Covers space x) : bytes[x - l.offset.toNat]? = some (m.put l bytes space x) := by
  obtain ⟨hs, hle, hlt⟩ := h
  have hi : x - l.offset.toNat < bytes.length := by omega
  unfold put write
  rw [if_pos ⟨hs.symm, hle⟩, List.getElem?_eq_getElem hi]
  rfl

theorem contents_put {bytes : List UInt8} (hlen : bytes.length = l.size) :
    (m.put l bytes).contents l = bytes := by
  apply List.ext_getElem?
  intro i
  by_cases hi : i < l.size
  · have hcov : l.Covers l.space (l.offset.toNat + i) := ⟨rfl, by omega, by omega⟩
    have hput := put_of_covers (m := m) hlen hcov
    rw [Nat.add_sub_cancel_left] at hput
    rw [hput]
    simp [contents, read, hi]
  · rw [List.getElem?_eq_none (by rw [length_contents]; omega),
      List.getElem?_eq_none (by rw [hlen]; omega)]

/-- Putting back what a location holds elsewhere makes the two agree there. -/
theorem put_contents_of_covers {space : Space} {x : Nat} (h : l.Covers space x) :
    m.put l (n.contents l) space x = n space x := by
  have hput := put_of_covers (m := m) (length_contents n l) h
  obtain ⟨hs, hle, hlt⟩ := h
  have hi : x - l.offset.toNat < l.size := by omega
  have hx : l.offset.toNat + (x - l.offset.toNat) = x := by omega
  simpa [contents, read, hi, hx, hs, eq_comm] using hput

end Memory

structure Interpretation where
  constant : UInt64 → (size : Nat) → Vector UInt8 size
  /-- The address that a value stands for. -/
  address : List UInt8 → Nat
  copy : (size : Nat) → List UInt8 → Vector UInt8 size
  unary : UnaryOpcode → (size : Nat) → List UInt8 → Vector UInt8 size
  binary : BinaryOpcode → (size : Nat) → List UInt8 → List UInt8 → Vector UInt8 size
  /-- What a pure userop gives. -/
  answer : Userop → (size : Nat) → List (List UInt8) → Vector UInt8 size
  /-- What an impure userop gives. -/
  result : Userop → (size : Nat) → List (List UInt8) → Observed → Vector UInt8 size
  /-- The memory that an impure userop leaves. -/
  effect : Userop → List (List UInt8) → Observed → Nat → UInt8
  /-- A constant of address size stands for its own address. -/
  address_constant : ∀ word, address (constant word 8).toList = word.toNat

/-- What can be seen while a unit runs. -/
inductive Event where
  | branch (target : UInt64) (seen : Observed)
  | cbranch (target : UInt64) (condition : List UInt8) (seen : Observed)
  | branchInd (target : List UInt8) (seen : Observed)
  | store (space : Space) (offset value : List UInt8)
  | pureCall (userop : Userop) (args : List (List UInt8))
  | call (userop : Userop) (args : List (List UInt8)) (seen : Observed)

/-- A call of a userop, seen with memory if it is impure. -/
def Userop.event (u : Userop) (args : List (List UInt8)) (m : Memory) : Event :=
  if u.isPure then .pureCall u args else .call u args m.observed

namespace Interpretation

/-- A unit being run record by record: its memory, what was seen and what was loaded. -/
structure Direct where
  memory : Memory
  events : List Event := []
  loads : List (List UInt8) := []

def Direct.assign (d : Direct) (l : Location) (bytes : List UInt8) : Direct :=
  { d with memory := d.memory.put l bytes }

def Direct.see (d : Direct) (e : Event) : Direct :=
  { d with events := d.events ++ [e] }

variable (I : Interpretation) (m : Machine)

/-- What a location holds; one of the constant space is the constant. -/
def value (memory : Memory) (l : Location) : List UInt8 :=
  if l.space = .const then (I.constant l.offset l.size).toList else memory.contents l

def operand (line : Nat) (memory : Memory) (o : Operand) : Option (List UInt8) :=
  (m.location line o).toOption.map (I.value memory)

/-- The memory after a call: an impure one replaces all of it but the registers. -/
def afterCall (userop : Userop) (args : List (List UInt8)) (memory : Memory) : Memory :=
  if userop.isPure then memory
  else Function.update memory .ram (I.effect userop args memory.observed)

/-- What a call gives. -/
def callResult (userop : Userop) (size : Nat) (args : List (List UInt8)) (memory : Memory) :
    List UInt8 :=
  if userop.isPure then (I.answer userop size args).toList
  else (I.result userop size args memory.observed).toList

def call (r : Record) (userop : Userop) (args : List (List UInt8)) (d : Direct) : Option Direct :=
  let after := { d.see (userop.event args d.memory) with
    memory := I.afterCall userop args d.memory }
  match r.output with
  | none => some after
  | some _ => do
    let l ← (m.outputLocation r.line r.output).toOption
    return after.assign l (I.callResult userop l.size args d.memory)

/-- One record, directly on memory. -/
def record (r : Record) (d : Direct) : Option Direct :=
  match RecordOpcode.ofMnemonic? r.opcode, r.operands with
  | some (.binary opcode), [a, b] => do
    let l ← (m.outputLocation r.line r.output).toOption
    let x ← I.operand m r.line d.memory a
    let y ← I.operand m r.line d.memory b
    return d.assign l (I.binary opcode l.size x y).toList
  | some (.unary opcode), [a] => do
    let l ← (m.outputLocation r.line r.output).toOption
    let x ← I.operand m r.line d.memory a
    return d.assign l (I.unary opcode l.size x).toList
  | some .copy, [a] => do
    let l ← (m.outputLocation r.line r.output).toOption
    let x ← I.operand m r.line d.memory a
    return d.assign l (I.copy l.size x).toList
  | some .load, [a, b] => do
    let l ← (m.outputLocation r.line r.output).toOption
    let space ← (a.memorySpace r.line).toOption
    let offset ← I.operand m r.line d.memory b
    let bytes := d.memory.read space (I.address offset) l.size
    return { d.assign l bytes with loads := d.loads ++ [bytes] }
  | some .store, [a, b, c] => do
    let space ← (a.memorySpace r.line).toOption
    let offset ← I.operand m r.line d.memory b
    let bytes ← I.operand m r.line d.memory c
    return { d.see (.store space offset bytes) with
      memory := d.memory.write space (I.address offset) bytes }
  | some .branch, [a] => do
    let target ← (a.branchTarget r.line).toOption
    return d.see (.branch target d.memory.observed)
  | some .cbranch, [a, b] => do
    let target ← (a.branchTarget r.line).toOption
    let condition ← I.operand m r.line d.memory b
    return d.see (.cbranch target condition d.memory.observed)
  | some .branchInd, [a] => do
    let target ← I.operand m r.line d.memory a
    return d.see (.branchInd target d.memory.observed)
  | some .callOther, .userop name :: args => do
    let userop ← m.userops.get? name
    let values ← args.mapM (I.operand m r.line d.memory)
    I.call m r userop values d
  | _, _ => none

def records (rs : List Record) (d : Direct) : Option Direct :=
  rs.foldlM (fun d r => I.record m r d) d

/-- What a value stands for before anything runs. -/
def free (entry : Memory) : Option (Origin × Nat) → List UInt8
  | some (.constant word, size) => (I.constant word size).toList
  | some (.entry l, _) => entry.contents l
  | _ => []

/-- The size of a value, given the kinds of all. -/
def width (kinds : ValueId → Option (Origin × Nat)) (v : ValueId) : Nat :=
  ((kinds v).map Prod.snd).getD 0

theorem width_eq {kinds : ValueId → Option (Origin × Nat)} {v : ValueId} {origin : Origin}
    {size : Nat} (h : kinds v = some (origin, size)) : width kinds v = size := by
  rw [width, h]
  rfl

/-- The operations, given the kinds of the values. -/
def meaning (kinds : ValueId → Option (Origin × Nat)) : Meaning (List UInt8) Memory where
  compute op args :=
    match op, args with
    | .copy out _, [x] => (I.copy (width kinds out) x).toList
    | .unary opcode out _, [x] => (I.unary opcode (width kinds out) x).toList
    | .binary opcode out _ _, [x, y] => (I.binary opcode (width kinds out) x y).toList
    | .call userop (some out) _ _ _, args => (I.answer userop (width kinds out) args).toList
    | _, _ => []
  fetch op args memory :=
    match op, args with
    | .load out space _, [x] => memory.read space (I.address x) (width kinds out)
    | _, _ => []
  affect op args memory :=
    match op, args with
    | .store space _ _, [x, y] => ([], memory.write space (I.address x) y)
    | .writeback l _, [x] => ([], memory.put l x)
    | .call userop (some out) _ _ _, args =>
      ((I.result userop (width kinds out) args memory.observed).toList,
        I.afterCall userop args memory)
    | .call userop none _ _ _, args => ([], I.afterCall userop args memory)
    | _, _ => ([], memory)

end Interpretation

/-- What is seen of an operation. -/
def Operation.events (op : Operation) (args : List (List UInt8)) (m : Memory) : List Event :=
  match op, args with
  | .branch target, _ => [.branch target m.observed]
  | .cbranch target _, [x] => [.cbranch target x m.observed]
  | .branchInd _, [x] => [.branchInd x m.observed]
  | .store space _ _, [x, y] => [.store space x y]
  | .call userop _ _ _ _, args => [userop.event args m]
  | _, _ => []

namespace Meaning

/-- What is seen of a run. -/
def trace (m : Meaning (List UInt8) Memory) (r : Run (List UInt8) Memory) :
    List (OpId × Operation) → List Event
  | [] => []
  | x :: rest => x.2.events (x.2.inputs.map r.env) r.memory ++ m.trace (m.step r x) rest

theorem trace_append (m : Meaning (List UInt8) Memory) (r : Run (List UInt8) Memory)
    (code rest : List (OpId × Operation)) :
    m.trace r (code ++ rest) = m.trace r code ++ m.trace (m.run r code) rest := by
  induction code generalizing r with
  | nil => rfl
  | cons x code ih =>
    rw [List.cons_append, trace, trace, ih, run_cons, List.append_assoc]

end Meaning

/-- All operations in order of creation. -/
def Graph.operations (g : Graph) : List (OpId × Operation) :=
  g.nodeList.map fun (id, node) => (id, node.op)

namespace Interpretation
variable (I : Interpretation)

def start (kinds : ValueId → Option (Origin × Nat)) (entry : Memory) : Run (List UInt8) Memory where
  env v := I.free entry (kinds v)
  memory := entry

/-- A graph run from its free values on. -/
def runGraph (g : Graph) (entry : Memory) : Run (List UInt8) Memory :=
  (I.meaning g.kind?).run (I.start g.kind? entry) g.operations

def traceGraph (g : Graph) (entry : Memory) : List Event :=
  (I.meaning g.kind?).trace (I.start g.kind? entry) g.operations

end Interpretation

namespace Machine

/-- What lifting a unit leaves, unless it is refused. -/
def lifted? (m : Machine) (u : CodeUnit) : Option Lifting :=
  match m.lift u with
  | .ok _ b => some b
  | .error _ _ => none

theorem lift_of_lifted? {m : Machine} {u : CodeUnit} {b : Lifting} (h : m.lifted? u = some b) :
    m.lift u = .ok () b := by
  unfold lifted? at h
  split at h
  next hl =>
    obtain rfl := Option.some.inj h
    exact hl
  next => cases h

/-- The value that the output of a load record holds once the record is lifted. -/
def loadedBy (m : Machine) (r : Record) (s : Lifting) : Option ValueId :=
  if RecordOpcode.ofMnemonic? r.opcode = some .load then
    match m.outputLocation r.line r.output with
    | .ok l => s.contents.get? l
    | .error _ => none
  else none

/-- The values of the load records, in order. -/
def loaded (m : Machine) : List Record → Lifting → List ValueId
  | [], _ => []
  | r :: rest, s =>
    match Lift.record m r s with
    | .ok _ t => (m.loadedBy r t).toList ++ m.loaded rest t
    | .error _ _ => []

/-- The locations that a unit names. -/
def named (m : Machine) (u : CodeUnit) : List Location :=
  u.records.flatMap fun r => (r.output.toList ++ r.operands).filterMap fun o =>
    (m.location r.line o).toOption.filter (·.space ≠ .const)

/-- Different locations of the unit that share a byte share one before the last address. -/
def Separates (m : Machine) (u : CodeUnit) : Prop :=
  ∀ a ∈ m.named u, ∀ b ∈ m.named u, a ≠ b → ∀ space x, a.Covers space x → b.Covers space x →
    ∃ y, y < UInt64.size - 1 ∧ a.Covers space y ∧ b.Covers space y

end Machine
end DefUse
