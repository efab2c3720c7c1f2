import Mathlib.Data.List.Basic
import DefUse.Lift.Record

namespace DefUse

namespace UnitError

/-- Whether a unit was given up for a disagreement of types. -/
def isRejection : UnitError → Bool
  | typeRejected .. => true
  | _ => false

/-- Whether an error blames a record for what it asks. -/
def isOfRecord : UnitError → Bool
  | unsupportedOpcode .. | unknownUserop .. | useropArity .. | unknownRegister ..
  | unsupported .. => true
  | malformed .. | typeRejected .. | graph _ => false

variable {e : UnitError}

theorem isRecoverable_of_isOfRecord (h : e.isOfRecord = true) : e.isRecoverable = true := by
  cases e with
  | graph => cases h
  | _ => rfl

theorem isRejection_of_isOfRecord (h : e.isOfRecord = true) : e.isRejection = false := by
  cases e with
  | typeRejected => cases h
  | _ => rfl

end UnitError

section Errors
variable {m : Machine} {line : Nat} {operand : Operand} {e : UnitError}

theorem Machine.isOfRecord_of_location (h : m.location line operand = .error e) :
    e.isOfRecord = true := by
  cases operand with
  | varnode space offset size =>
    simp only [location] at h
    split at h
    next => cases h
    next => cases h; rfl
  | name name =>
    simp only [location] at h
    split at h
    next => cases h
    next => cases h; rfl
  | address word => cases h; rfl
  | userop text => cases h; rfl

theorem Machine.isOfRecord_of_outputLocation {output : Option Operand}
    (h : m.outputLocation line output = .error e) : e.isOfRecord = true := by
  cases output with
  | none => cases h; rfl
  | some operand =>
    cases hl : m.location line operand with
    | error e' =>
      simp only [outputLocation, hl, bind, Except.bind] at h
      cases h
      exact isOfRecord_of_location hl
    | ok l =>
      simp only [outputLocation, hl, bind, Except.bind] at h
      split at h
      next => cases h; rfl
      next => cases h

theorem Operand.isOfRecord_of_memorySpace (h : operand.memorySpace line = .error e) :
    e.isOfRecord = true := by
  unfold memorySpace at h
  split at h
  next => cases h
  next => cases h; rfl

theorem Operand.isOfRecord_of_branchTarget (h : operand.branchTarget line = .error e) :
    e.isOfRecord = true := by
  unfold branchTarget at h
  split at h
  next => cases h
  next => cases h
  next => cases h; rfl

end Errors

/-- An output location is what the operand names, and not a constant. -/
theorem Machine.outputLocation_eq_ok_iff {m : Machine} {line : Nat} {output : Option Operand}
    {l : Location} : m.outputLocation line output = .ok l ↔
      ∃ operand, output = some operand ∧ m.location line operand = .ok l ∧ l.space ≠ .const := by
  cases output with
  | none => simp [outputLocation]
  | some operand =>
    cases hl : m.location line operand with
    | error e => simp [outputLocation, hl, bind, Except.bind]
    | ok k =>
      simp only [outputLocation, hl, bind, Except.bind, Option.some.injEq]
      by_cases hk : k.space = .const
      · rw [if_pos hk]
        constructor
        · intro h
          cases h
        · rintro ⟨_, rfl, h, hne⟩
          obtain rfl := Except.ok.inj (hl.symm.trans h)
          exact absurd hk hne
      · rw [if_neg hk]
        constructor
        · intro h
          obtain rfl := Except.ok.inj h
          exact ⟨operand, rfl, hl, hk⟩
        · rintro ⟨_, rfl, h, _⟩
          exact hl.symm.trans h

/-- Loads and stores name observable spaces only. -/
theorem Operand.isObservable_of_memorySpace {line : Nat} {operand : Operand} {space : Space}
    (h : operand.memorySpace line = .ok space) : space.isObservable = true := by
  have hmem : space.isMemory = true := by
    unfold memorySpace at h
    split at h
    next found hfound =>
      cases h
      cases operand with
      | name text =>
        simp only [memorySpace?] at hfound
        exact (Option.filter_eq_some_iff.mp hfound).2
      | _ => cases hfound
    next => cases h
  exact hmem

/-- The name of a record's operation. -/
def RecordOpcode.mnemonic : RecordOpcode → String
  | binary opcode => opcode.mnemonic
  | unary opcode => opcode.mnemonic
  | copy => "COPY"
  | load => "LOAD"
  | store => "STORE"
  | branch => "BRANCH"
  | cbranch => "CBRANCH"
  | branchInd => "BRANCHIND"
  | callOther => "CALLOTHER"

theorem RecordOpcode.mnemonic_of_ofMnemonic? {text : String} {opcode : RecordOpcode}
    (h : ofMnemonic? text = some opcode) : opcode.mnemonic = text := by
  unfold ofMnemonic? at h
  split at h
  next found _ hfound =>
    cases h
    unfold BinaryOpcode.ofMnemonic? at hfound
    simpa [mnemonic] using List.find?_some hfound
  next found _ hfound =>
    cases h
    unfold UnaryOpcode.ofMnemonic? at hfound
    simpa [mnemonic] using List.find?_some hfound
  next => split at h <;> cases h <;> rfl

theorem RecordOpcode.ne_writeback {text : String} {opcode : RecordOpcode}
    (h : ofMnemonic? text = some opcode) : text ≠ "WRITEBACK" := by
  rintro rfl
  have hnone : ofMnemonic? "WRITEBACK" = none := by decide
  rw [hnone] at h
  cases h

namespace Operation

/-- The location and the value of a write-back. -/
def writeback? : Operation → Option (Location × ValueId)
  | writeback l v => some (l, v)
  | _ => none

/-- Whether an operation calls a userop. -/
def isCall : Operation → Bool
  | call .. => true
  | _ => false

end Operation

namespace Lift

/-- The pending writes that are written back before an operation. -/
inductive Barrier where
  | none
  | within (space : Space)
  | all

namespace Barrier

/-- Whether the pending write of a location is written back. -/
def covers : Barrier → Location → Bool
  | none, _ => false
  | within space, p => p.space = space
  | all, _ => true

def run (k : Primitives) : Barrier → Lift Unit
  | none => pure ()
  | within space => k.settleSpace space
  | all => k.settle

theorem filter_covers_none (ls : List Location) : ls.filter (covers none) = [] :=
  List.filter_eq_nil_iff.mpr fun _ _ => Bool.false_ne_true

theorem filter_covers_all (ls : List Location) : ls.filter (covers all) = ls :=
  List.filter_eq_self.mpr fun _ _ => rfl

theorem run_plain (b : Barrier) (s : Lifting) :
    b.run plain s = each writeBack (s.pending.filter b.covers) s := by
  cases b with
  | none =>
    rw [filter_covers_none]
    rfl
  | within space => rfl
  | all =>
    rw [filter_covers_all]
    rfl

end Barrier

/-- The operation of a record: one that defines nothing, or one with an output for a location. -/
inductive Effect where
  | perform (op : Operation)
  | define (l : Location) (op : ValueId → Operation)

/-- What a record does once its operands are read: pending writes are written back, its operation is
added, a space may be forgotten, and the output is written last. -/
structure Action where
  barrier : Barrier
  effect : Effect
  forgets : Option Space

namespace Action

def forget (k : Primitives) (a : Action) : Lift Unit :=
  match a.forgets with
  | none => pure ()
  | some space => k.forget space

def run (k : Primitives) (a : Action) : Lift Unit := do
  a.barrier.run k
  match a.effect with
  | .perform op =>
    let _ ← append op
    a.forget k
  | .define l op =>
    let out ← onGraph (Graph.newOutput l.size)
    let _ ← append (op out)
    a.forget k
    k.assign l out

end Action

/-- What a call asks of its arguments. -/
def callTypes (userop : Userop) (count : Nat) : List Behavior :=
  (List.range count).map fun i => (userop.inputAt? i).getD .any

/-- An impure call is preceded by all write-backs, and memory is forgotten after it. -/
def callAction (userop : Userop) (effect : Effect) : Action :=
  if userop.isPure then ⟨.none, effect, none⟩ else ⟨.all, effect, some .ram⟩

theorem effect_callAction (userop : Userop) (effect : Effect) :
    (callAction userop effect).effect = effect := by
  unfold callAction
  split <;> rfl

/-- The operands that a record reads and, by their values and what the locations hold then, what it
does. -/
inductive Asks (m : Machine) (r : Record) :
    List Operand → List ValueId → Snapshot → Action → Prop where
  | binary {opcode : BinaryOpcode} {a b : Operand} {l : Location} {v w : ValueId} {state : Snapshot}
      (opcode_eq : RecordOpcode.ofMnemonic? r.opcode = some (.binary opcode))
      (operands : r.operands = [a, b]) (output : m.outputLocation r.line r.output = .ok l) :
      Asks m r [a, b] [v, w] state ⟨.none, .define l fun out => .binary opcode out v w, none⟩
  | unary {opcode : UnaryOpcode} {a : Operand} {l : Location} {v : ValueId} {state : Snapshot}
      (opcode_eq : RecordOpcode.ofMnemonic? r.opcode = some (.unary opcode))
      (operands : r.operands = [a]) (output : m.outputLocation r.line r.output = .ok l) :
      Asks m r [a] [v] state ⟨.none, .define l fun out => .unary opcode out v, none⟩
  | copy {a : Operand} {l : Location} {v : ValueId} {state : Snapshot}
      (opcode_eq : RecordOpcode.ofMnemonic? r.opcode = some .copy)
      (operands : r.operands = [a]) (output : m.outputLocation r.line r.output = .ok l) :
      Asks m r [a] [v] state ⟨.none, .define l fun out => .copy out v, none⟩
  | load {a b : Operand} {l : Location} {space : Space} {v : ValueId} {state : Snapshot}
      (opcode_eq : RecordOpcode.ofMnemonic? r.opcode = some .load)
      (operands : r.operands = [a, b]) (output : m.outputLocation r.line r.output = .ok l)
      (space_eq : a.memorySpace r.line = .ok space) :
      Asks m r [b] [v] state ⟨.within space, .define l fun out => .load out space v, none⟩
  | store {a b c : Operand} {space : Space} {v w : ValueId} {state : Snapshot}
      (opcode_eq : RecordOpcode.ofMnemonic? r.opcode = some .store)
      (operands : r.operands = [a, b, c]) (space_eq : a.memorySpace r.line = .ok space) :
      Asks m r [b, c] [v, w] state ⟨.within space, .perform (.store space v w), some space⟩
  | branch {a : Operand} {target : UInt64} {state : Snapshot}
      (opcode_eq : RecordOpcode.ofMnemonic? r.opcode = some .branch)
      (operands : r.operands = [a]) (target_eq : a.branchTarget r.line = .ok target) :
      Asks m r [] [] state ⟨.all, .perform (.branch target), none⟩
  | cbranch {a b : Operand} {target : UInt64} {v : ValueId} {state : Snapshot}
      (opcode_eq : RecordOpcode.ofMnemonic? r.opcode = some .cbranch)
      (operands : r.operands = [a, b]) (target_eq : a.branchTarget r.line = .ok target) :
      Asks m r [b] [v] state ⟨.all, .perform (.cbranch target v), none⟩
  | branchInd {a : Operand} {v : ValueId} {state : Snapshot}
      (opcode_eq : RecordOpcode.ofMnemonic? r.opcode = some .branchInd)
      (operands : r.operands = [a]) :
      Asks m r [a] [v] state ⟨.all, .perform (.branchInd v), none⟩
  | call {name : String} {args : List Operand} {userop : Userop} {values : List ValueId}
      {state : Snapshot} (opcode_eq : RecordOpcode.ofMnemonic? r.opcode = some .callOther)
      (operands : r.operands = .userop name :: args) (userop_eq : m.userops.get? name = some userop)
      (count : values.length = args.length) (output : r.output = none) :
      Asks m r args values state (callAction userop
        (.perform (.call userop none values (callTypes userop args.length) state)))
  | callInto {name : String} {args : List Operand} {userop : Userop} {values : List ValueId}
      {state : Snapshot} {l : Location}
      (opcode_eq : RecordOpcode.ofMnemonic? r.opcode = some .callOther)
      (operands : r.operands = .userop name :: args) (userop_eq : m.userops.get? name = some userop)
      (count : values.length = args.length) (output : m.outputLocation r.line r.output = .ok l) :
      Asks m r args values state (callAction userop (.define l fun out =>
        .call userop (some out) values (callTypes userop args.length) state))

/-- A record that cannot be lifted, whatever the state. -/
def Refused (m : Machine) (r : Record) : Prop :=
  ∃ e : UnitError, e.isOfRecord = true ∧ ∀ k : Primitives, k.record m r = throw e

/-- A record that reads operands and then does what it asks for. -/
def Understood (m : Machine) (r : Record) : Prop :=
  ∃ operands, ∃ act : List ValueId → Snapshot → Action,
    (∀ values state, values.length = operands.length →
      Asks m r operands values state (act values state)) ∧
    ∀ k : Primitives, k.record m r = do
      let values ← readAll m r.line operands
      let s ← get
      (act values (Snapshot.ofList s.contents)).run k

section Decoding
variable {m : Machine} {r : Record}

/-- What a record names is understood before anything is read. -/
theorem refused_or_ok {α : Type} {x : Except UnitError α} {f : Primitives → α → Lift Unit}
    (h : ∀ k : Primitives, k.record m r = ofExcept x >>= f k)
    (hx : ∀ e, x = .error e → e.isOfRecord = true) :
    Refused m r ∨ ∃ a, x = .ok a ∧ ∀ k : Primitives, k.record m r = f k a := by
  cases x with
  | ok a => exact .inr ⟨a, rfl, h⟩
  | error e => exact .inl ⟨e, hx e rfl, h⟩

theorem refused_of_wrongCount (count : Nat)
    (h : ∀ k : Primitives, k.record m r = wrongCount r count) : Refused m r :=
  ⟨_, rfl, h⟩

/-- What a record does need not depend on what the locations hold. -/
theorem understood_of_eq (operands : List Operand) (act : List ValueId → Action)
    (hasks : ∀ values state, values.length = operands.length →
      Asks m r operands values state (act values))
    (hrecord : ∀ k : Primitives, k.record m r = readAll m r.line operands >>= fun values =>
      (act values).run k) : Understood m r :=
  ⟨operands, fun values _ => act values, hasks, hrecord⟩

/-- A record that reads its operands and defines its output. -/
theorem understood_of_define (operands : List Operand) (l : Location)
    (op : List ValueId → ValueId → Operation)
    (hrecord : ∀ k : Primitives, k.record m r = readAll m r.line operands >>= fun values =>
      k.define l (op values))
    (hasks : ∀ values state, values.length = operands.length →
      Asks m r operands values state ⟨.none, .define l (op values), none⟩) : Understood m r := by
  refine understood_of_eq operands (fun values => ⟨.none, .define l (op values), none⟩) hasks ?_
  intro k
  simp [hrecord, Action.run, Action.forget, Barrier.run, Primitives.define]

/-- A record that reads its operands and adds an operation without output after all write-backs. -/
theorem understood_of_settle (operands : List Operand) (op : List ValueId → Operation)
    (hrecord : ∀ k : Primitives, k.record m r = readAll m r.line operands >>= fun values => do
      k.settle
      let _ ← append (op values))
    (hasks : ∀ values state, values.length = operands.length →
      Asks m r operands values state ⟨.all, .perform (op values), none⟩) : Understood m r := by
  refine understood_of_eq operands (fun values => ⟨.all, .perform (op values), none⟩) hasks ?_
  intro k
  simp [hrecord, Action.run, Action.forget, Barrier.run]

theorem refused_or_understood_of_binary {opcode : BinaryOpcode}
    (hop : RecordOpcode.ofMnemonic? r.opcode = some (.binary opcode)) :
    Refused m r ∨ Understood m r := by
  match hargs : r.operands with
  | [a, b] =>
    have hrecord (k : Primitives) : k.record m r = (do
        let l ← ofExcept (m.outputLocation r.line r.output)
        let left ← read m r.line a
        let right ← read m r.line b
        k.define l fun out => .binary opcode out left right) := by
      simp only [Primitives.record, hop, hargs]
    refine (refused_or_ok hrecord fun _ => Machine.isOfRecord_of_outputLocation).imp_right ?_
    rintro ⟨l, hl, hrecord⟩
    refine understood_of_define [a, b] l (fun values out =>
      .binary opcode out (values.getD 0 ⟨0⟩) (values.getD 1 ⟨0⟩)) ?_ ?_
    · intro k
      simp [hrecord, readAll]
    · intro values state hlen
      obtain ⟨v, w, rfl⟩ := List.length_eq_two.mp hlen
      exact .binary hop hargs hl
  | [] | [_] | _ :: _ :: _ :: _ =>
    refine .inl (refused_of_wrongCount 2 fun k => ?_)
    simp only [Primitives.record, hop, hargs]

/-- A record that computes its output from one operand. -/
theorem refused_or_understood_of_input {a : Operand} (op : ValueId → ValueId → Operation)
    (hrecord : ∀ k : Primitives, k.record m r = do
      let l ← ofExcept (m.outputLocation r.line r.output)
      let input ← read m r.line a
      k.define l (op input))
    (hasks : ∀ l v state, m.outputLocation r.line r.output = .ok l →
      Asks m r [a] [v] state ⟨.none, .define l (op v), none⟩) : Refused m r ∨ Understood m r := by
  refine (refused_or_ok hrecord fun _ => Machine.isOfRecord_of_outputLocation).imp_right ?_
  rintro ⟨l, hl, hrecord⟩
  refine understood_of_define [a] l (fun values => op (values.getD 0 ⟨0⟩)) ?_ ?_
  · intro k
    simp [hrecord, readAll]
  · intro values state hlen
    obtain ⟨v, rfl⟩ := List.length_eq_one_iff.mp hlen
    exact hasks l v state hl

theorem refused_or_understood_of_unary {opcode : UnaryOpcode}
    (hop : RecordOpcode.ofMnemonic? r.opcode = some (.unary opcode)) :
    Refused m r ∨ Understood m r := by
  match hargs : r.operands with
  | [a] =>
    refine refused_or_understood_of_input (a := a) (fun input out => .unary opcode out input)
      (fun k => ?_) fun l v state hl => .unary hop hargs hl
    simp only [Primitives.record, hop, hargs]
  | [] | _ :: _ :: _ =>
    refine .inl (refused_of_wrongCount 1 fun k => ?_)
    simp only [Primitives.record, hop, hargs]

theorem refused_or_understood_of_copy (hop : RecordOpcode.ofMnemonic? r.opcode = some .copy) :
    Refused m r ∨ Understood m r := by
  match hargs : r.operands with
  | [a] =>
    refine refused_or_understood_of_input (a := a) (fun input out => .copy out input) (fun k => ?_)
      fun l v state hl => .copy hop hargs hl
    simp only [Primitives.record, hop, hargs]
  | [] | _ :: _ :: _ =>
    refine .inl (refused_of_wrongCount 1 fun k => ?_)
    simp only [Primitives.record, hop, hargs]

theorem refused_or_understood_of_load (hop : RecordOpcode.ofMnemonic? r.opcode = some .load) :
    Refused m r ∨ Understood m r := by
  match hargs : r.operands with
  | [a, b] =>
    have hrecord (k : Primitives) : k.record m r = (do
        let l ← ofExcept (m.outputLocation r.line r.output)
        let space ← ofExcept (a.memorySpace r.line)
        let offset ← read m r.line b
        k.settleSpace space
        k.define l fun out => .load out space offset) := by
      simp only [Primitives.record, hop, hargs]
    rcases refused_or_ok hrecord fun _ => Machine.isOfRecord_of_outputLocation with
      hrefused | ⟨l, hl, hrecord⟩
    · exact .inl hrefused
    refine (refused_or_ok hrecord fun _ => Operand.isOfRecord_of_memorySpace).imp_right ?_
    rintro ⟨space, hspace, hrecord⟩
    refine understood_of_eq [b] (fun values => ⟨.within space, .define l fun out =>
      .load out space (values.getD 0 ⟨0⟩), none⟩) ?_ ?_
    · intro values state hlen
      obtain ⟨v, rfl⟩ := List.length_eq_one_iff.mp hlen
      exact .load hop hargs hl hspace
    · intro k
      simp [hrecord, readAll, Action.run, Action.forget, Barrier.run, Primitives.define]
  | [] | [_] | _ :: _ :: _ :: _ =>
    refine .inl (refused_of_wrongCount 2 fun k => ?_)
    simp only [Primitives.record, hop, hargs]

theorem refused_or_understood_of_store (hop : RecordOpcode.ofMnemonic? r.opcode = some .store) :
    Refused m r ∨ Understood m r := by
  match hargs : r.operands with
  | [a, b, c] =>
    have hrecord (k : Primitives) : k.record m r = (do
        let space ← ofExcept (a.memorySpace r.line)
        let offset ← read m r.line b
        let value ← read m r.line c
        k.settleSpace space
        let _ ← append (.store space offset value)
        k.forget space) := by
      simp only [Primitives.record, hop, hargs]
    refine (refused_or_ok hrecord fun _ => Operand.isOfRecord_of_memorySpace).imp_right ?_
    rintro ⟨space, hspace, hrecord⟩
    refine understood_of_eq [b, c] (fun values => ⟨.within space, .perform
      (.store space (values.getD 0 ⟨0⟩) (values.getD 1 ⟨0⟩)), some space⟩) ?_ ?_
    · intro values state hlen
      obtain ⟨v, w, rfl⟩ := List.length_eq_two.mp hlen
      exact .store hop hargs hspace
    · intro k
      simp [hrecord, readAll, Action.run, Action.forget, Barrier.run]
  | [] | [_] | [_, _] | _ :: _ :: _ :: _ :: _ =>
    refine .inl (refused_of_wrongCount 3 fun k => ?_)
    simp only [Primitives.record, hop, hargs]

theorem refused_or_understood_of_branch (hop : RecordOpcode.ofMnemonic? r.opcode = some .branch) :
    Refused m r ∨ Understood m r := by
  match hargs : r.operands with
  | [a] =>
    have hrecord (k : Primitives) : k.record m r = (do
        let target ← ofExcept (a.branchTarget r.line)
        k.settle
        let _ ← append (.branch target)) := by
      simp only [Primitives.record, hop, hargs]
    refine (refused_or_ok hrecord fun _ => Operand.isOfRecord_of_branchTarget).imp_right ?_
    rintro ⟨target, htarget, hrecord⟩
    refine understood_of_settle [] (fun _ => .branch target) ?_ ?_
    · intro k
      simp [hrecord, readAll]
    · intro values state hlen
      obtain rfl := List.length_eq_zero_iff.mp hlen
      exact .branch hop hargs htarget
  | [] | _ :: _ :: _ =>
    refine .inl (refused_of_wrongCount 1 fun k => ?_)
    simp only [Primitives.record, hop, hargs]

theorem refused_or_understood_of_cbranch (hop : RecordOpcode.ofMnemonic? r.opcode = some .cbranch) :
    Refused m r ∨ Understood m r := by
  match hargs : r.operands with
  | [a, b] =>
    have hrecord (k : Primitives) : k.record m r = (do
        let target ← ofExcept (a.branchTarget r.line)
        let condition ← read m r.line b
        k.settle
        let _ ← append (.cbranch target condition)) := by
      simp only [Primitives.record, hop, hargs]
    refine (refused_or_ok hrecord fun _ => Operand.isOfRecord_of_branchTarget).imp_right ?_
    rintro ⟨target, htarget, hrecord⟩
    refine understood_of_settle [b] (fun values => .cbranch target (values.getD 0 ⟨0⟩)) ?_ ?_
    · intro k
      simp [hrecord, readAll]
    · intro values state hlen
      obtain ⟨v, rfl⟩ := List.length_eq_one_iff.mp hlen
      exact .cbranch hop hargs htarget
  | [] | [_] | _ :: _ :: _ :: _ =>
    refine .inl (refused_of_wrongCount 2 fun k => ?_)
    simp only [Primitives.record, hop, hargs]

theorem refused_or_understood_of_branchInd
    (hop : RecordOpcode.ofMnemonic? r.opcode = some .branchInd) : Refused m r ∨ Understood m r := by
  match hargs : r.operands with
  | [a] =>
    refine .inr (understood_of_settle [a] (fun values => .branchInd (values.getD 0 ⟨0⟩)) ?_ ?_)
    · intro k
      simp [Primitives.record, hop, hargs, readAll]
    · intro values state hlen
      obtain ⟨v, rfl⟩ := List.length_eq_one_iff.mp hlen
      exact .branchInd hop hargs
  | [] | _ :: _ :: _ =>
    refine .inl (refused_of_wrongCount 1 fun k => ?_)
    simp only [Primitives.record, hop, hargs]

theorem refused_or_understood_of_callOther
    (hop : RecordOpcode.ofMnemonic? r.opcode = some .callOther) : Refused m r ∨ Understood m r := by
  have hrecord (k : Primitives) : k.record m r = k.callOther m r := by
    simp only [Primitives.record, hop]
  match hargs : r.operands with
  | .userop name :: args =>
    cases huserop : m.userops.get? name with
    | none =>
      refine .inl ⟨.unknownUserop r.line name, rfl, fun k => ?_⟩
      simp only [hrecord, Primitives.callOther, hargs, huserop]
    | some userop =>
      cases harity : userop.acceptsArity args.length with
      | false =>
        refine .inl ⟨.useropArity r.line name userop.inputs.length args.length, rfl, fun k => ?_⟩
        simp only [hrecord, Primitives.callOther, hargs, huserop, harity]
        rfl
      | true =>
        cases hout : r.output with
        | none =>
          refine .inr ⟨args, fun values state => callAction userop
            (.perform (.call userop none values (callTypes userop args.length) state)),
            fun values state hlen => .call hop hargs huserop hlen hout, fun k => ?_⟩
          cases hpure : userop.isPure <;>
            simp [hrecord, Primitives.callOther, hargs, huserop, harity, hout, hpure, callAction,
              callTypes, Action.run, Action.forget, Barrier.run]
        | some operand =>
          cases hl : m.outputLocation r.line (some operand) with
          | error e =>
            refine .inl ⟨e, Machine.isOfRecord_of_outputLocation hl, fun k => ?_⟩
            simp only [hrecord, Primitives.callOther, hargs, huserop, harity, hout, hl]
            rfl
          | ok l =>
            refine .inr ⟨args, fun values state => callAction userop (.define l fun out =>
              .call userop (some out) values (callTypes userop args.length) state),
              fun values state hlen => .callInto hop hargs huserop hlen (hout ▸ hl), fun k => ?_⟩
            cases hpure : userop.isPure <;>
              simp [hrecord, Primitives.callOther, hargs, huserop, harity, hout, hl, hpure,
                callAction, callTypes, Action.run, Action.forget, Barrier.run, ofExcept]
  | [] | .varnode .. :: _ | .name _ :: _ | .address _ :: _ =>
    refine .inl ⟨.unsupported r.line "CALLOTHER needs a userop name", rfl, fun k => ?_⟩
    simp only [hrecord, Primitives.callOther, hargs]
    rfl

/-- A record is refused before anything is done, or its operands are read and it does what it asks
for. -/
theorem refused_or_understood (m : Machine) (r : Record) : Refused m r ∨ Understood m r := by
  cases hop : RecordOpcode.ofMnemonic? r.opcode with
  | none =>
    refine .inl ⟨.unsupportedOpcode r.line r.opcode, rfl, fun k => ?_⟩
    simp only [Primitives.record, hop]
  | some opcode =>
    cases opcode with
    | binary opcode => exact refused_or_understood_of_binary hop
    | unary opcode => exact refused_or_understood_of_unary hop
    | copy => exact refused_or_understood_of_copy hop
    | load => exact refused_or_understood_of_load hop
    | store => exact refused_or_understood_of_store hop
    | branch => exact refused_or_understood_of_branch hop
    | cbranch => exact refused_or_understood_of_cbranch hop
    | branchInd => exact refused_or_understood_of_branchInd hop
    | callOther => exact refused_or_understood_of_callOther hop

end Decoding

section Actions
variable {m : Machine} {r : Record} {operands : List Operand} {values : List ValueId}
  {state : Snapshot} {a : Action}

/-- What the operation of a record has to do with it. -/
structure Fits (r : Record) (values : List ValueId) (op : Operation) : Prop where
  inputs : op.inputs = values
  typed : op.inputTypes.length = op.inputs.length
  named : ∃ opcode, RecordOpcode.ofMnemonic? r.opcode = some opcode ∧ opcode.mnemonic = op.mnemonic
  other : op.writeback? = none

theorem Fits.mnemonic_eq {op : Operation} (h : Fits r values op) : op.mnemonic = r.opcode := by
  obtain ⟨opcode, hopcode, hname⟩ := h.named
  exact hname.symm.trans (RecordOpcode.mnemonic_of_ofMnemonic? hopcode)

theorem Fits.opcode_ne_writeback {op : Operation} (h : Fits r values op) :
    r.opcode ≠ "WRITEBACK" := by
  obtain ⟨opcode, hopcode, _⟩ := h.named
  exact RecordOpcode.ne_writeback hopcode

/-- What a record asks for suits it, whatever it is. -/
structure Suits (m : Machine) (r : Record) (values : List ValueId) (a : Action) : Prop where
  perform : ∀ {op}, a.effect = .perform op → op.output = none ∧ Fits r values op
  define : ∀ {l op}, a.effect = .define l op → m.outputLocation r.line r.output = .ok l ∧
    ∀ out, (op out).output = some out ∧ Fits r values (op out)
  /-- Nothing is pending in a space that is forgotten. -/
  forgets : ∀ {space}, a.forgets = some space → ∀ p : Location, p.space = space →
    a.barrier.covers p = true

theorem suits_of_define {b : Barrier} {l : Location} {op : ValueId → Operation}
    (hl : m.outputLocation r.line r.output = .ok l)
    (hop : ∀ out, (op out).output = some out ∧ Fits r values (op out)) :
    Suits m r values ⟨b, .define l op, none⟩ where
  perform h := by cases h
  define h := by
    cases h
    exact ⟨hl, hop⟩
  forgets h := by cases h

theorem suits_of_perform {b : Barrier} {op : Operation} (hout : op.output = none)
    (hop : Fits r values op) : Suits m r values ⟨b, .perform op, none⟩ where
  perform h := by
    cases h
    exact ⟨hout, hop⟩
  define h := by cases h
  forgets h := by cases h

theorem fits_call (userop : Userop) (out : Option ValueId) (state : Snapshot)
    (hop : RecordOpcode.ofMnemonic? r.opcode = some .callOther)
    (hcount : values.length = operands.length) :
    Fits r values (.call userop out values (callTypes userop operands.length) state) where
  inputs := rfl
  typed := (List.length_map _).trans (List.length_range.trans hcount.symm)
  named := ⟨_, hop, rfl⟩
  other := rfl

theorem suits_callAction {userop : Userop} {effect : Effect}
    (h : Suits m r values ⟨.all, effect, none⟩) : Suits m r values (callAction userop effect) := by
  unfold callAction
  split
  next => exact ⟨h.perform, h.define, fun hspace => by cases hspace⟩
  next => exact ⟨h.perform, h.define, fun _ _ _ => rfl⟩

theorem Asks.suits (h : Asks m r operands values state a) : Suits m r values a := by
  cases h with
  | binary opcode_eq _ output =>
    exact suits_of_define output fun _ => ⟨rfl, rfl, rfl, ⟨_, opcode_eq, rfl⟩, rfl⟩
  | unary opcode_eq _ output =>
    exact suits_of_define output fun _ => ⟨rfl, rfl, rfl, ⟨_, opcode_eq, rfl⟩, rfl⟩
  | copy opcode_eq _ output =>
    exact suits_of_define output fun _ => ⟨rfl, rfl, rfl, ⟨_, opcode_eq, rfl⟩, rfl⟩
  | load opcode_eq _ output =>
    exact suits_of_define output fun _ => ⟨rfl, rfl, rfl, ⟨_, opcode_eq, rfl⟩, rfl⟩
  | @store _ _ _ space v w _ opcode_eq =>
    have hsuits : Suits m r [v, w] ⟨.within space, .perform (.store space v w), none⟩ :=
      suits_of_perform rfl ⟨rfl, rfl, ⟨_, opcode_eq, rfl⟩, rfl⟩
    refine ⟨hsuits.perform, hsuits.define, ?_⟩
    intro space' hspace p hp
    cases hspace
    exact decide_eq_true hp
  | branch opcode_eq => exact suits_of_perform rfl ⟨rfl, rfl, ⟨_, opcode_eq, rfl⟩, rfl⟩
  | cbranch opcode_eq => exact suits_of_perform rfl ⟨rfl, rfl, ⟨_, opcode_eq, rfl⟩, rfl⟩
  | branchInd opcode_eq => exact suits_of_perform rfl ⟨rfl, rfl, ⟨_, opcode_eq, rfl⟩, rfl⟩
  | call opcode_eq _ _ count =>
    exact suits_callAction (suits_of_perform rfl (fits_call _ _ _ opcode_eq count))
  | callInto opcode_eq _ _ count output =>
    exact suits_callAction (suits_of_define output fun _ =>
      ⟨rfl, fits_call _ _ _ opcode_eq count⟩)

/-- Whether an operation is the one that an effect adds. -/
def Effect.Adds (effect : Effect) (op : Operation) : Prop :=
  match effect with
  | perform own => op = own
  | define _ own => ∃ out, op = own out

/-- A call comes of a record that names a userop, and of nothing else. -/
theorem Asks.eq_call (h : Asks m r operands values state a) {op : Operation}
    (hop : a.effect.Adds op) (hcall : op.isCall = true) :
    RecordOpcode.ofMnemonic? r.opcode = some .callOther ∧ ∃ name userop out,
      r.operands = .userop name :: operands ∧ m.userops.get? name = some userop ∧
      op = .call userop out values (callTypes userop operands.length) state := by
  cases h with
  | binary | unary | copy | load =>
    obtain ⟨out, rfl⟩ := hop
    cases hcall
  | store | branch | cbranch | branchInd =>
    cases hop
    cases hcall
  | @call name _ userop _ _ opcode_eq operands userop_eq =>
    rw [effect_callAction] at hop
    exact ⟨opcode_eq, name, userop, none, operands, userop_eq, hop⟩
  | @callInto name _ userop _ _ _ opcode_eq operands userop_eq =>
    rw [effect_callAction] at hop
    obtain ⟨out, hop⟩ := hop
    exact ⟨opcode_eq, name, userop, some out, operands, userop_eq, hop⟩

end Actions

end Lift
end DefUse
