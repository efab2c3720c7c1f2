import DefUse.Proofs.Lift.WrittenBack

namespace DefUse

/-- Whether a record of this opcode defines a value. -/
def RecordOpcode.defines : RecordOpcode → Bool
  | binary _ | unary _ | copy | load | callOther => true
  | store | branch | cbranch | branchInd => false

namespace Lift
open Lifting

/-- From `s` to `t` an operation with the name is added whose output, of the location's size, is what
the location holds in the end. -/
def Leaves (name : String) (l : Location) (s t : Lifting) : Prop :=
  ∃ new id op v, s.Reaches t new ∧ (id, op) ∈ new ∧ op.mnemonic = name ∧ op.output = some v ∧
    t.graph.kind? v = some (.output, l.size) ∧ t.contents.get? l = some v

section Leaves
variable {m : Machine} {r : Record} {name : String} {l : Location} {s t u : Lifting}

theorem Leaves.of_reaches {new : List (OpId × Operation)} (hr : s.Reaches t new)
    (h : Leaves name l t u) : Leaves name l s u := by
  obtain ⟨more, id, op, v, hreach, hmem, hrest⟩ := h
  exact ⟨new ++ more, id, op, v, hr.trans hreach, List.mem_append_right new hmem, hrest⟩

theorem Assigns.held {v : ValueId} (h : Assigns l v s t) : t.contents.get? l = some v := by
  obtain ⟨u, _, rfl⟩ := h.before
  rw [get?_hold, if_pos rfl]

/-- A record that names an output and whose opcode defines a value asks for an operation with an
output. -/
theorem Asks.exists_define {operands : List Operand} {values : List ValueId} {state : Snapshot}
    {a : Action} (h : Asks m r operands values state a) {opcode : RecordOpcode}
    (hop : RecordOpcode.ofMnemonic? r.opcode = some opcode) (hdefines : opcode.defines = true)
    (houtput : r.output ≠ none) : ∃ l op, a.effect = .define l op := by
  have hnot {code : RecordOpcode} (hcode : RecordOpcode.ofMnemonic? r.opcode = some code) :
      code.defines = true := Option.some.inj (hop.symm.trans hcode) ▸ hdefines
  cases h with
  | binary | unary | copy | load => exact ⟨_, _, rfl⟩
  | store opcode_eq | branch opcode_eq | cbranch opcode_eq | branchInd opcode_eq =>
    cases hnot opcode_eq
  | call _ _ _ _ output => exact absurd output houtput
  | callInto => exact ⟨_, _, effect_callAction ..⟩

/-- A record with an opcode that defines a value leaves it in the location of its output. -/
theorem Lifts.leaves (h : Lifts m r s t) (hs : s.Sound) {opcode : RecordOpcode}
    (hop : RecordOpcode.ofMnemonic? r.opcode = some opcode) (hdefines : opcode.defines = true)
    {operand : Operand} (houtput : r.output = some operand) :
    ∃ l, m.outputLocation r.line (some operand) = .ok l ∧ Leaves r.opcode l s t := by
  obtain ⟨reads, asks, acts⟩ := h
  obtain ⟨l, op, heffect⟩ := asks.exists_define hop hdefines (by simp [houtput])
  obtain ⟨out, s₁, s₂, hw, hemits, hassigns⟩ := acts.of_define heffect
  obtain ⟨hl, hsuits⟩ := asks.suits.define heffect
  obtain ⟨_, h₁⟩ := reads.reaches hs
  obtain ⟨_, h₂⟩ := hw.reaches h₁.sound
  obtain ⟨id, h₃⟩ := hemits.reaches
  have hafter := reaches_after h₃ (asks.suits.clear hw.settles hemits.alike.pending)
  obtain ⟨more, h₄⟩ := hassigns.reaches hafter.sound
  have hkind := hemits.kind
  rw [← graph_after] at hkind
  refine ⟨l, houtput ▸ hl, .of_reaches (h₁.trans h₂) ⟨[(id, op out)] ++ more, id, op out, out,
    hafter.trans h₄, List.mem_append_left more (List.mem_singleton.mpr rfl),
    (hsuits out).2.mnemonic_eq, (hsuits out).1, h₄.grows.kind hkind, hassigns.held⟩⟩

/-- A record with another opcode is lifted alike whatever output it names. -/
theorem record_of_not_defines {opcode : RecordOpcode}
    (hop : RecordOpcode.ofMnemonic? r.opcode = some opcode) (hdefines : opcode.defines = false)
    (output : Option Operand) : record m { r with output } = record m r := by
  cases opcode with
  | store | branch | cbranch | branchInd =>
    simp only [record, Primitives.record, hop]
    rfl
  | binary | unary | copy | load | callOther => cases hdefines

end Leaves

section Records
variable {m : Machine} {before after : List Record} {r : Record} {s u : Lifting}

theorem LiftsAll.runs {rs : List Record} (h : LiftsAll m rs s u) : records m rs s = .ok () u := by
  induction h with
  | nil => rfl
  | cons runs _ _ ih => simp only [records, bind, EStateM.bind, runs, ih]

/-- The states before and after one of the records. -/
theorem LiftsAll.split (h : LiftsAll m (before ++ r :: after) s u) :
    ∃ t t', LiftsAll m before s t ∧ record m r t = .ok () t' ∧ Lifts m r t t' ∧
      LiftsAll m after t' u := by
  induction before generalizing s with
  | nil =>
    cases h with
    | cons runs first others => exact ⟨s, _, .nil, runs, first, others⟩
  | cons first rest ih =>
    cases h with
    | cons runs lifts others =>
      obtain ⟨t, t', hbefore, hrest⟩ := ih others
      exact ⟨t, t', .cons runs lifts hbefore, hrest⟩

end Records
end Lift

namespace Machine
open Lift

variable {m : Machine} {u : CodeUnit} {b : Lifting}

/-- Whatever the records of a lifted unit, one that names an output and whose opcode defines a value
adds an operation of its own name to the graph; that operation defines an output of the size of the
location that is named, and this is what the location holds once the record is lifted. The other
opcodes make nothing of the output: the record is lifted as without it. -/
theorem outputs_are_held (hl : m.lift u = .ok () b) {before after : List Record} {r : Record}
    (hr : u.records = before ++ r :: after) {operand : Operand} (hout : r.output = some operand) :
    ∃ s t opcode, records m before {} = .ok () s ∧ record m r s = .ok () t ∧
      RecordOpcode.ofMnemonic? r.opcode = some opcode ∧
      if opcode.defines then
        ∃ l id op v x, m.location r.line operand = .ok l ∧ l.space ≠ .const ∧
          (id, op) ∈ t.graph.operations.drop s.graph.operations.length ∧
          (id, op) ∈ b.graph.operations ∧ op.mnemonic = r.opcode ∧ op.output = some v ∧
          b.graph.value? v = some x ∧ x.definer = some id ∧ x.origin = .output ∧ x.size = l.size ∧
          t.contents.get? l = some v
      else record m { r with output := none } s = .ok () t := by
  obtain ⟨s', hrecords, hw⟩ := lifts_of_lift hl
  rw [hr] at hrecords
  obtain ⟨s, t, hbefore, hruns, hlifts, hafter⟩ := hrecords.split
  obtain ⟨_, h₁⟩ := hbefore.reaches Lifting.sound_empty
  obtain ⟨_, h₂⟩ := hlifts.reaches h₁.sound
  obtain ⟨_, h₃⟩ := hafter.reaches h₂.sound
  obtain ⟨_, h₄⟩ := hw.reaches h₃.sound
  have hrest := h₃.trans h₄
  cases hop : RecordOpcode.ofMnemonic? r.opcode with
  | none =>
    simp only [record, Primitives.record, hop] at hruns
    cases hruns
  | some opcode =>
    refine ⟨s, t, opcode, hbefore.runs, hruns, rfl, ?_⟩
    cases hdefines : opcode.defines with
    | false =>
      rw [record_of_not_defines hop hdefines]
      exact hruns
    | true =>
      obtain ⟨l, hloc, new, id, op, v, hnew, hmem, hname, hv, hkind, hheld⟩ :=
        hlifts.leaves h₁.sound hop hdefines hout
      obtain ⟨_, hsome, hloc, hconst⟩ := outputLocation_eq_ok_iff.mp hloc
      obtain rfl := Option.some.inj hsome
      have hcode : (id, op) ∈ b.graph.linkedOps := by
        rw [hrest.grows.code, hnew.grows.code]
        exact List.mem_append_left _ (List.mem_append_right _ hmem)
      have hlinked := Graph.mem_linkedOps_iff.mp hcode
      have hg := hrest.sound.graph
      obtain ⟨x, hx⟩ := Option.isSome_iff_exists.mp (hg.consistent.output_live hlinked hv)
      have hsame := (Graph.kind?_of_value? hx).symm.trans (hrest.grows.kind hkind)
      obtain ⟨horigin, hsize⟩ := Prod.mk.inj (Option.some.inj hsame)
      rw [drop_operations_of_reaches h₁.sound hnew, hg.operations_eq]
      exact ⟨l, id, op, v, x, hloc, hconst, hmem, hcode, hname, hv, hx,
        (hg.consistent.definer_iff hx id).mpr ⟨op, hlinked, hv⟩, horigin, hsize, hheld⟩

/-- A sum that goes to part of what it reads. -/
def sumInPlace : Record :=
  ⟨3, some (.varnode "ram" 0x1004 4), "INT_ADD", [.varnode "ram" 0x1000 8, .varnode "const" 1 8]⟩

/-- A call whose result goes to memory that it may have changed, and a sum of what is there. -/
def resultToMemory : CodeUnit :=
  { name := "f", line := 1, records := [
    ⟨2, some (.varnode "ram" 0x1000 8), "CALLOTHER", [.userop "syscall", .name "RDI"]⟩,
    sumInPlace] }

theorem sumInPlace_is_held :
    ∃ b s t id op v x, ({} : Machine).lift resultToMemory = .ok () b ∧
      record {} sumInPlace s = .ok () t ∧ (id, op) ∈ b.graph.operations ∧
      op.mnemonic = "INT_ADD" ∧ op.output = some v ∧ b.graph.value? v = some x ∧
      x.definer = some id ∧ x.size = 4 ∧ t.contents.get? ⟨.ram, 0x1004, 4⟩ = some v := by
  have hok : (({} : Machine).lifted? resultToMemory).isSome = true := by decide +kernel
  obtain ⟨b, hb⟩ := Option.isSome_iff_exists.mp hok
  have hl := lift_of_lifted? hb
  have hrecords : resultToMemory.records = resultToMemory.records.take 1 ++ sumInPlace :: [] := rfl
  obtain ⟨s, t, opcode, _, hruns, hop, hheld⟩ := outputs_are_held hl hrecords rfl
  obtain rfl : opcode = .binary .intAdd := Option.some.inj (hop.symm.trans (by decide +kernel))
  obtain ⟨l, id, op, v, x, hloc, _, _, hmem, hname, hv, hx, hdefiner, _, hsize, hin⟩ := hheld
  obtain rfl : l = ⟨.ram, 0x1004, 4⟩ := (Except.ok.inj hloc).symm
  exact ⟨b, s, t, id, op, v, x, hl, hruns, hmem, hname, hv, hx, hdefiner, hsize, hin⟩

/-- A store that names a register as its output. -/
def storeInto : CodeUnit :=
  { name := "f", line := 1, records := [
    ⟨2, some (.name "RAX"), "STORE", [.name "ram", .name "RDI", .name "RSI"]⟩] }

/-- No operation defines anything for the register, and nothing is known of it. -/
theorem storeInto_is_ignored :
    ∃ b, ({} : Machine).lift storeInto = .ok () b ∧
      ({} : Machine).location 2 (.name "RAX") = .ok ⟨.register, 0, 8⟩ ∧
      b.graph.operations.map (fun x => (x.2.mnemonic, x.2.output)) = [("STORE", none)] ∧
      b.contents.get? ⟨.register, 0, 8⟩ = none := by
  have hlifted : (({} : Machine).lifted? storeInto).map (fun b =>
      (b.graph.operations.map (fun x => (x.2.mnemonic, x.2.output)),
        b.contents.get? ⟨.register, 0, 8⟩)) = some ([("STORE", none)], none) := by decide +kernel
  obtain ⟨b, hb, heq⟩ := Option.map_eq_some_iff.mp hlifted
  obtain ⟨hcode, hunknown⟩ := Prod.mk.inj heq
  exact ⟨b, lift_of_lifted? hb, rfl, hcode, hunknown⟩

end Machine
end DefUse
