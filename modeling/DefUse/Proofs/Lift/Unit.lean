import DefUse.Proofs.Lift.Simulation

namespace DefUse

theorem Machine.loadedBy_eq_none {m : Machine} {r : Record} {s : Lifting} {opcode : RecordOpcode}
    (h : RecordOpcode.ofMnemonic? r.opcode = some opcode) (hne : opcode ≠ .load) :
    m.loadedBy r s = none := by
  rw [loadedBy, h, if_neg (by simpa using hne)]

namespace Memory

theorem write_of_ne (m : Memory) {space other : Space} (h : other ≠ space) (address : Nat)
    (bytes : List UInt8) : m.write space address bytes other = m other := by
  funext x
  rw [write, if_neg fun hin => h hin.1]

theorem write_congr {m n : Memory} {space : Space} (h : m space = n space) (address : Nat)
    (bytes : List UInt8) :
    m.write space address bytes space = n.write space address bytes space := by
  funext x
  rw [write, write, h]

end Memory

namespace Interpretation

theorem afterCall_of_pure (I : Interpretation) {userop : Userop} (h : userop.isPure = true)
    (args : List (List UInt8)) (memory : Memory) : I.afterCall userop args memory = memory := by
  rw [afterCall, if_pos h]

theorem length_callResult (I : Interpretation) (userop : Userop) (size : Nat)
    (args : List (List UInt8)) (memory : Memory) :
    (I.callResult userop size args memory).length = size := by
  rw [callResult]
  split <;> simp

end Interpretation

namespace Scene
open Lifting Lift Interpretation

variable {S : Scene} {s t : Lifting} {loaded : List ValueId} {d : Direct} {m : Machine} {r : Record}

/-- The record can be run, and the graph keeps step with it. -/
def Follows (S : Scene) (m : Machine) (r : Record) (loaded : List ValueId) (t : Lifting)
    (d : Direct) : Prop :=
  ∃ d', S.opcodes.record m r d = some d' ∧
    S.Simulates (loaded ++ (m.loadedBy r t).toList) t d'

theorem Simulates.follows {opcode : RecordOpcode} {d' : Direct} (h : S.Simulates loaded t d')
    (hop : RecordOpcode.ofMnemonic? r.opcode = some opcode) (hne : opcode ≠ .load)
    (hd : S.opcodes.record m r d = some d') : S.Follows m r loaded t d := by
  refine ⟨d', hd, ?_⟩
  rw [Machine.loadedBy_eq_none hop hne, Option.toList_none, List.append_nil]
  exact h

/-- The unit names the locations of the record. -/
def NamesAll (S : Scene) (m : Machine) (r : Record) : Prop :=
  ∀ o ∈ r.output.toList ++ r.operands, S.Names m r.line o

theorem NamesAll.operand (h : S.NamesAll m r) {o : Operand} (ho : o ∈ r.operands) :
    S.Names m r.line o :=
  h o (List.mem_append_right _ ho)

theorem NamesAll.output (h : S.NamesAll m r) {l : Location}
    (hl : m.outputLocation r.line r.output = .ok l) : l ∈ S.names := by
  obtain ⟨o, ho, hloc, hne⟩ := Machine.outputLocation_eq_ok_iff.mp hl
  refine h o (List.mem_append_left _ ?_) hloc hne
  rw [ho]
  exact List.mem_singleton_self o

theorem mapM_cons_eq_some {α β : Type} {f : α → Option β} {a : α} {as : List α} {x : β}
    {xs : List β} :
    (a :: as).mapM f = some (x :: xs) ↔ f a = some x ∧ as.mapM f = some xs := by
  rw [List.mapM_cons]
  cases f a with
  | none => simp
  | some y => cases as.mapM f <;> simp

/-- Reading the operands and the write-backs before the operation change nothing that the record can
see, and the values stand for what it finds. -/
theorem Simulates.prepare (h : S.Simulates loaded s d) (hn : S.NamesAll m r)
    {operands : List Operand} {values : List ValueId} {ls : List Location} {u : Lifting}
    (hread : ReadsAll m r.line operands s values u) (hin : ∀ o ∈ operands, o ∈ r.operands)
    (hw : WriteBacks ls u t) (hk : S.Knows t.graph) :
    S.Simulates loaded t d ∧
      operands.mapM (S.opcodes.operand m r.line d.memory) = some (values.map (S.run t).env) := by
  obtain ⟨_, h₁⟩ := hread.reaches h.sound
  obtain ⟨_, h₂⟩ := hw.reaches h₁.sound
  obtain ⟨hu, hvalues⟩ := h.readsAll hread (fun o ho => hn.operand (hin o ho)) (hk.of_reaches h₂)
  rw [← map_env_of_grows h₂.grows (hread.live h.sound)] at hvalues
  exact ⟨hu.writeBacks hw, hvalues⟩

section Defining

/-- A record that defines its output and does nothing else. The operation runs where the write-backs
have been made; what it gives is what the location holds in the end. -/
theorem Simulates.defining (h : S.Simulates loaded s d) (hn : S.NamesAll m r)
    (hk : S.Knows t.graph) {operands : List Operand} {values : List ValueId} {u : Lifting}
    {b : Barrier} {l : Location} {op : ValueId → Operation}
    (hread : ReadsAll m r.line operands s values u) (hin : ∀ o ∈ operands, o ∈ r.operands)
    (hl : m.outputLocation r.line r.output = .ok l) (hacts : Acts ⟨b, .define l op, none⟩ u t)
    (hout : ∀ out, (op out).output = some out) (heffects : ∀ out, (op out).hasEffects = false)
    (hevents : ∀ out args memory, (op out).events args memory = []) :
    ∃ s₁ out, S.Simulates loaded s₁ d ∧ (∀ p ∈ s₁.pending, b.covers p = false) ∧
      operands.mapM (S.opcodes.operand m r.line d.memory) = some (values.map (S.run s₁).env) ∧
      width S.kinds out = l.size ∧ t.contents.get? l = some out ∧
      ∀ bytes, S.meaning.result (op out) ((op out).inputs.map (S.run s₁).env) (S.run s₁).memory =
        bytes → bytes.length = l.size → S.Simulates loaded t (d.assign l bytes) := by
  obtain ⟨out, s₁, s₂, hw, he, ha⟩ := hacts.of_define rfl
  obtain ⟨_, h₂⟩ := he.reaches
  obtain ⟨_, h₃⟩ := ha.reaches h₂.sound
  have hk₂ := hk.of_reaches h₃
  obtain ⟨hs₁, hvalues⟩ := h.prepare hn hread hin hw (hk₂.of_reaches h₂)
  refine ⟨s₁, out, hs₁, fun p hp => hw.settles.eq_false_of_pending hp, hvalues,
    width_eq (hk₂.kind he.kind), ?_, ?_⟩
  · obtain ⟨u', _, rfl⟩ := ha.before
    rw [get?_hold, if_pos rfl]
  · intro bytes hvalue hlen
    exact hs₁.defines he ha (hn.output hl) (hout out) (heffects out) (hevents out) hvalue hlen

theorem Simulates.binary (h : S.Simulates loaded s d) (hn : S.NamesAll m r) (hk : S.Knows t.graph)
    {opcode : BinaryOpcode} {a b : Operand} {l : Location} {v w : ValueId} {u : Lifting}
    (hop : RecordOpcode.ofMnemonic? r.opcode = some (.binary opcode)) (hargs : r.operands = [a, b])
    (hl : m.outputLocation r.line r.output = .ok l) (hread : ReadsAll m r.line [a, b] s [v, w] u)
    (hacts : Acts ⟨.none, .define l fun out => .binary opcode out v w, none⟩ u t) :
    S.Follows m r loaded t d := by
  obtain ⟨s₁, out, _, _, hvalues, hsize, _, hdefine⟩ := h.defining hn hk hread (by simp [hargs]) hl
    hacts (fun _ => rfl) (fun _ => rfl) (fun _ _ _ => rfl)
  have ht := hdefine (S.opcodes.binary opcode l.size ((S.run s₁).env v) ((S.run s₁).env w)).toList
    (by rw [← hsize]; rfl) (by simp)
  obtain ⟨hx, hvalues⟩ := mapM_cons_eq_some.mp hvalues
  obtain ⟨hy, _⟩ := mapM_cons_eq_some.mp hvalues
  refine ht.follows hop (by simp) ?_
  simp [Interpretation.record, hop, hargs, hl, hx, hy, Except.toOption]

/-- A record that computes its output from one operand. -/
theorem Simulates.input (h : S.Simulates loaded s d) (hn : S.NamesAll m r) (hk : S.Knows t.graph)
    {a : Operand} {l : Location} {v : ValueId} {u : Lifting} {op : ValueId → Operation}
    {f : (size : Nat) → List UInt8 → Vector UInt8 size} (hargs : r.operands = [a])
    (hl : m.outputLocation r.line r.output = .ok l) (hread : ReadsAll m r.line [a] s [v] u)
    (hacts : Acts ⟨.none, .define l op, none⟩ u t) (hout : ∀ out, (op out).output = some out)
    (heffects : ∀ out, (op out).hasEffects = false)
    (hevents : ∀ out args memory, (op out).events args memory = [])
    (hresult : ∀ out s₁, S.meaning.result (op out) ((op out).inputs.map (S.run s₁).env)
      (S.run s₁).memory = (f (width S.kinds out) ((S.run s₁).env v)).toList) :
    ∃ x, S.opcodes.operand m r.line d.memory a = some x ∧
      S.Simulates loaded t (d.assign l (f l.size x).toList) := by
  obtain ⟨s₁, out, _, _, hvalues, hsize, _, hdefine⟩ :=
    h.defining hn hk hread (by simp [hargs]) hl hacts hout heffects hevents
  obtain ⟨hx, _⟩ := mapM_cons_eq_some.mp hvalues
  refine ⟨_, hx, hdefine _ ?_ (by simp)⟩
  rw [hresult, hsize]

/-- The value of a load record counts among the loaded ones. -/
theorem Simulates.loads_concat (h : S.Simulates loaded s d) {l : Location} {v : ValueId}
    (hv : s.contents.get? l = some v) :
    S.Simulates (loaded ++ [v]) s { d with loads := d.loads ++ [d.memory.contents l] } where
  sound := h.sound
  held := h.held
  agrees := h.agrees
  intact := h.intact
  pending := h.pending
  foreign := h.foreign
  touched := h.touched
  named := h.named
  events := h.events
  live w hw := by
    rcases List.mem_append.mp hw with hw | hw
    · exact h.live w hw
    · rw [List.mem_singleton.mp hw]
      exact h.live_of_held hv
  loads := by rw [List.map_append, h.loads, List.map_singleton, h.held hv]

theorem Simulates.load (h : S.Simulates loaded s d) (hn : S.NamesAll m r) (hk : S.Knows t.graph)
    {a b : Operand} {l : Location} {space : Space} {v : ValueId} {u : Lifting}
    (hop : RecordOpcode.ofMnemonic? r.opcode = some .load) (hargs : r.operands = [a, b])
    (hl : m.outputLocation r.line r.output = .ok l) (hspace : a.memorySpace r.line = .ok space)
    (hread : ReadsAll m r.line [b] s [v] u)
    (hacts : Acts ⟨.within space, .define l fun out => .load out space v, none⟩ u t) :
    S.Follows m r loaded t d := by
  obtain ⟨s₁, out, hs₁, hclear, hvalues, hsize, hheld, hdefine⟩ := h.defining hn hk hread
    (by simp [hargs]) hl hacts (fun _ => rfl) (fun _ => rfl) (fun _ _ _ => rfl)
  -- nothing of the space is pending, so the load finds what is there
  have hsame : (S.run s₁).memory space = d.memory space := by
    funext x
    refine hs₁.agrees (Operand.isObservable_of_memorySpace hspace) fun p hp hc => ?_
    exact of_decide_eq_false (hclear p hp) hc.1
  have hlen := Memory.length_read d.memory space (S.opcodes.address ((S.run s₁).env v)) l.size
  have ht := hdefine (d.memory.read space (S.opcodes.address ((S.run s₁).env v)) l.size)
    (by rw [Memory.read, ← hsame, ← hsize]; rfl) hlen
  obtain ⟨hx, _⟩ := mapM_cons_eq_some.mp hvalues
  have hloaded : m.loadedBy r t = some out := by
    rw [Machine.loadedBy, if_pos hop, hl]
    exact hheld
  unfold Follows
  rw [hloaded]
  refine ⟨_, ?_, ht.loads_concat hheld⟩
  simp [Interpretation.record, hop, hargs, hl, hspace, hx, Except.toOption, Direct.assign,
    Memory.contents_put hlen]

end Defining

section Performing

theorem Simulates.store (h : S.Simulates loaded s d) (hn : S.NamesAll m r) (hk : S.Knows t.graph)
    {a b c : Operand} {space : Space} {v w : ValueId} {u : Lifting}
    (hop : RecordOpcode.ofMnemonic? r.opcode = some .store) (hargs : r.operands = [a, b, c])
    (hspace : a.memorySpace r.line = .ok space) (hread : ReadsAll m r.line [b, c] s [v, w] u)
    (hacts : Acts ⟨.within space, .perform (.store space v w), some space⟩ u t) :
    S.Follows m r loaded t d := by
  obtain ⟨s₁, s₂, hw, ha, rfl⟩ := hacts.of_perform rfl
  obtain ⟨id, h₂⟩ := ha.reaches
  have hk₂ : S.Knows s₂.graph := hk
  obtain ⟨hs₁, hvalues⟩ := h.prepare hn hread (by simp [hargs]) hw (hk₂.of_reaches h₂)
  obtain ⟨hx, hvalues⟩ := mapM_cons_eq_some.mp hvalues
  obtain ⟨hy, _⟩ := mapM_cons_eq_some.mp hvalues
  have hobs := Operand.isObservable_of_memorySpace hspace
  have hclear : ∀ p ∈ s₁.pending, p.space ≠ space := fun p hp =>
    of_decide_eq_false (hw.settles.eq_false_of_pending hp)
  have hsame : (S.run s₁).memory space = d.memory space := by
    funext x
    exact hs₁.agrees hobs fun p hp hc => hclear p hp hc.1
  have hmem : (S.run s₂).memory = (S.run s₁).memory.write space
      (S.opcodes.address ((S.run s₁).env v)) ((S.run s₁).env w) := by
    rw [run_of_grows h₂.grows]
    rfl
  have ht := hs₁.forget ha.alike h₂
    (d.memory.write space (S.opcodes.address ((S.run s₁).env v)) ((S.run s₁).env w)) hobs hclear
    (by rw [hmem, Memory.write_congr hsame])
    (fun other hne => by
      rw [hmem, Memory.write_of_ne _ hne, Memory.write_of_ne _ hne]
      exact ⟨rfl, rfl⟩)
  refine Simulates.follows ht hop (by simp) ?_
  simp [Interpretation.record, hop, hargs, hspace, hx, hy, Except.toOption, Direct.see,
    Operation.events, Operation.inputs]

/-- An operation after all write-backs sees what the record sees. -/
theorem Simulates.barrier (h : S.Simulates loaded s d) (hn : S.NamesAll m r)
    (hk : S.Knows t.graph) {operands : List Operand} {values : List ValueId} {u : Lifting}
    {op : Operation} (hread : ReadsAll m r.line operands s values u)
    (hin : ∀ o ∈ operands, o ∈ r.operands) (hacts : Acts ⟨.all, .perform op, none⟩ u t)
    (hmem : ∀ args memory, S.meaning.memoryAfter op args memory = memory) :
    ∃ env : ValueId → List UInt8, ∃ memory : Memory, memory.observed = d.memory.observed ∧
      operands.mapM (S.opcodes.operand m r.line d.memory) = some (values.map env) ∧
      S.Simulates loaded t
        { d with events := d.events ++ op.events (op.inputs.map env) memory } := by
  obtain ⟨s₁, _, hw, ha, rfl⟩ := hacts.of_perform rfl
  obtain ⟨id, h₂⟩ := ha.reaches
  obtain ⟨hs₁, hvalues⟩ := h.prepare hn hread hin hw (hk.of_reaches h₂)
  have hnone : s₁.pending = [] := hw.pending_eq_nil_of_all
  exact ⟨_, _, hs₁.observed hnone, hvalues, hs₁.grow_one ha.alike h₂ (hmem ..)⟩

theorem Simulates.branch (h : S.Simulates loaded s d) (hn : S.NamesAll m r) (hk : S.Knows t.graph)
    {a : Operand} {target : UInt64} {u : Lifting}
    (hop : RecordOpcode.ofMnemonic? r.opcode = some .branch) (hargs : r.operands = [a])
    (htarget : a.branchTarget r.line = .ok target) (hread : ReadsAll m r.line [] s [] u)
    (hacts : Acts ⟨.all, .perform (.branch target), none⟩ u t) : S.Follows m r loaded t d := by
  obtain ⟨env, memory, hobs, _, ht⟩ := h.barrier hn hk hread (by simp) hacts (fun _ _ => rfl)
  refine ht.follows hop (by simp) ?_
  simp [Interpretation.record, hop, hargs, htarget, Except.toOption, Direct.see, Operation.events,
    hobs]

theorem Simulates.cbranch (h : S.Simulates loaded s d) (hn : S.NamesAll m r) (hk : S.Knows t.graph)
    {a b : Operand} {target : UInt64} {v : ValueId} {u : Lifting}
    (hop : RecordOpcode.ofMnemonic? r.opcode = some .cbranch) (hargs : r.operands = [a, b])
    (htarget : a.branchTarget r.line = .ok target) (hread : ReadsAll m r.line [b] s [v] u)
    (hacts : Acts ⟨.all, .perform (.cbranch target v), none⟩ u t) : S.Follows m r loaded t d := by
  obtain ⟨env, memory, hobs, hvalues, ht⟩ :=
    h.barrier hn hk hread (by simp [hargs]) hacts (fun _ _ => rfl)
  obtain ⟨hx, _⟩ := mapM_cons_eq_some.mp hvalues
  refine ht.follows hop (by simp) ?_
  simp [Interpretation.record, hop, hargs, htarget, hx, Except.toOption, Direct.see,
    Operation.events, Operation.inputs, hobs]

theorem Simulates.branchInd (h : S.Simulates loaded s d) (hn : S.NamesAll m r)
    (hk : S.Knows t.graph) {a : Operand} {v : ValueId} {u : Lifting}
    (hop : RecordOpcode.ofMnemonic? r.opcode = some .branchInd) (hargs : r.operands = [a])
    (hread : ReadsAll m r.line [a] s [v] u)
    (hacts : Acts ⟨.all, .perform (.branchInd v), none⟩ u t) : S.Follows m r loaded t d := by
  obtain ⟨env, memory, hobs, hvalues, ht⟩ :=
    h.barrier hn hk hread (by simp [hargs]) hacts (fun _ _ => rfl)
  obtain ⟨hx, _⟩ := mapM_cons_eq_some.mp hvalues
  refine ht.follows hop (by simp) ?_
  simp [Interpretation.record, hop, hargs, hx, Direct.see, Operation.events, Operation.inputs, hobs]

end Performing

section Calls
variable {userop : Userop} {values : List ValueId} {state : Snapshot} {types : List Behavior}
  {effect : Effect} {u : Lifting}

/-- The arguments of a call are what the record finds, and an impure one sees what it sees. -/
theorem Simulates.arguments (h : S.Simulates loaded s d) (hn : S.NamesAll m r)
    (hk : S.Knows t.graph) {name : String} {args : List Operand}
    (hargs : r.operands = .userop name :: args) (hread : ReadsAll m r.line args s values u)
    (hw : WriteBacks (u.pending.filter (callAction userop effect).barrier.covers) u t) :
    S.Simulates loaded t d ∧
      args.mapM (S.opcodes.operand m r.line d.memory) = some (values.map (S.run t).env) ∧
      (userop.isPure = false → t.pending = []) := by
  obtain ⟨ht, hvalues⟩ := h.prepare hn hread
    (fun o ho => by rw [hargs]; exact List.mem_cons_of_mem _ ho) hw hk
  refine ⟨ht, hvalues, fun himpure => ?_⟩
  rw [callAction, if_neg (by simp [himpure])] at hw
  exact hw.pending_eq_nil_of_all

/-- The operation of a call does to memory what the record does. -/
theorem Simulates.calls (h : S.Simulates loaded s d) (ha : s.Alike t) {id : OpId}
    {out : Option ValueId} (hr : s.Reaches t [(id, .call userop out values types state)])
    (hp : userop.isPure = false → s.pending = []) :
    S.Simulates loaded ((callAction userop effect).after t)
      { d.see (userop.event (values.map (S.run s).env) d.memory) with
        memory := S.opcodes.afterCall userop (values.map (S.run s).env) d.memory } := by
  cases hpure : userop.isPure with
  | true =>
    have ht := h.grow_one ha hr (by simp [Meaning.memoryAfter, Operation.hasEffects, hpure])
    rw [callAction, if_pos hpure, S.opcodes.afterCall_of_pure hpure]
    simpa [Action.after, Operation.events, Operation.inputs, Userop.event, hpure, Direct.see] using ht
  | false =>
    have hsame := h.observed (hp hpure)
    have hmem : (S.run t).memory = Function.update (S.run s).memory .ram
        (S.opcodes.effect userop (values.map (S.run s).env) d.memory.observed) := by
      rw [run_of_grows hr.grows, ← hsame]
      cases out <;>
        simp [Meaning.run, Meaning.step, Meaning.memoryAfter, Operation.hasEffects, hpure,
          Operation.inputs, Scene.meaning, Interpretation.meaning, Interpretation.afterCall]
    have hram : Space.ram.isObservable = true := rfl
    have ht := h.forget ha hr
      (Function.update d.memory .ram
        (S.opcodes.effect userop (values.map (S.run s).env) d.memory.observed)) hram
      (by simp [hp hpure]) (by simp [hmem])
      (fun other hne => by simp [hmem, Function.update_of_ne hne])
    rw [callAction, Interpretation.afterCall, if_neg (by simp [hpure]), if_neg (by simp [hpure])]
    simpa [Action.after, Operation.events, Operation.inputs, Userop.event, hpure, Direct.see,
      hsame] using ht

theorem Simulates.call (h : S.Simulates loaded s d) (hn : S.NamesAll m r) (hk : S.Knows t.graph)
    {name : String} {args : List Operand}
    (hop : RecordOpcode.ofMnemonic? r.opcode = some .callOther)
    (hargs : r.operands = .userop name :: args) (huserop : m.userops.get? name = some userop)
    (hout : r.output = none) (hread : ReadsAll m r.line args s values u)
    (hacts : Acts (callAction userop (.perform (.call userop none values types state))) u t) :
    S.Follows m r loaded t d := by
  obtain ⟨s₁, s₂, hw, ha, rfl⟩ := hacts.of_perform (effect_callAction ..)
  obtain ⟨id, hr⟩ := ha.reaches
  rw [graph_after] at hk
  obtain ⟨hs₁, hvalues, hp⟩ := h.arguments hn (hk.of_reaches hr) hargs hread hw
  refine (hs₁.calls ha.alike hr hp).follows hop (by simp) ?_
  simp [Interpretation.record, hop, hargs, huserop, hvalues, Interpretation.call, hout]

theorem Simulates.callInto (h : S.Simulates loaded s d) (hn : S.NamesAll m r)
    (hk : S.Knows t.graph) {name : String} {args : List Operand} {l : Location}
    (hop : RecordOpcode.ofMnemonic? r.opcode = some .callOther)
    (hargs : r.operands = .userop name :: args) (huserop : m.userops.get? name = some userop)
    (hl : m.outputLocation r.line r.output = .ok l) (hread : ReadsAll m r.line args s values u)
    (hsuits : Suits m r values (callAction userop (.define l fun out =>
      .call userop (some out) values types state)))
    (hacts : Acts (callAction userop (.define l fun out =>
      .call userop (some out) values types state)) u t) : S.Follows m r loaded t d := by
  obtain ⟨out, s₁, s₂, hw, he, ha⟩ := hacts.of_define (effect_callAction ..)
  obtain ⟨id, hr⟩ := he.reaches
  have hsound := sound_after hr.sound (hsuits.clear hw.settles he.alike.pending)
  obtain ⟨_, hassign⟩ := ha.reaches hsound
  have hk₂ := hk.of_reaches hassign
  rw [graph_after] at hk₂
  obtain ⟨hs₁, hvalues, hp⟩ := h.arguments hn (hk₂.of_reaches hr) hargs hread hw
  have hresult : (S.run s₂).env out =
      S.opcodes.callResult userop l.size (values.map (S.run s₁).env) d.memory := by
    rw [env_emits he rfl, ← width_eq (hk₂.kind he.kind), callResult]
    cases hpure : userop.isPure with
    | true =>
      simp [Meaning.result, Operation.hasEffects, Operation.isOrdered, hpure, Operation.inputs,
        Scene.meaning, Interpretation.meaning]
    | false =>
      simp [Meaning.result, Operation.hasEffects, hpure, Operation.inputs,
        Scene.meaning, Interpretation.meaning, hs₁.observed (hp hpure)]
  have ht := (hs₁.calls he.alike hr hp).assigns ha (hn.output hl)
    (by rw [graph_after, he.kind]; rfl) (by rw [run, graph_after]; exact hresult)
    (S.opcodes.length_callResult ..)
  refine ht.follows hop (by simp) ?_
  obtain ⟨o, ho, _, _⟩ := Machine.outputLocation_eq_ok_iff.mp hl
  rw [ho] at hl
  simp [Interpretation.record, hop, hargs, huserop, hvalues, Interpretation.call, ho, hl,
    Except.toOption]

end Calls

/-- Lifting a record keeps the graph in step. -/
theorem Simulates.record (h : S.Simulates loaded s d) (hl : Lifts m r s t) (hn : S.NamesAll m r)
    (hk : S.Knows t.graph) : S.Follows m r loaded t d := by
  obtain ⟨hread, hasks, hacts⟩ := hl
  have hsuits := hasks.suits
  cases hasks with
  | binary hop hargs hout => exact h.binary hn hk hop hargs hout hread hacts
  | unary hop hargs hout =>
    obtain ⟨x, hx, ht⟩ := h.input hn hk hargs hout hread hacts (fun _ => rfl) (fun _ => rfl)
      (fun _ _ _ => rfl) (fun _ _ => rfl)
    refine ht.follows hop (by simp) ?_
    simp [Interpretation.record, hop, hargs, hout, hx, Except.toOption]
  | copy hop hargs hout =>
    obtain ⟨x, hx, ht⟩ := h.input hn hk hargs hout hread hacts (fun _ => rfl) (fun _ => rfl)
      (fun _ _ _ => rfl) (fun _ _ => rfl)
    refine ht.follows hop (by simp) ?_
    simp [Interpretation.record, hop, hargs, hout, hx, Except.toOption]
  | load hop hargs hout hspace => exact h.load hn hk hop hargs hout hspace hread hacts
  | store hop hargs hspace => exact h.store hn hk hop hargs hspace hread hacts
  | branch hop hargs htarget => exact h.branch hn hk hop hargs htarget hread hacts
  | cbranch hop hargs htarget => exact h.cbranch hn hk hop hargs htarget hread hacts
  | branchInd hop hargs => exact h.branchInd hn hk hop hargs hread hacts
  | call hop hargs huserop _ hout => exact h.call hn hk hop hargs huserop hout hread hacts
  | callInto hop hargs huserop _ hout =>
    exact h.callInto hn hk hop hargs huserop hout hread hsuits hacts

/-- What one record keeps, all records keep. -/
theorem Simulates.records {rs : List Record} (hl : LiftsAll m rs s t) (h : S.Simulates loaded s d)
    (hn : ∀ r ∈ rs, S.NamesAll m r) (hk : S.Knows t.graph) :
    ∃ d', S.opcodes.records m rs d = some d' ∧ S.Simulates (loaded ++ m.loaded rs s) t d' := by
  induction hl generalizing loaded d with
  | nil => exact ⟨d, rfl, by rwa [Machine.loaded, List.append_nil]⟩
  | cons runs first others ih =>
    obtain ⟨_, h₁⟩ := first.reaches h.sound
    obtain ⟨_, h₂⟩ := others.reaches h₁.sound
    obtain ⟨d₁, hd₁, hs₁⟩ := h.record first (hn _ List.mem_cons_self) (hk.of_reaches h₂)
    obtain ⟨d₂, hd₂, hs₂⟩ := ih hs₁ (fun r hr => hn r (List.mem_cons_of_mem _ hr)) hk
    refine ⟨d₂, ?_, ?_⟩
    · rw [Interpretation.records, List.foldlM_cons, hd₁]
      exact hd₂
    · rw [Machine.loaded, runs]
      rwa [List.append_assoc] at hs₂

theorem simulates_empty (S : Scene) : S.Simulates [] {} { memory := S.entry } where
  sound := sound_empty
  held h := by cases h
  agrees _ _ := rfl
  intact _ _ := rfl
  pending h := by cases h
  foreign h := by cases h
  touched h := by cases h
  named h := by cases h
  events := rfl
  live _ h := by cases h
  loads := rfl

end Scene

namespace Machine
variable {m : Machine} {u : CodeUnit}

theorem mem_named {r : Record} (hr : r ∈ u.records) {o : Operand}
    (ho : o ∈ r.output.toList ++ r.operands) {l : Location} (hl : m.location r.line o = .ok l)
    (hne : l.space ≠ .const) : l ∈ m.named u := by
  refine List.mem_flatMap.mpr ⟨r, hr, List.mem_filterMap.mpr ⟨o, ho, ?_⟩⟩
  simp [hl, Except.toOption, hne]

theorem Separates.overlaps (h : m.Separates u) {a b : Location} (ha : a ∈ m.named u)
    (hb : b ∈ m.named u) (hne : a ≠ b) {space : Space} {x : Nat} (hax : a.Covers space x)
    (hbx : b.Covers space x) : a.overlaps b = true := by
  obtain ⟨y, hy, hay, hby⟩ := h a ha b hb hne space x hax hbx
  exact Location.overlaps_of_covers hy hay hby

/-- Locations that end before the last address are no obstacle. -/
theorem separates_of_lt (h : ∀ l ∈ m.named u, l.offset.toNat + l.size < UInt64.size) :
    m.Separates u := by
  intro a ha b _ _ space x hax hbx
  have hend := h a ha
  have hlt := hax.2.2
  exact ⟨x, by omega, hax, hbx⟩

/-- The graph of a unit shows what its records show: the same branches, calls and stores on the same
operands and with the same registers and memory, the same loads, and the same registers and memory
at the end. -/
theorem lift_keeps_meaning (m : Machine) (u : CodeUnit) {b : Lifting} (hl : m.lift u = .ok () b)
    (hu : m.Separates u) (I : Interpretation) (entry : Memory) :
    ∃ d, I.records m u.records { memory := entry } = some d ∧
      I.traceGraph b.graph entry = d.events ∧
      (I.runGraph b.graph entry).memory.observed = d.memory.observed ∧
      (m.loaded u.records {}).map (I.runGraph b.graph entry).env = d.loads := by
  obtain ⟨s, hrecords, hw⟩ := lifts_of_lift hl
  obtain ⟨_, h₁⟩ := hrecords.reaches Lifting.sound_empty
  obtain ⟨_, h₂⟩ := hw.reaches h₁.sound
  let S : Scene :=
    { opcodes := I
      kinds := b.graph.kind?
      entry := entry
      names := m.named u
      separated := fun a ha c hc hne space x hax hcx => hu.overlaps ha hc hne hax hcx }
  have hknows : S.Knows b.graph := ⟨id⟩
  have hnames : ∀ r ∈ u.records, S.NamesAll m r := fun r hr o ho l hloc hne =>
    mem_named hr ho hloc hne
  obtain ⟨d, hd, hs⟩ :=
    S.simulates_empty.records hrecords hnames (hknows.of_reaches h₂)
  have hb := hs.writeBacks hw
  have hcode := h₂.sound.graph.operations_eq
  refine ⟨d, hd, ?_, ?_, ?_⟩
  · rw [Interpretation.traceGraph, hcode]
    exact hb.events
  · rw [Interpretation.runGraph, hcode]
    exact hb.observed hw.pending_eq_nil
  · rw [Interpretation.runGraph, hcode]
    exact hb.loads

/-- Little-endian words; every operation passes on the bytes of its first operand. -/
def copying : Interpretation where
  constant word size := .ofFn fun i => UInt8.ofNat (word.toNat >>> (8 * i.val))
  address bytes := bytes.foldr (fun byte rest => byte.toNat + 256 * rest) 0
  copy size x := .ofFn fun i => x.getD i 0
  unary _ size x := .ofFn fun i => x.getD i 0
  binary _ size x _ := .ofFn fun i => x.getD i 0
  answer _ size args := .ofFn fun i => (args.headD []).getD i 0
  result _ size args _ := .ofFn fun i => (args.headD []).getD i 0
  effect _ _ seen := seen.ram
  address_constant word := by
    have hlt := word.toNat_lt
    simp only [Nat.shiftRight_eq_div_pow, Vector.toList_ofFn, List.ofFn_succ, Fin.isValue,
      Fin.coe_ofNat_eq_mod, Nat.zero_mod, Nat.mul_zero, Nat.pow_zero, Nat.div_one,
      UInt8.ofNat_uInt64ToNat, Fin.val_succ, Nat.zero_add, Nat.mul_one, Nat.reducePow, Nat.reduceAdd,
      Nat.reduceMul, Fin.val_eq_zero, List.ofFn_zero, List.foldr_cons, UInt64.toNat_toUInt8,
      UInt8.toNat_ofNat', List.foldr_nil, Nat.add_zero]
    omega

/-- A load, a write over part of what it gave, a store, a read of memory after it, an impure call
and a branch on its result. -/
def exchange : CodeUnit :=
  { name := "f", line := 1, records := [
    ⟨2, some (.name "RAX"), "LOAD", [.name "ram", .name "RDI"]⟩,
    ⟨3, some (.varnode "register" 0 1), "COPY", [.varnode "const" 7 1]⟩,
    ⟨4, none, "STORE", [.name "ram", .name "RDI", .name "RSI"]⟩,
    ⟨5, some (.name "RBX"), "COPY", [.varnode "ram" 0x1000 8]⟩,
    ⟨6, some (.name "RCX"), "CALLOTHER", [.userop "syscall", .name "RBX"]⟩,
    ⟨7, none, "CBRANCH", [.address 0x20, .name "RCX"]⟩] }

theorem exchange_keeps_meaning :
    ({} : Machine).Separates exchange ∧ ∃ b, ({} : Machine).lift exchange = .ok () b ∧
      ∃ d, copying.records {} exchange.records { memory := fun _ _ => 0 } = some d ∧
        copying.traceGraph b.graph (fun _ _ => 0) = d.events ∧
        (copying.runGraph b.graph fun _ _ => 0).memory.observed = d.memory.observed ∧
        (({} : Machine).loaded exchange.records {}).map
          (copying.runGraph b.graph fun _ _ => 0).env = d.loads := by
  have hu : ({} : Machine).Separates exchange := separates_of_lt (by decide +kernel)
  have hok : (({} : Machine).lifted? exchange).isSome = true := by decide +kernel
  obtain ⟨b, hb⟩ := Option.isSome_iff_exists.mp hok
  have hl := lift_of_lifted? hb
  exact ⟨hu, b, hl, lift_keeps_meaning {} exchange hl hu copying fun _ _ => 0⟩

/-- Two writes that share the last byte of the registers, and a read of the first. -/
def lastByte : CodeUnit :=
  { name := "f", line := 1, records := [
    ⟨2, some (.varnode "register" 0xfffffffffffffff8 8), "COPY", [.varnode "const" 1 8]⟩,
    ⟨3, some (.varnode "register" 0xffffffffffffffff 1), "COPY", [.varnode "const" 2 1]⟩,
    ⟨4, some (.name "RAX"), "COPY", [.varnode "register" 0xfffffffffffffff8 8]⟩] }

/-- The second write is not told to overlap the first, so the read gives what stood before it. -/
theorem lastByte_loses_meaning :
    (∀ l ∈ ({} : Machine).named lastByte, l.offset.toNat + l.size ≤ UInt64.size) ∧
      ∃ b d, ({} : Machine).lift lastByte = .ok () b ∧
        copying.records {} lastByte.records { memory := fun _ _ => 0 } = some d ∧
        (copying.runGraph b.graph fun _ _ => 0).memory.observed ≠ d.memory.observed := by
  have hgraph : (({} : Machine).lifted? lastByte).map
      (fun b => (copying.runGraph b.graph fun _ _ => 0).memory .register 7) = some 0 := by
    decide +kernel
  have hdirect : (copying.records {} lastByte.records { memory := fun _ _ => 0 }).map
      (fun d => d.memory .register 7) = some 2 := by decide +kernel
  obtain ⟨b, hb, hstale⟩ := Option.map_eq_some_iff.mp hgraph
  obtain ⟨d, hd, hfresh⟩ := Option.map_eq_some_iff.mp hdirect
  refine ⟨by decide +kernel, b, d, lift_of_lifted? hb, hd, fun heq => ?_⟩
  have hsame : (copying.runGraph b.graph fun _ _ => 0).memory .register 7 =
      d.memory .register 7 := congrFun (congrArg Observed.register heq) 7
  rw [hstale, hfresh] at hsame
  exact absurd hsame (by decide)

end Machine
end DefUse
