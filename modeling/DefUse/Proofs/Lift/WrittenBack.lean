import DefUse.Proofs.Lift.Pending
import DefUse.Proofs.Lift.Simulation

namespace DefUse

namespace Machine

/-- The write of the output of a record. -/
def writes (m : Machine) (r : Record) : List Mark :=
  match m.outputLocation r.line r.output with
  | .ok l => [.write l]
  | .error _ => []

/-- The space that a load or store names. -/
def accesses (r : Record) : List Mark :=
  match r.operands.head?.bind Operand.memorySpace? with
  | some space => [.access space]
  | none => []

def callsImpure (m : Machine) (r : Record) : Bool :=
  match r.operands with
  | .userop name :: _ => (m.userops.get? name).any fun userop => !userop.isPure
  | _ => false

/-- What a record means for pending writes; what it asks for comes before what it writes. -/
def marks (m : Machine) (r : Record) : List Mark :=
  match RecordOpcode.ofMnemonic? r.opcode with
  | some (.binary _) | some (.unary _) | some .copy => m.writes r
  | some .load => accesses r ++ m.writes r
  | some .store => accesses r
  | some .branch | some .cbranch | some .branchInd => [.barrier]
  | some .callOther => if m.callsImpure r then .barrier :: m.writes r else m.writes r
  | none => []

/-- The last of some operations that bears a name. -/
def lastNamed? (name : String) (code : List (OpId × Operation)) : Option (OpId × Operation) :=
  code.reverse.find? (·.2.mnemonic = name)

/-- The marks of a record with its own operation, the last that it adds under its name. -/
def moments (m : Machine) (r : Record) (added : List (OpId × Operation)) : List Moment :=
  match lastNamed? r.opcode added with
  | some (id, op) => (m.marks r).map fun mark => ⟨mark, id, op⟩
  | none => []

/-- The moments of records that are lifted one after the other. -/
def timeline (m : Machine) : List Record → Lifting → List Moment
  | [], _ => []
  | r :: rest, s =>
    match Lift.record m r s with
    | .ok _ t =>
      m.moments r (t.graph.operations.drop s.graph.operations.length) ++ m.timeline rest t
    | .error _ _ => []

end Machine

namespace Lift
open Lifting

/-- From `s` to `t` one operation is added under the name of its record, and the marks stand
there. -/
structure MarkedRun (name : String) (marks : List Mark) (s t : Lifting) : Prop where
  run : ∃ id op new, Machine.lastNamed? name new = some (id, op) ∧
    MomentRun (marks.map fun mark => ⟨mark, id, op⟩) s t new ∧
    ∀ l, .write l ∈ marks → ∃ v, op.output = some v
  proper : t.Proper

section MarkedRuns
variable {name : String} {marks : List Mark} {s t u : Lifting}

theorem lastNamed?_append {code more : List (OpId × Operation)} {x : OpId × Operation}
    (h : Machine.lastNamed? name more = some x) : Machine.lastNamed? name (code ++ more) = some x := by
  unfold Machine.lastNamed? at h ⊢
  rw [List.reverse_append, List.find?_append, h]
  rfl

theorem lastNamed?_cons {x : OpId × Operation} {more : List (OpId × Operation)}
    (hx : x.2.mnemonic = name) (hmore : ∀ y ∈ more, y.2.mnemonic ≠ name) :
    Machine.lastNamed? name (x :: more) = some x := by
  unfold Machine.lastNamed?
  have hnone : more.reverse.find? (fun y => decide (y.2.mnemonic = name)) = none := by
    rw [List.find?_eq_none]
    intro y hy
    simpa using hmore y (List.mem_reverse.mp hy)
  rw [List.reverse_cons, List.find?_append, hnone]
  simp [hx]

theorem MarkedRun.of_quiet {quietly : List (OpId × Operation)} (hq : Quiet s t quietly)
    (h : MarkedRun name marks t u) : MarkedRun name marks s u := by
  obtain ⟨id, op, new, hlast, hrun, hout⟩ := h.run
  exact ⟨⟨id, op, quietly ++ new, lastNamed?_append hlast, hq.momentRun hrun, hout⟩, h.proper⟩

/-- Write-backs ahead of the operation. -/
theorem MarkedRun.settle {f : Location → Bool} {mark : Mark}
    (hw : WriteBacks (s.pending.filter f) s t) (hs : s.Proper) (hends : ∀ p, mark.ends p = f p)
    (hmark : ∀ l, mark ≠ .write l) (h : t.Proper → MarkedRun name marks t u) :
    MarkedRun name (mark :: marks) s u := by
  obtain ⟨_, hreach, _⟩ := hw.written hs.sound
  have hrest := h (proper_of_settles hs hw.settles hreach.sound)
  obtain ⟨id, op, new, hlast, hrun, hout⟩ := hrest.run
  have hown : (id, op) ∈ new := List.mem_reverse.mp (List.mem_of_find?_eq_some hlast)
  obtain ⟨now, hstep, _⟩ := hw.momentStep (x := ⟨mark, id, op⟩) hs hends hmark
    fun y hy => index_lt_of_reaches hrun.reaches hy hown
  refine ⟨⟨id, op, [] ++ (now ++ new), lastNamed?_append (lastNamed?_append hlast),
    .cons (.refl hs.sound) hstep hrun, ?_⟩, hrest.proper⟩
  intro l hl
  exact hout l ((List.mem_cons.mp hl).resolve_left (hmark l).symm)

theorem MarkedRun.then_quiet (h : MarkedRun name marks s t) (hq : Quiet t u []) :
    MarkedRun name marks s u := by
  obtain ⟨id, op, new, hlast, hrun, hout⟩ := h.run
  have hrun' := hrun.append (.nil hq)
  rw [List.append_nil, List.append_nil] at hrun'
  exact ⟨⟨id, op, new, hlast, hrun', hout⟩, hq.proper h.proper⟩

theorem Appends.markedRun {op : Operation} (h : Appends op s t) (hs : s.Proper)
    (hop : op.writeback? = none) : MarkedRun op.mnemonic [] s t := by
  obtain ⟨id, hq⟩ := h.quiet hop
  have hlast : Machine.lastNamed? op.mnemonic [(id, op)] = some (id, op) :=
    lastNamed?_cons rfl (List.forall_mem_nil _)
  exact ⟨⟨id, op, [(id, op)], hlast, .nil hq, fun _ h => absurd h List.not_mem_nil⟩, hq.proper hs⟩

/-- An operation with an output, and the write of the output. -/
theorem Emits.markedRun {l : Location} {op : ValueId → Operation} {out : ValueId} {s₁ s₂ : Lifting}
    (h : Emits l.size op s out s₁) (hs : s.Proper) (hafter : Quiet s₁ s₂ [])
    (hassign : Assigns l out s₂ t) (hop : (op out).writeback? = none)
    (hout : (op out).output = some out) (hname : (op out).mnemonic ≠ "WRITEBACK") :
    MarkedRun (op out).mnemonic [.write l] s t := by
  obtain ⟨id, hemit⟩ := h.quiet hop
  have hquiet := hemit.trans hafter
  -- the operation is the last one so far
  have hlatest : ∀ y ∈ s₂.graph.linkedOps, y.1.index ≤ id.index := by
    intro y hy
    rw [hquiet.reaches.grows.code, List.mem_append] at hy
    rcases hy with hy | hy
    · exact Nat.le_of_lt (index_lt_of_reaches hquiet.reaches hy List.mem_cons_self)
    · rw [List.mem_singleton.mp hy]
  obtain ⟨now, hstep, hproper, hnames⟩ := hassign.momentStep (x := ⟨.write l, id, op out⟩)
    (hquiet.proper hs) rfl hout hlatest
  refine ⟨⟨id, op out, _, ?_, .cons hquiet hstep (.nil (.refl hproper.sound)), ?_⟩, hproper⟩
  · refine lastNamed?_cons rfl ?_
    intro y hy
    rw [List.append_nil] at hy
    rw [hnames y hy]
    exact hname.symm
  · exact fun _ _ => ⟨out, hout⟩

end MarkedRuns

/-- The mark of the write-backs before an operation. -/
def Barrier.marks : Barrier → List Mark
  | none => []
  | within space => [.access space]
  | all => [.barrier]

/-- The mark of the write after an operation. -/
def Effect.marks : Effect → List Mark
  | perform _ => []
  | define l _ => [.write l]

section Records
variable {m : Machine} {r : Record} {s t : Lifting}

theorem writes_of_output {l : Location} (h : m.outputLocation r.line r.output = .ok l) :
    m.writes r = [.write l] := by
  simp only [Machine.writes, h]

theorem accesses_of_operands {a : Operand} {rest : List Operand} {space : Space}
    (hargs : r.operands = a :: rest) (hspace : a.memorySpace r.line = .ok space) :
    Machine.accesses r = [.access space] := by
  have hnamed : a.memorySpace? = some space := by
    unfold Operand.memorySpace at hspace
    split at hspace
    next found hfound => exact Except.ok.inj hspace ▸ hfound
    next => cases hspace
  simp only [Machine.accesses, hargs, List.head?_cons, Option.bind_some, hnamed]

theorem marks_of_call {name : String} {args : List Operand} {userop : Userop}
    (hopcode : RecordOpcode.ofMnemonic? r.opcode = some .callOther)
    (hargs : r.operands = .userop name :: args) (huserop : m.userops.get? name = some userop)
    (effect : Effect) :
    m.marks r = (callAction userop effect).barrier.marks ++ m.writes r := by
  simp only [Machine.marks, hopcode, Machine.callsImpure, hargs, huserop, Option.any_some, callAction]
  cases userop.isPure <;> rfl

/-- The marks of a record are those of what it asks for. -/
theorem Asks.marks_eq {operands : List Operand} {values : List ValueId} {state : Snapshot}
    {a : Action} (h : Asks m r operands values state a) :
    m.marks r = a.barrier.marks ++ a.effect.marks := by
  cases h with
  | binary opcode_eq _ output | unary opcode_eq _ output | copy opcode_eq _ output =>
    rw [Machine.marks, opcode_eq, writes_of_output output]
    rfl
  | load opcode_eq operands output space_eq =>
    rw [Machine.marks, opcode_eq, writes_of_output output, accesses_of_operands operands space_eq]
    rfl
  | store opcode_eq operands space_eq =>
    rw [Machine.marks, opcode_eq, accesses_of_operands operands space_eq]
    rfl
  | branch opcode_eq | cbranch opcode_eq | branchInd opcode_eq =>
    rw [Machine.marks, opcode_eq]
    rfl
  | call opcode_eq operands userop_eq _ output =>
    have hnone : m.writes r = [] := by
      simp only [Machine.writes, output, Machine.outputLocation]
    rw [effect_callAction, marks_of_call opcode_eq operands userop_eq, hnone]
    rfl
  | callInto opcode_eq operands userop_eq _ output =>
    rw [effect_callAction, marks_of_call opcode_eq operands userop_eq, writes_of_output output]
    rfl

/-- The write-backs before an operation stand at its mark. -/
theorem MarkedRun.barrier {name : String} {marks : List Mark} {u : Lifting} (b : Barrier)
    (hw : WriteBacks (s.pending.filter b.covers) s t) (hs : s.Proper)
    (h : t.Proper → MarkedRun name marks t u) : MarkedRun name (b.marks ++ marks) s u := by
  cases b with
  | none =>
    rw [Barrier.filter_covers_none] at hw
    cases hw
    exact h hs
  | within space =>
    exact .settle hw hs (fun p => by simp [Mark.ends, Barrier.covers, eq_comm]) (by simp) h
  | all => exact .settle hw hs (fun _ => rfl) (by simp) h

theorem quiet_after {a : Action} (hs : s.Sound)
    (hclear : ∀ {space}, a.forgets = some space → ∀ p ∈ s.pending, p.space ≠ space) :
    Quiet s (a.after s) [] := by
  unfold Action.after
  cases hspace : a.forgets with
  | none => exact .refl hs
  | some space => exact quiet_forget hs (hclear hspace)

/-- An action adds one operation under the name of its record, and its marks stand there. -/
theorem Acts.markedRun {a : Action} {values : List ValueId} (h : Acts a s t)
    (ha : Suits m r values a) (hs : s.Proper) :
    MarkedRun r.opcode (a.barrier.marks ++ a.effect.marks) s t := by
  cases h with
  | perform effect settled appends after =>
    have hop := (ha.perform effect).2
    rw [effect, after, ← hop.mnemonic_eq]
    refine .barrier a.barrier settled hs fun hs₁ => ?_
    have hmarked := appends.markedRun hs₁ hop.other
    exact hmarked.then_quiet
      (quiet_after hmarked.proper.sound (ha.clear settled.settles appends.alike.pending))
  | @define _ _ out _ _ effect settled emits assigns =>
    obtain ⟨hout, hop⟩ := (ha.define effect).2 out
    obtain ⟨_, hreach⟩ := emits.reaches
    have hname := hop.opcode_ne_writeback
    rw [← hop.mnemonic_eq] at hname
    rw [effect, ← hop.mnemonic_eq]
    refine .barrier a.barrier settled hs fun hs₁ => ?_
    have hquiet := quiet_after hreach.sound (ha.clear settled.settles emits.alike.pending)
    exact emits.markedRun hs₁ hquiet assigns hop.other hout hname

/-- A record adds one operation under its name, and its marks stand there. -/
theorem Lifts.markedRun (h : Lifts m r s t) (hs : s.Proper) :
    MarkedRun r.opcode (m.marks r) s t := by
  obtain ⟨reads, asks, acts⟩ := h
  obtain ⟨_, hquiet⟩ := reads.quiet hs.sound
  rw [asks.marks_eq]
  exact .of_quiet hquiet (acts.markedRun asks.suits (hquiet.proper hs))

theorem drop_operations_of_reaches {new : List (OpId × Operation)} (hs : s.Sound)
    (h : s.Reaches t new) : t.graph.operations.drop s.graph.operations.length = new := by
  rw [h.sound.graph.operations_eq, hs.graph.operations_eq, h.grows.code, List.drop_left]

/-- A write is the last mark of its record. -/
theorem pairwise_marks (m : Machine) (r : Record) :
    (m.marks r).Pairwise fun a _ => ∀ l, a ≠ .write l := by
  have hwrites : (m.writes r).Pairwise fun a _ => ∀ l, a ≠ .write l := by
    unfold Machine.writes
    split
    next => exact List.pairwise_singleton _ _
    next => exact List.Pairwise.nil
  have hasks {asks : List Mark} (h : ∀ a ∈ asks, ∀ l, a ≠ .write l) :
      asks.Pairwise (fun a _ => ∀ l, a ≠ .write l) :=
    List.pairwise_of_forall_mem_list fun a ha _ _ => h a ha
  have hbefore {asks : List Mark} (h : ∀ a ∈ asks, ∀ l, a ≠ .write l) :
      (asks ++ m.writes r).Pairwise fun a _ => ∀ l, a ≠ .write l :=
    List.pairwise_append.mpr ⟨hasks h, hwrites, fun a ha _ _ => h a ha⟩
  have haccess : ∀ a ∈ Machine.accesses r, ∀ l, a ≠ .write l := by
    unfold Machine.accesses
    split <;> simp
  have hbarrier : ∀ a ∈ [Mark.barrier], ∀ l, a ≠ .write l := by simp
  cases hopcode : RecordOpcode.ofMnemonic? r.opcode with
  | none =>
    simp only [Machine.marks, hopcode]
    exact List.Pairwise.nil
  | some opcode =>
    cases opcode with simp only [Machine.marks, hopcode]
    | binary | unary | copy => exact hwrites
    | load => exact hbefore haccess
    | store => exact hasks haccess
    | branch | cbranch | branchInd => exact hasks hbarrier
    | callOther =>
      split
      next => exact hbefore hbarrier
      next => exact hwrites

end Records

/-- The moments at which marks stand, from `s` to `t`. -/
structure TimelineRun (marks : List Mark) (moments : List Moment) (s t : Lifting) : Prop where
  marks_eq : moments.map Moment.mark = marks
  run : ∃ new, MomentRun moments s t new ∧ ∀ x ∈ moments, (x.id, x.op) ∈ new
  output : ∀ x ∈ moments, ∀ l, x.mark = .write l → ∃ v, x.op.output = some v
  /-- What comes after a write belongs to later operations. -/
  increasing : moments.Pairwise fun x y => (∃ l, x.mark = .write l) → x.id.index < y.id.index
  proper : t.Proper

section TimelineRuns
variable {m : Machine} {s t u : Lifting}

theorem TimelineRun.append {marks more : List Mark} {moments later : List Moment}
    (h : TimelineRun marks moments s t) (h' : TimelineRun more later t u) :
    TimelineRun (marks ++ more) (moments ++ later) s u where
  marks_eq := by rw [List.map_append, h.marks_eq, h'.marks_eq]
  run := by
    obtain ⟨new, hrun, hown⟩ := h.run
    obtain ⟨new', hrun', hown'⟩ := h'.run
    refine ⟨_, hrun.append hrun', ?_⟩
    intro x hx
    rcases List.mem_append.mp hx with hx | hx
    · exact List.mem_append_left _ (hown x hx)
    · exact List.mem_append_right _ (hown' x hx)
  output x hx := by
    rcases List.mem_append.mp hx with hx | hx
    · exact h.output x hx
    · exact h'.output x hx
  increasing := by
    obtain ⟨new, hrun, hown⟩ := h.run
    obtain ⟨new', hrun', hown'⟩ := h'.run
    refine List.pairwise_append.mpr ⟨h.increasing, h'.increasing, ?_⟩
    intro x hx y hy _
    have hbefore : (x.id, x.op) ∈ t.graph.linkedOps := by
      rw [hrun.reaches.grows.code]
      exact List.mem_append_right _ (hown x hx)
    exact index_lt_of_reaches hrun'.reaches hbefore (hown' y hy)
  proper := h'.proper

theorem Lifts.timelineRun {r : Record} (h : Lifts m r s t) (hs : s.Proper) :
    TimelineRun (m.marks r) (m.moments r (t.graph.operations.drop s.graph.operations.length)) s t := by
  have hmarked := h.markedRun hs
  obtain ⟨id, op, new, hlast, hrun, hout⟩ := hmarked.run
  have hown : (id, op) ∈ new := List.mem_reverse.mp (List.mem_of_find?_eq_some hlast)
  have hmoments : m.moments r (t.graph.operations.drop s.graph.operations.length) =
      (m.marks r).map fun mark => ⟨mark, id, op⟩ := by
    rw [drop_operations_of_reaches hs.sound hrun.reaches]
    simp only [Machine.moments, hlast]
  rw [hmoments]
  refine ⟨?_, ⟨new, hrun, ?_⟩, ?_, ?_, hmarked.proper⟩
  · rw [List.map_map]
    exact List.map_id _
  · intro x hx
    obtain ⟨mark, _, rfl⟩ := List.mem_map.mp hx
    exact hown
  · intro x hx l hl
    obtain ⟨mark, hmark, rfl⟩ := List.mem_map.mp hx
    exact hout l (hl ▸ hmark)
  · refine List.pairwise_map.mpr ((pairwise_marks m r).imp ?_)
    rintro a _ hne ⟨l, hl⟩
    exact absurd hl (hne l)

theorem LiftsAll.timelineRun {rs : List Record} (h : LiftsAll m rs s t) (hs : s.Proper) :
    TimelineRun (rs.flatMap m.marks) (m.timeline rs s) s t := by
  induction h with
  | nil =>
    exact ⟨rfl, ⟨[], .nil (.refl hs.sound), List.forall_mem_nil _⟩, List.forall_mem_nil _,
      List.Pairwise.nil, hs⟩
  | cons runs first _ ih =>
    have htimeline := first.timelineRun hs
    simp only [Machine.timeline, runs, List.flatMap_cons]
    exact htimeline.append (ih htimeline.proper)

/-- Different writes have different values. -/
theorem TimelineRun.distinct {marks : List Mark} {moments : List Moment} {g : Graph}
    (h : TimelineRun marks moments s t) (hg : g.Consistent)
    (hin : ∀ x ∈ moments, g.linked? x.id = some x.op) :
    (moments.filterMap Moment.written?).Nodup := by
  refine List.pairwise_filterMap.mpr (List.Pairwise.imp_of_mem ?_ h.increasing)
  intro x y hx hy hlt v hv w hw he
  subst he
  have hwrite {z : Moment} (hz : z.written? = some v) :
      (∃ l, z.mark = .write l) ∧ z.op.output = some v := by
    unfold Moment.written? at hz
    split at hz
    next l hl => exact ⟨⟨l, hl⟩, hz⟩
    next => cases hz
  obtain ⟨hmark, hout⟩ := hwrite hv
  have hsame := hg.output_inj (hin x hx) (hin y hy) hout (hwrite hw).2
  have hless := hlt hmark
  rw [hsame] at hless
  exact Nat.lt_irrefl _ hless

end TimelineRuns
end Lift

/-- The write-back `id` comes before what ends the wait for it: the operation of a barrier or of an
access to memory, or any write-back of a later write. -/
def Moment.Awaits (x : Moment) (id : OpId) (code : List (OpId × Operation)) : Prop :=
  match x.mark with
  | .write k => ∀ w later, x.op.output = some w → (later, k, w) ∈ writebacks code →
      id.index < later.index
  | _ => id.index < x.id.index

/-- The write-backs of a lifted unit, against the moments of its records. -/
structure WrittenBack (moments : List Moment) (b : Lifting) : Prop where
  present : ∀ x ∈ moments, (x.id, x.op) ∈ b.graph.operations
  defines : ∀ x ∈ moments, ∀ l, x.mark = .write l → ∃ v, x.op.output = some v
  /-- Each write has a value of its own. -/
  distinct : (moments.filterMap Moment.written?).Nodup
  once : ∀ before x after l v, moments = before ++ x :: after → x.mark = .write l →
    x.op.output = some v → l.space.isObservable = true →
    ((writebacks b.graph.operations).map Prod.snd).count (l, v) = if superseded l after then 0 else 1
  only : ∀ id l v, (id, l, v) ∈ writebacks b.graph.operations → l.space.isObservable = true ∧
    ∃ x ∈ moments, x.mark = .write l ∧ x.op.output = some v
  timely : ∀ before x after l v id, moments = before ++ x :: after → x.mark = .write l →
    x.op.output = some v → (id, l, v) ∈ writebacks b.graph.operations →
    x.id.index < id.index ∧
      ∀ y, after.find? (·.mark.ends l) = some y → y.Awaits id b.graph.operations
  counted : b.writebacks = (writebacks b.graph.operations).length

namespace Machine
open Lift

variable {m : Machine} {u : CodeUnit} {b : Lifting}

/-- The write-backs of a unit are, up to order, the writes that nothing supersedes. -/
theorem perm_returning {moments : List Moment} {s : Lifting} {new : List (OpId × Operation)}
    (hrun : MomentRun moments {} s new) (hw : WriteBacks s.pending s b) :
    ((writebacks b.graph.linkedOps).map Prod.snd).Perm (returning moments) := by
  obtain ⟨final, hreach, hwritten, _⟩ := hw.written hrun.reaches.sound
  have hcode : b.graph.linkedOps = new ++ final := (hrun.reaches.trans hreach).grows.code
  rw [hcode, writebacks_append, List.map_append, hwritten]
  exact hrun.perm

/-- A write-back comes after the operation that defines its value. -/
theorem index_lt_writeback {g : Graph} (hg : g.Orderly) {x : Moment} {id : OpId} {l : Location}
    {v : ValueId} (hx : g.linked? x.id = some x.op) (hout : x.op.output = some v)
    (hid : (id, l, v) ∈ writebacks g.linkedOps) : x.id.index < id.index := by
  have hreads : g.linked? id = some (.writeback l v) :=
    Graph.mem_linkedOps_iff.mp (mem_writebacks.mp hid)
  obtain ⟨value, hvalue⟩ := Option.isSome_iff_exists.mp (hg.consistent.output_live hx hout)
  have hdefiner := (hg.consistent.definer_iff hvalue x.id).mpr ⟨x.op, hx, hout⟩
  exact hg.forward hreads List.mem_cons_self hvalue hdefiner

theorem awaits_of_momentRun {before after : List Moment} {x y : Moment} {s t : Lifting}
    {new final : List (OpId × Operation)} (hrun : MomentRun (before ++ x :: after) s t new)
    (hfinal : t.Reaches b final) (hcode : b.graph.linkedOps = new ++ final)
    (hnodup : ((writebacks b.graph.linkedOps).map Prod.snd).Nodup) {l : Location} {v : ValueId}
    (hleaves : (l, v) ∈ x.leaves) {id : OpId} (hid : (id, l, v) ∈ writebacks b.graph.linkedOps)
    (hy : after.find? (·.mark.ends l) = some y) (hne : y.mark ≠ .write l)
    (hlinked : b.graph.linked? y.id = some y.op) : y.Awaits id b.graph.linkedOps := by
  obtain ⟨id₀, hmade, hbarrier, hoverlap⟩ := hrun.exists_writeback hfinal hleaves hy hne
  -- the write-back that the run makes there is the only one
  have hid₀ : (id₀, l, v) ∈ writebacks b.graph.linkedOps := by
    rw [hcode, writebacks_append]
    exact List.mem_append_left _ hmade
  have hsame := List.inj_on_of_nodup_map hnodup hid hid₀ rfl
  obtain rfl : id = id₀ := congrArg Prod.fst hsame
  unfold Moment.Awaits
  cases hmark : y.mark with
  | write k =>
    intro w later hout hlater
    have hafter := index_lt_writeback hfinal.sound.graph hlinked hout hlater
    exact hoverlap k w later hmark hlater hafter
  | access space => exact hbarrier (by simp [hmark])
  | barrier => exact hbarrier (by simp [hmark])

theorem writtenBack_of_timelineRun {marks : List Mark} {moments : List Moment} {s : Lifting}
    (h : TimelineRun marks moments {} s) (hw : WriteBacks s.pending s b)
    (hcount : b.writebacks = (writebacks b.graph.linkedOps).length) : WrittenBack moments b := by
  obtain ⟨new, hrun, hown⟩ := h.run
  obtain ⟨final, hreach, _⟩ := hw.written hrun.reaches.sound
  have hg := hreach.sound.graph
  have hcode : b.graph.linkedOps = new ++ final := (hrun.reaches.trans hreach).grows.code
  have hpresent : ∀ x ∈ moments, (x.id, x.op) ∈ b.graph.linkedOps := by
    intro x hx
    rw [hcode]
    exact List.mem_append_left _ (hown x hx)
  have hlinked : ∀ x ∈ moments, b.graph.linked? x.id = some x.op := by
    intro x hx
    exact Graph.mem_linkedOps_iff.mp (hpresent x hx)
  have hdistinct := h.distinct hg.consistent hlinked
  have hperm := perm_returning hrun hw
  have hreturning {id : OpId} {l : Location} {v : ValueId}
      (hid : (id, l, v) ∈ writebacks b.graph.linkedOps) : (l, v) ∈ returning moments :=
    hperm.mem_iff.mp (List.mem_map_of_mem hid)
  refine ⟨?_, h.output, hdistinct, ?_, ?_, ?_, ?_⟩ <;> rw [hg.operations_eq]
  · exact hpresent
  · intro before x after l v hsplit hmark hout hobs
    subst hsplit
    rw [hperm.count_eq]
    exact count_returning hdistinct hmark hout hobs
  · intro id l v hid
    obtain ⟨x, hx, hleaves⟩ := exists_leaves_of_mem_returning (hreturning hid)
    obtain ⟨hmark, hout, hobs⟩ := Moment.mem_leaves.mp hleaves
    exact ⟨hobs, x, hx, hmark, hout⟩
  · intro before x after l v id hsplit hmark hout hid
    subst hsplit
    refine ⟨index_lt_writeback hg (hlinked x (by simp)) hout hid, ?_⟩
    intro y hy
    obtain ⟨hobs, hsuper⟩ := (mem_returning hdistinct hmark hout).mp (hreturning hid)
    have hne : y.mark ≠ .write l := by simpa [superseded, hy] using hsuper
    have hin : y ∈ before ++ x :: after := by simp [List.mem_of_find?_eq_some hy]
    exact awaits_of_momentRun hrun hreach hcode (hperm.nodup_iff.mpr (nodup_returning hdistinct))
      (Moment.mem_leaves.mpr ⟨hmark, hout, hobs⟩) hid hy hne (hlinked y hin)
  · exact hcount

/-- The marks of a unit's records stand at operations of its graph, and what they leave pending is
written back once, unless it is superseded. -/
theorem pending_writes_return_once (h : m.lift u = .ok () b) :
    (m.timeline u.records {}).map Moment.mark = u.records.flatMap m.marks ∧
      WrittenBack (m.timeline u.records {}) b := by
  obtain ⟨s, hrecords, hw⟩ := lifts_of_lift h
  have htimeline := hrecords.timelineRun Lifting.proper_empty
  exact ⟨htimeline.marks_eq, writtenBack_of_timelineRun htimeline hw (writebacks_of_lift h)⟩

/-- A register written twice and then in part, memory that a load asks for, an impure call with a
result, a branch, and a write that nothing ends. -/
def overwrites : CodeUnit :=
  { name := "f", line := 1, records := [
    ⟨2, some (.name "RAX"), "COPY", [.varnode "const" 1 8]⟩,
    ⟨3, some (.name "RAX"), "COPY", [.varnode "const" 2 8]⟩,
    ⟨4, some (.varnode "register" 0 1), "COPY", [.varnode "const" 3 1]⟩,
    ⟨5, some (.varnode "ram" 0x1000 8), "COPY", [.name "RSI"]⟩,
    ⟨6, some (.name "RBX"), "LOAD", [.name "ram", .name "RDI"]⟩,
    ⟨7, some (.name "RAX"), "CALLOTHER", [.userop "syscall", .name "RBX"]⟩,
    ⟨8, none, "CBRANCH", [.address 0x20, .name "RBX"]⟩,
    ⟨9, some (.name "RCX"), "COPY", [.varnode "const" 4 8]⟩] }

theorem overwrites_return_once :
    ∃ b, ({} : Machine).lift overwrites = .ok () b ∧
      (writebacks b.graph.operations).map (·.2.1) =
        [⟨.register, 0, 8⟩, ⟨.ram, 0x1000, 8⟩, ⟨.register, 0, 1⟩, ⟨.register, 24, 8⟩,
          ⟨.register, 0, 8⟩, ⟨.register, 8, 8⟩] ∧
      (({} : Machine).timeline overwrites.records {}).map Moment.mark =
        overwrites.records.flatMap ({} : Machine).marks ∧
      WrittenBack (({} : Machine).timeline overwrites.records {}) b := by
  have hwritten : (({} : Machine).lifted? overwrites).map
      (fun b => (writebacks b.graph.operations).map (·.2.1)) =
      some [⟨.register, 0, 8⟩, ⟨.ram, 0x1000, 8⟩, ⟨.register, 0, 1⟩, ⟨.register, 24, 8⟩,
        ⟨.register, 0, 8⟩, ⟨.register, 8, 8⟩] := by decide +kernel
  obtain ⟨b, hb, hlocations⟩ := Option.map_eq_some_iff.mp hwritten
  have hl := lift_of_lifted? hb
  exact ⟨b, hl, hlocations, pending_writes_return_once hl⟩

end Machine
end DefUse
