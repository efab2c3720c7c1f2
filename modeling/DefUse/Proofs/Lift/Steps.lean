import Mathlib.Logic.Relation
import DefUse.Proofs.Lift.Record

namespace DefUse

/-- The write-backs among operations. -/
def writebacks (code : List (OpId × Operation)) : List (OpId × Location × ValueId) :=
  code.filterMap fun x => x.2.writeback?.map fun w => (x.1, w)

theorem mem_writebacks {code : List (OpId × Operation)} {id : OpId} {l : Location} {v : ValueId} :
    (id, l, v) ∈ writebacks code ↔ (id, .writeback l v) ∈ code := by
  simp only [writebacks, List.mem_filterMap, Option.map_eq_some_iff, Prod.mk.injEq]
  constructor
  · rintro ⟨⟨id', op⟩, hmem, w, hop, rfl, rfl⟩
    cases op with
    | writeback k u =>
      cases hop
      exact hmem
    | _ => cases hop
  · exact fun hmem => ⟨_, hmem, _, rfl, rfl, rfl⟩

theorem writebacks_append (code more : List (OpId × Operation)) :
    writebacks (code ++ more) = writebacks code ++ writebacks more :=
  List.filterMap_append

theorem writebacks_concat_of_none (code : List (OpId × Operation)) (id : OpId) {op : Operation}
    (h : op.writeback? = none) : writebacks (code ++ [(id, op)]) = writebacks code := by
  rw [writebacks_append]
  simp [writebacks, h]

theorem writebacks_concat (code : List (OpId × Operation)) (id : OpId) (l : Location)
    (v : ValueId) :
    writebacks (code ++ [(id, .writeback l v)]) = writebacks code ++ [(id, l, v)] :=
  writebacks_append code _

theorem Graph.eq_appended_of_addLinked {g h : Graph} {op : Operation} {id : OpId}
    (hok : Graph.addLinked op g = .ok id h) : h = g.appended op := by
  simp only [addLinked, add, bind, EStateM.bind] at hok
  split at hok
  next _ k hlink =>
    obtain ⟨op', hnode, _, hk⟩ := link_iff.mp hlink
    rw [node?_add, if_pos rfl] at hnode
    obtain rfl : op = op' := congrArg Node.op (Option.some.inj hnode)
    cases hok
    exact hk
  next => cases hok

namespace Lift

/-- One small step of lifting; `P` holds of the calls that are added. -/
inductive Step (P : Operation → Prop) : Lifting → Lifting → Prop where
  | create (s : Lifting) (x : Value) :
      Step P s { s with graph := { s.graph with values := s.graph.values.push x } }
  | append (s : Lifting) {op : Operation} (other : op.writeback? = none)
      (call : op.isCall = true → P op) :
      Step P s { s with
        graph := s.graph.appended op
        statistics := s.statistics.recordOp op.mnemonic }
  | writeBack (s : Lifting) (l : Location) (v : ValueId) :
      Step P s { s with
        graph := s.graph.appended (.writeback l v)
        pending := s.pending.filter (· ≠ l)
        writebacks := s.writebacks + 1
        statistics :=
          (s.statistics.recordOp (Operation.writeback l v).mnemonic).recordWriteback }
  /-- What is known of locations and constants changes, and nothing else. -/
  | learn {s t : Lifting} (graph : t.graph = s.graph) (writebacks : t.writebacks = s.writebacks)
      (statistics : t.statistics = s.statistics) : Step P s t

/-- Small steps one after the other. -/
abbrev Steps (P : Operation → Prop) : Lifting → Lifting → Prop :=
  Relation.ReflTransGen (Step P)

/-- From `s` lifting ends after some small steps, or fails for another cause than types. Where the
unit can fall back, the failure too comes after small steps. -/
def TakesSteps {α : Type} (P : Operation → Prop) (x : Lift α) (s : Lifting) : Prop :=
  match x s with
  | .ok _ t => Steps P s t
  | .error e t => e.isRejection = false ∧ (e.isRecoverable = true → Steps P s t)

section Rules
variable {α β : Type} {P Q : Operation → Prop} {s : Lifting}

theorem Step.mono {t : Lifting} (h : Step P s t) (hPQ : ∀ op, P op → Q op) : Step Q s t := by
  cases h with
  | create x => exact .create s x
  | append other call => exact .append s other fun hcall => hPQ _ (call hcall)
  | writeBack l v => exact .writeBack s l v
  | learn graph count statistics => exact .learn graph count statistics

theorem TakesSteps.mono {x : Lift α} (h : TakesSteps P x s) (hPQ : ∀ op, P op → Q op) :
    TakesSteps Q x s := by
  have hsteps {t : Lifting} (ht : Steps P s t) : Steps Q s t :=
    ht.lift id fun _ _ hstep => hstep.mono hPQ
  unfold TakesSteps at h ⊢
  cases hx : x s with rw [hx] at h
  | ok a t => exact hsteps h
  | error e t => exact ⟨h.1, fun he => hsteps (h.2 he)⟩

theorem takesSteps_pure (a : α) : TakesSteps P (pure a) s := .refl

theorem takesSteps_throw {e : UnitError} (h : e.isOfRecord = true) :
    TakesSteps P (throw e : Lift α) s :=
  ⟨UnitError.isRejection_of_isOfRecord h, fun _ => .refl⟩

theorem TakesSteps.bind {x : Lift α} {y : α → Lift β} (hx : TakesSteps P x s)
    (hy : ∀ a t, x s = .ok a t → TakesSteps P (y a) t) : TakesSteps P (x >>= y) s := by
  unfold TakesSteps at hx ⊢
  simp only [Bind.bind, EStateM.bind]
  cases hs : x s with rw [hs] at hx
  | error e t => exact hx
  | ok a t =>
    have hrest := hy a t hs
    unfold TakesSteps at hrest
    dsimp only
    cases ht : y a t with rw [ht] at hrest
    | error e u => exact ⟨hrest.1, fun he => hx.trans (hrest.2 he)⟩
    | ok b u => exact hx.trans hrest

theorem takesSteps_learn (f : Lifting → Lifting) (hgraph : (f s).graph = s.graph)
    (hcount : (f s).writebacks = s.writebacks) (hstatistics : (f s).statistics = s.statistics) :
    TakesSteps P (modify f : Lift Unit) s :=
  .single (.learn hgraph hcount hstatistics)

end Rules

theorem append_eq_ok {op : Operation} {s t : Lifting} {id : OpId} (h : append op s = .ok id t) :
    t = { s with
      graph := s.graph.appended op
      statistics := s.statistics.recordOp op.mnemonic } := by
  simp only [append, onGraph] at h
  split at h
  next id' g hadd =>
    cases h
    rw [Graph.eq_appended_of_addLinked hadd]
  next => cases h

/-- Only the graph can refuse an operation. -/
theorem eq_graph_of_append {op : Operation} {s t : Lifting} {e : UnitError}
    (h : append op s = .error e t) : ∃ refusal, e = .graph refusal := by
  simp only [append, onGraph] at h
  split at h
  next => cases h
  next refusal _ _ =>
    cases h
    exact ⟨refusal, rfl⟩

section Frames
variable {P : Operation → Prop} (s : Lifting)

theorem takesSteps_create (x : Value) : TakesSteps P (onGraph (Graph.create x)) s :=
  .single (.create s x)

theorem takesSteps_append {op : Operation} (h : op.writeback? = none)
    (hcall : op.isCall = true → P op) : TakesSteps P (append op) s := by
  unfold TakesSteps
  cases happ : append op s with
  | ok id t =>
    rw [append_eq_ok happ]
    exact .single (.append s h hcall)
  | error e t =>
    obtain ⟨_, rfl⟩ := eq_graph_of_append happ
    exact ⟨rfl, fun h => absurd h Bool.false_ne_true⟩

theorem takesSteps_writeBack (l : Location) : TakesSteps P (writeBack l) s := by
  unfold TakesSteps
  cases hv : s.contents.get? l with
  | none =>
    simp only [writeBack, hv]
    exact .single (.learn rfl rfl rfl)
  | some v =>
    simp only [writeBack, hv, bind, EStateM.bind]
    cases happ : append (.writeback l v) { s with pending := s.pending.filter (· ≠ l) } with
    | ok id t =>
      rw [append_eq_ok happ]
      exact .single (.writeBack s l v)
    | error e t =>
      obtain ⟨_, rfl⟩ := eq_graph_of_append happ
      exact ⟨rfl, fun h => absurd h Bool.false_ne_true⟩

theorem takesSteps_each (ls : List Location) : TakesSteps P (each writeBack ls) s := by
  induction ls generalizing s with
  | nil => exact takesSteps_pure ()
  | cons l rest ih => exact (takesSteps_writeBack s l).bind fun _ t _ => ih t

theorem takesSteps_settle : TakesSteps P settle s :=
  takesSteps_each s s.pending

theorem takesSteps_barrier (b : Barrier) : TakesSteps P (b.run plain) s := by
  unfold TakesSteps
  rw [b.run_plain]
  exact takesSteps_each s (s.pending.filter b.covers)

theorem takesSteps_assign (l : Location) (v : ValueId) : TakesSteps P (plain.assign l v) s := by
  have hassign : TakesSteps P (do
      each writeBack (s.pending.filter fun p => p ≠ l && p.overlaps l)
      hold l v) s :=
    (takesSteps_each s _).bind fun _ _ _ => takesSteps_learn _ rfl rfl rfl
  exact hassign

theorem takesSteps_constant (word : UInt64) (size : Nat) : TakesSteps P (constant word size) s := by
  have hnew : TakesSteps P (do
      let v ← onGraph (Graph.newConstant word size)
      modify fun s => { s with constants := s.constants.put (word, size) v }
      return v) s := by
    refine (takesSteps_create s _).bind fun v t _ => ?_
    exact TakesSteps.bind (takesSteps_learn _ rfl rfl rfl) fun _ _ _ => takesSteps_pure v
  unfold TakesSteps constant
  cases s.constants.get? (word, size) with
  | some v => exact .refl
  | none => exact hnew

theorem takesSteps_fresh (l : Location) : TakesSteps P (fresh l) s := by
  have hload : TakesSteps P (do
      let offset ← constant l.offset 8
      let out ← onGraph (Graph.newOutput l.size)
      let _ ← append (.load out l.space offset)
      return out) s := by
    refine (takesSteps_constant s l.offset 8).bind fun offset t _ => ?_
    refine (takesSteps_create t _).bind fun out u _ => ?_
    exact (takesSteps_append u rfl (by simp [Operation.isCall])).bind fun _ _ _ =>
      takesSteps_pure out
  unfold TakesSteps fresh
  cases s.foreign.contains l.space with
  | true => exact hload
  | false => exact takesSteps_create s _

theorem takesSteps_readLocation (line : Nat) (l : Location) :
    TakesSteps P (readLocation line l) s := by
  have hnote : TakesSteps P (do
      let v ← fresh l
      modify fun s => { s with contents := s.contents.put l v }
      return v) s := by
    refine (takesSteps_fresh s l).bind fun v t _ => ?_
    exact TakesSteps.bind (takesSteps_learn _ rfl rfl rfl) fun _ _ _ => takesSteps_pure v
  unfold TakesSteps readLocation
  by_cases hspace : l.space = .const
  · rw [if_pos hspace]
    exact takesSteps_constant s l.offset l.size
  · rw [if_neg hspace]
    cases s.contents.get? l with
    | some v => exact .refl
    | none =>
      cases s.touched.any (·.overlaps l) with
      | true => exact ⟨rfl, fun _ => .refl⟩
      | false => exact hnote

variable (m : Machine)

theorem takesSteps_read (line : Nat) (operand : Operand) : TakesSteps P (read m line operand) s := by
  unfold read
  cases hl : m.location line operand with
  | ok l => exact takesSteps_readLocation s line l
  | error e => exact takesSteps_throw (Machine.isOfRecord_of_location hl)

theorem takesSteps_readAll (line : Nat) (operands : List Operand) :
    TakesSteps P (readAll m line operands) s := by
  induction operands generalizing s with
  | nil => exact takesSteps_pure []
  | cons operand rest ih =>
    refine (takesSteps_read s m line operand).bind fun v t _ => ?_
    exact (ih t).bind fun vs _ _ => takesSteps_pure (v :: vs)

end Frames

/-- The call of a record: its snapshot is of the state in which the arguments have been read. -/
structure CallOf (m : Machine) (r : Record) (s : Lifting) (op : Operation) (u : Lifting) : Prop where
  opcode : RecordOpcode.ofMnemonic? r.opcode = some .callOther
  call : ∃ name args userop out values, r.operands = .userop name :: args ∧
    m.userops.get? name = some userop ∧ readAll m r.line args s = .ok values u ∧
    op = .call userop out values (callTypes userop args.length) (Snapshot.ofList u.contents)

section Records
variable (m : Machine)

theorem takesSteps_action {P : Operation → Prop} {r : Record} {values : List ValueId} {a : Action}
    (ha : Suits m r values a) (hcall : ∀ op, a.effect.Adds op → op.isCall = true → P op)
    (s : Lifting) : TakesSteps P (a.run plain) s := by
  have hforget (t : Lifting) : TakesSteps P (a.forget plain) t := by
    unfold Action.forget
    cases a.forgets with
    | none => exact takesSteps_pure ()
    | some space => exact takesSteps_learn _ rfl rfl rfl
  refine (takesSteps_barrier s a.barrier).bind fun _ t _ => ?_
  cases heffect : a.effect with rw [heffect] at hcall
  | perform op =>
    refine (takesSteps_append t (ha.perform heffect).2.other (hcall op rfl)).bind fun _ u _ => ?_
    exact hforget u
  | define l op =>
    refine (takesSteps_create t _).bind fun out u _ => ?_
    have hop := ((ha.define heffect).2 out).2
    refine (takesSteps_append u hop.other (hcall _ ⟨out, rfl⟩)).bind fun _ v _ => ?_
    exact (hforget v).bind fun _ w _ => takesSteps_assign w l out

/-- A record adds no call but its own. -/
theorem takesSteps_record (r : Record) (s : Lifting) :
    TakesSteps (fun op => ∃ u, CallOf m r s op u) (record m r) s := by
  unfold record
  rcases refused_or_understood m r with ⟨e, he, hrecord⟩ | ⟨operands, act, hasks, hrecord⟩
  · rw [hrecord]
    exact takesSteps_throw he
  · rw [hrecord]
    refine (takesSteps_readAll s m r.line operands).bind fun values u hread => ?_
    have ha := hasks values (Snapshot.ofList u.contents) (length_of_readAll hread)
    refine takesSteps_action m ha.suits (fun op hop hcall => ?_) u
    obtain ⟨hopcode, name, userop, out, hargs, huserop, heq⟩ := ha.eq_call hop hcall
    exact ⟨u, hopcode, name, operands, userop, out, values, hargs, huserop, hread, heq⟩

theorem takesSteps_records (rs : List Record) (s : Lifting) :
    TakesSteps (fun _ => True) (records m rs) s := by
  induction rs generalizing s with
  | nil => exact takesSteps_pure ()
  | cons r rest ih =>
    exact ((takesSteps_record m r s).mono fun _ _ => trivial).bind fun _ t _ => ih t

theorem takesSteps_codeUnit (u : CodeUnit) (s : Lifting) :
    TakesSteps (fun _ => True) (codeUnit m u) s :=
  (takesSteps_records m u.records s).bind fun _ t _ => takesSteps_settle t

end Records

section Counts
variable {P : Operation → Prop} {s t : Lifting}

/-- A step counts the write-back it makes. -/
theorem Step.writebacks_add (h : Step P s t) :
    t.writebacks + (DefUse.writebacks s.graph.linkedOps).length =
      s.writebacks + (DefUse.writebacks t.graph.linkedOps).length := by
  cases h with
  | create x => rfl
  | append other => rw [Graph.linkedOps_appended, writebacks_concat_of_none _ _ other]
  | writeBack l v =>
    rw [Graph.linkedOps_appended, writebacks_concat, List.length_append]
    simp only [List.length_singleton]
    omega
  | learn graph count _ => rw [graph, count]

theorem writebacks_add_of_steps (h : Steps P s t) :
    t.writebacks + (DefUse.writebacks s.graph.linkedOps).length =
      s.writebacks + (DefUse.writebacks t.graph.linkedOps).length := by
  induction h with
  | refl => rfl
  | tail _ hstep ih =>
    have hlast := hstep.writebacks_add
    omega

end Counts
end Lift

namespace Machine
open Lift

variable {m : Machine} {u : CodeUnit} {b : Lifting}

theorem not_rejection_of_lift {e : UnitError} (h : m.lift u = .error e b) :
    e.isRejection = false := by
  have hsteps := takesSteps_codeUnit m u {}
  rw [TakesSteps, show codeUnit m u {} = .error e b from h] at hsteps
  exact hsteps.1

/-- Lifting takes small steps, to its end or to where the unit falls back. -/
theorem steps_of_lift (h : m.lift u = .ok () b ∨ ∃ e, m.lift u = .error e b) :
    Steps (fun _ => True) {} b := by
  have hsteps := takesSteps_codeUnit m u {}
  rcases h with h | ⟨e, h⟩
  · rw [TakesSteps, show codeUnit m u {} = .ok () b from h] at hsteps
    exact hsteps
  · rw [TakesSteps, show codeUnit m u {} = .error e b from h] at hsteps
    exact hsteps.2 (recoverable_of_lift h)

/-- The write-backs counted are those in the graph. -/
theorem writebacks_of_lift (h : m.lift u = .ok () b) :
    b.writebacks = (writebacks b.graph.linkedOps).length := by
  have hcount := writebacks_add_of_steps (steps_of_lift (Or.inl h))
  have hempty : (writebacks ({} : Lifting).graph.linkedOps).length = 0 := rfl
  have hzero : ({} : Lifting).writebacks = 0 := rfl
  omega

end Machine
end DefUse
