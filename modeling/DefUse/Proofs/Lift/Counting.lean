import DefUse.Proofs.Lift.Decoding
import DefUse.Proofs.Statistics

namespace DefUse

section Commutes
variable {ε σ α β : Type}

/-- The result with its state changed. -/
def mapState (f : σ → σ) : EStateM.Result ε σ α → EStateM.Result ε σ α
  | .ok a s => .ok a (f s)
  | .error e s => .error e (f s)

/-- Changing the state before a step is changing it after the step. -/
def Commutes (f : σ → σ) (x : EStateM ε σ α) : Prop :=
  ∀ s, x (f s) = mapState f (x s)

variable {f : σ → σ}

theorem commutes_pure (a : α) : Commutes f (pure a : EStateM ε σ α) := fun _ => rfl

theorem commutes_throw (e : ε) : Commutes f (throw e : EStateM ε σ α) := fun _ => rfl

theorem Commutes.bind {x : EStateM ε σ α} {y : α → EStateM ε σ β} (hx : Commutes f x)
    (hy : ∀ a, Commutes f (y a)) : Commutes f (x >>= y) := by
  intro s
  simp only [Bind.bind, EStateM.bind, hx s]
  cases x s with
  | ok a t => exact hy a t
  | error e t => rfl

theorem commutes_modify (g : σ → σ) (h : ∀ s, g (f s) = f (g s)) :
    Commutes f (modify g : EStateM ε σ PUnit) := by
  intro s
  show EStateM.Result.ok PUnit.unit (g (f s)) = EStateM.Result.ok PUnit.unit (f (g s))
  rw [h s]

end Commutes

namespace Lifting

/-- The state of a lifting with `before` counted ahead of it. -/
def after (before : Statistics) (s : Lifting) : Lifting :=
  { s with statistics := before.merge s.statistics }

variable (before : Statistics) (s : Lifting)

@[simp] theorem contents_after : (s.after before).contents = s.contents := rfl

@[simp] theorem touched_after : (s.after before).touched = s.touched := rfl

@[simp] theorem constants_after : (s.after before).constants = s.constants := rfl

@[simp] theorem foreign_after : (s.after before).foreign = s.foreign := rfl

end Lifting

namespace Lift
variable (before : Statistics)

theorem commutes_onGraph {α : Type} (call : Call Graph α) :
    Commutes (Lifting.after before) (onGraph call) := by
  intro s
  simp only [onGraph, Lifting.after]
  cases call s.graph <;> rfl

theorem commutes_append (op : Operation) : Commutes (Lifting.after before) (append op) := by
  intro s
  have hcount : { s.after before with
      statistics := (s.after before).statistics.recordOp op.mnemonic } =
      Lifting.after before { s with statistics := s.statistics.recordOp op.mnemonic } := by
    simp only [Lifting.after, Statistics.merge_recordOp]
  simp only [append, hcount]
  exact commutes_onGraph before _ _

theorem commutes_constant (word : UInt64) (size : Nat) :
    Commutes (Lifting.after before) (constant word size) := by
  intro s
  simp only [constant, Lifting.constants_after]
  cases s.constants.get? (word, size) with
  | some v => rfl
  | none =>
    refine ((commutes_onGraph before _).bind fun v => ?_) s
    exact Commutes.bind (commutes_modify _ fun _ => rfl) fun _ => commutes_pure v

theorem commutes_fresh (l : Location) : Commutes (Lifting.after before) (fresh l) := by
  intro s
  unfold fresh
  rw [Lifting.foreign_after]
  cases s.foreign.contains l.space with
  | true =>
    refine ((commutes_constant before _ _).bind fun offset => ?_) s
    refine (commutes_onGraph before _).bind fun out => ?_
    exact (commutes_append before _).bind fun _ => commutes_pure out
  | false =>
    simp only [Bool.false_eq_true, if_false]
    exact commutes_onGraph before _ s

theorem commutes_readLocation (line : Nat) (l : Location) :
    Commutes (Lifting.after before) (readLocation line l) := by
  intro s
  unfold readLocation
  rw [Lifting.contents_after, Lifting.touched_after]
  by_cases hspace : l.space = .const
  · simp only [hspace, if_true]
    exact commutes_constant before _ _ s
  · simp only [hspace, if_false]
    cases s.contents.get? l with
    | some v => rfl
    | none =>
      cases s.touched.any (·.overlaps l) with
      | true => rfl
      | false =>
        refine ((commutes_fresh before l).bind fun v => ?_) s
        exact Commutes.bind (commutes_modify _ fun _ => rfl) fun _ => commutes_pure v

theorem commutes_writeBack (l : Location) : Commutes (Lifting.after before) (writeBack l) := by
  intro s
  simp only [writeBack, Lifting.contents_after]
  cases s.contents.get? l with
  | none => rfl
  | some v =>
    have hstep := (commutes_append before (.writeback l v)).bind fun _ =>
      commutes_modify (fun s => { s with
        writebacks := s.writebacks + 1
        statistics := s.statistics.recordWriteback }) fun _ => rfl
    exact hstep { s with pending := s.pending.filter (· ≠ l) }

theorem commutes_each (ls : List Location) :
    Commutes (Lifting.after before) (each writeBack ls) := by
  induction ls with
  | nil => exact commutes_pure ()
  | cons l rest ih => exact (commutes_writeBack before l).bind fun _ => ih

theorem commutes_settle : Commutes (Lifting.after before) settle :=
  fun s => commutes_each before s.pending s

theorem commutes_barrier (b : Barrier) : Commutes (Lifting.after before) (b.run plain) := by
  intro s
  rw [b.run_plain, b.run_plain]
  exact commutes_each before (s.pending.filter b.covers) s

theorem commutes_assign (l : Location) (v : ValueId) :
    Commutes (Lifting.after before) (plain.assign l v) := by
  intro s
  refine ((commutes_each before
    (s.pending.filter fun p => p ≠ l && p.overlaps l)).bind fun _ => ?_) s
  exact commutes_modify _ fun _ => rfl

theorem commutes_action (a : Action) : Commutes (Lifting.after before) (a.run plain) := by
  have hforget : Commutes (Lifting.after before) (a.forget plain) := by
    unfold Action.forget
    cases a.forgets with
    | none => exact commutes_pure ()
    | some space => exact commutes_modify _ fun _ => rfl
  refine (commutes_barrier before a.barrier).bind fun _ => ?_
  cases a.effect with
  | perform op => exact (commutes_append before op).bind fun _ => hforget
  | define l op =>
    refine (commutes_onGraph before _).bind fun out => ?_
    refine (commutes_append before _).bind fun _ => ?_
    exact hforget.bind fun _ => commutes_assign before l out

theorem commutes_ofExcept {α : Type} (x : Except UnitError α) :
    Commutes (Lifting.after before) (ofExcept x) := by
  cases x with
  | ok a => exact commutes_pure a
  | error e => exact commutes_throw e

theorem commutes_read (m : Machine) (line : Nat) (operand : Operand) :
    Commutes (Lifting.after before) (read m line operand) :=
  (commutes_ofExcept before _).bind fun l => commutes_readLocation before line l

theorem commutes_readAll (m : Machine) (line : Nat) (operands : List Operand) :
    Commutes (Lifting.after before) (readAll m line operands) := by
  induction operands with
  | nil => exact commutes_pure []
  | cons operand rest ih =>
    refine (commutes_read before m line operand).bind fun v => ?_
    exact ih.bind fun vs => commutes_pure (v :: vs)

theorem commutes_record (m : Machine) (r : Record) :
    Commutes (Lifting.after before) (record m r) := by
  unfold record
  rcases refused_or_understood m r with ⟨e, _, hrecord⟩ | ⟨operands, act, _, hrecord⟩
  · rw [hrecord]
    exact commutes_throw e
  · rw [hrecord]
    refine (commutes_readAll before m r.line operands).bind fun values => ?_
    -- the snapshot is taken of the contents, which nothing counted can change
    exact fun s => commutes_action before (act values (Snapshot.ofList s.contents)) s

theorem commutes_records (m : Machine) (rs : List Record) :
    Commutes (Lifting.after before) (records m rs) := by
  induction rs with
  | nil => exact commutes_pure ()
  | cons r rest ih => exact (commutes_record before m r).bind fun _ => ih

theorem commutes_codeUnit (m : Machine) (u : CodeUnit) :
    Commutes (Lifting.after before) (codeUnit m u) :=
  (commutes_records before m u.records).bind fun _ => commutes_settle before

end Lift
end DefUse
