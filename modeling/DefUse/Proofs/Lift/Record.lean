import DefUse.Proofs.Lift.Decoding
import DefUse.Proofs.Lift.Effects

namespace DefUse
namespace Lift
open Lifting

section Operands
variable {m : Machine} {s : Lifting}

/-- The value that an operand names. -/
def Reads (m : Machine) (line : Nat) (operand : Operand) (s : Lifting) (v : ValueId)
    (t : Lifting) : Prop :=
  ∃ l, m.location line operand = .ok l ∧ Fetches l s v t

theorem Reads.reaches {line : Nat} {operand : Operand} {v : ValueId} {t : Lifting}
    (h : Reads m line operand s v t) (hs : s.Sound) : ∃ new, s.Reaches t new := by
  obtain ⟨l, _, hf⟩ := h
  exact hf.reaches hs

theorem Reads.live {line : Nat} {operand : Operand} {v : ValueId} {t : Lifting}
    (h : Reads m line operand s v t) (hs : s.Sound) : (t.graph.kind? v).isSome = true := by
  obtain ⟨l, _, hf⟩ := h
  obtain ⟨origin, hk⟩ := hf.kind hs
  exact Option.isSome_of_eq_some hk

theorem ensures_read (hs : s.Sound) (line : Nat) (operand : Operand) :
    Ensures (read m line operand) s (Reads m line operand s) := by
  unfold read
  cases hl : m.location line operand with
  | ok l => exact (ensures_readLocation hs line l).mono fun v u hu => ⟨l, hl, hu⟩
  | error e => exact UnitError.isRecoverable_of_isOfRecord (Machine.isOfRecord_of_location hl)

/-- The values of operands read in order. -/
inductive ReadsAll (m : Machine) (line : Nat) :
    List Operand → Lifting → List ValueId → Lifting → Prop where
  | nil {s : Lifting} : ReadsAll m line [] s [] s
  | cons {operand : Operand} {rest : List Operand} {s t u : Lifting} {v : ValueId}
      {vs : List ValueId} (first : Reads m line operand s v t)
      (others : ReadsAll m line rest t vs u) :
      ReadsAll m line (operand :: rest) s (v :: vs) u

theorem ReadsAll.reaches {line : Nat} {operands : List Operand} {vs : List ValueId} {t : Lifting}
    (h : ReadsAll m line operands s vs t) (hs : s.Sound) : ∃ new, s.Reaches t new := by
  induction h with
  | nil => exact ⟨[], hs, .refl _⟩
  | cons first _ ih =>
    obtain ⟨new, hreach⟩ := first.reaches hs
    obtain ⟨more, hrest⟩ := ih hreach.sound
    exact ⟨_, hreach.trans hrest⟩

theorem ReadsAll.live {line : Nat} {operands : List Operand} {vs : List ValueId} {t : Lifting}
    (h : ReadsAll m line operands s vs t) (hs : s.Sound) :
    ∀ v ∈ vs, (t.graph.kind? v).isSome = true := by
  induction h with
  | nil => simp
  | cons first others ih =>
    obtain ⟨new, hreach⟩ := first.reaches hs
    obtain ⟨more, hrest⟩ := others.reaches hreach.sound
    intro w hw
    rcases List.mem_cons.mp hw with rfl | hw
    · exact hrest.grows.live (first.live hs)
    · exact ih hreach.sound w hw

theorem length_of_readAll {line : Nat} {operands : List Operand} {vs : List ValueId} {t : Lifting}
    (h : readAll m line operands s = .ok vs t) : vs.length = operands.length := by
  induction operands generalizing s vs with
  | nil =>
    cases h
    rfl
  | cons operand rest ih =>
    simp only [readAll, bind, EStateM.bind] at h
    split at h
    next v u _ =>
      split at h
      next ws _ hrest =>
        cases h
        exact congrArg Nat.succ (ih hrest)
      next => cases h
    next => cases h

theorem ensures_readAll (hs : s.Sound) (line : Nat) (operands : List Operand) :
    Ensures (readAll m line operands) s (ReadsAll m line operands s) := by
  induction operands generalizing s with
  | nil => exact ensures_pure .nil
  | cons operand rest ih =>
    refine (ensures_read hs line operand).bind ?_
    intro v t hv
    obtain ⟨new, hreach⟩ := hv.reaches hs
    refine (ih hreach.sound).bind ?_
    intro vs u hvs
    exact ensures_pure (.cons hv hvs)

end Operands

/-- The state once an action has forgotten what it has to. -/
def Action.after (a : Action) (s : Lifting) : Lifting :=
  match a.forgets with
  | none => s
  | some space => s.forget space

theorem Action.forget_plain (a : Action) (s : Lifting) :
    a.forget plain s = .ok () (a.after s) := by
  unfold forget after
  cases a.forgets <;> rfl

/-- What an action does to a sound state. -/
inductive Acts (a : Action) (s t : Lifting) : Prop where
  | perform {op : Operation} {s₁ s₂ : Lifting} (effect : a.effect = .perform op)
      (settled : WriteBacks (s.pending.filter a.barrier.covers) s s₁)
      (appends : Appends op s₁ s₂) (after : t = a.after s₂)
  | define {l : Location} {op : ValueId → Operation} {out : ValueId} {s₁ s₂ : Lifting}
      (effect : a.effect = .define l op)
      (settled : WriteBacks (s.pending.filter a.barrier.covers) s s₁)
      (emits : Emits l.size op s₁ out s₂) (assigns : Assigns l out (a.after s₂) t)

section Acting
variable {m : Machine} {r : Record} {values : List ValueId} {a : Action} {s t u : Lifting}

theorem graph_after (a : Action) (s : Lifting) : (a.after s).graph = s.graph := by
  unfold Action.after
  cases a.forgets <;> rfl

/-- What is forgotten has been written back. -/
theorem Suits.clear (h : Suits m r values a)
    (ht : Settles (s.pending.filter a.barrier.covers) s t) (hu : u.pending = t.pending)
    {space : Space} (hspace : a.forgets = some space) : ∀ p ∈ u.pending, p.space ≠ space := by
  intro p hp he
  rw [hu] at hp
  have hnot := ht.eq_false_of_pending hp
  rw [h.forgets hspace p he] at hnot
  cases hnot

theorem sound_after (hs : s.Sound)
    (hclear : ∀ {space}, a.forgets = some space → ∀ p ∈ s.pending, p.space ≠ space) :
    (a.after s).Sound := by
  unfold Action.after
  cases hspace : a.forgets with
  | none => exact hs
  | some space => exact hs.forget (hclear hspace)

theorem reaches_after {new : List (OpId × Operation)} (h : s.Reaches t new)
    (hclear : ∀ {space}, a.forgets = some space → ∀ p ∈ t.pending, p.space ≠ space) :
    s.Reaches (a.after t) new where
  sound := sound_after h.sound hclear
  grows := by
    rw [graph_after]
    exact h.grows

theorem Assigns.reaches {l : Location} {v : ValueId} (h : Assigns l v s t) (hs : s.Sound) :
    ∃ new, s.Reaches t new := by
  obtain ⟨u, hu, rfl⟩ := h.before
  obtain ⟨new, hreach⟩ := hu.reaches hs
  exact ⟨new, h.sound, hreach.grows⟩

theorem ensures_barrier (hs : s.Sound) (b : Barrier) :
    Ensures (b.run plain) s fun _ t => WriteBacks (s.pending.filter b.covers) s t := by
  unfold Ensures
  rw [b.run_plain]
  exact ensures_each hs fun p hp => hs.pending (List.mem_filter.mp hp).1

theorem ensures_settle (hs : s.Sound) : Ensures settle s fun _ t => WriteBacks s.pending s t :=
  ensures_each hs fun _ hp => hs.pending hp

theorem WriteBacks.pending_eq_nil (h : WriteBacks s.pending s t) : t.pending = [] :=
  h.settles.pending_eq_nil

theorem WriteBacks.pending_eq_nil_of_all
    (h : WriteBacks (s.pending.filter Barrier.all.covers) s t) : t.pending = [] := by
  rw [Barrier.filter_covers_all] at h
  exact h.pending_eq_nil

/-- An action on values that are there is carried out. -/
theorem ensures_action (hs : s.Sound) (ha : Suits m r values a)
    (hlive : ∀ v ∈ values, (s.graph.kind? v).isSome = true) :
    Ensures (a.run plain) s fun _ t => Acts a s t := by
  refine (ensures_barrier hs a.barrier).bind ?_
  intro _ s₁ hw
  obtain ⟨new, hreach⟩ := hw.reaches hs
  have hin {op : Operation} (hop : Fits r values op) :
      ∀ v ∈ op.inputs, (s₁.graph.kind? v).isSome = true := by
    intro v hv
    rw [hop.inputs] at hv
    exact hreach.grows.live (hlive v hv)
  cases heffect : a.effect with
  | perform op =>
    obtain ⟨hout, hop⟩ := ha.perform heffect
    refine (ensures_append hreach.sound hout (hin hop) hop.typed).bind ?_
    intro _ s₂ happ
    exact ensures_ofEq (a.forget_plain s₂) (.perform heffect hw happ rfl)
  | define l op =>
    obtain ⟨_, hop⟩ := ha.define heffect
    refine ensures_emit hreach.sound op (fun out => (hop out).1) (fun out => hin (hop out).2)
      (fun out => (hop out).2.typed) ?_
    intro out s₂ hemit
    obtain ⟨id, hreach₂⟩ := hemit.reaches
    have hsound := sound_after hreach₂.sound (ha.clear hw.settles hemit.alike.pending)
    refine Ensures.bind (P := fun _ u => u = a.after s₂) (ensures_ofEq (a.forget_plain s₂) rfl) ?_
    rintro _ _ rfl
    have hkind := hemit.kind
    rw [← graph_after a s₂] at hkind
    exact (ensures_assign hsound hkind).mono fun _ t hassign => .define heffect hw hemit hassign

theorem Acts.reaches (h : Acts a s t) (ha : Suits m r values a) (hs : s.Sound) :
    ∃ new, s.Reaches t new := by
  cases h with
  | perform _ settled appends after =>
    obtain ⟨_, h₁⟩ := settled.reaches hs
    obtain ⟨_, h₂⟩ := appends.reaches
    exact ⟨_, after ▸ reaches_after (h₁.trans h₂) (ha.clear settled.settles appends.alike.pending)⟩
  | define _ settled emits assigns =>
    obtain ⟨_, h₁⟩ := settled.reaches hs
    obtain ⟨_, h₂⟩ := emits.reaches
    have hafter := reaches_after (h₁.trans h₂) (ha.clear settled.settles emits.alike.pending)
    obtain ⟨_, h₃⟩ := assigns.reaches hafter.sound
    exact ⟨_, hafter.trans h₃⟩

theorem Acts.of_perform (h : Acts a s t) {op : Operation} (heffect : a.effect = .perform op) :
    ∃ s₁ s₂, WriteBacks (s.pending.filter a.barrier.covers) s s₁ ∧ Appends op s₁ s₂ ∧
      t = a.after s₂ := by
  cases h with
  | perform effect settled appends after =>
    cases effect.symm.trans heffect
    exact ⟨_, _, settled, appends, after⟩
  | define effect => cases effect.symm.trans heffect

theorem Acts.of_define (h : Acts a s t) {l : Location} {op : ValueId → Operation}
    (heffect : a.effect = .define l op) :
    ∃ out s₁ s₂, WriteBacks (s.pending.filter a.barrier.covers) s s₁ ∧ Emits l.size op s₁ out s₂ ∧
      Assigns l out (a.after s₂) t := by
  cases h with
  | perform effect => cases effect.symm.trans heffect
  | define effect settled emits assigns =>
    cases effect.symm.trans heffect
    exact ⟨_, _, _, settled, emits, assigns⟩

end Acting

/-- Lifting a record: its operands are read in order, and then it does what it asks for. -/
inductive Lifts (m : Machine) (r : Record) (s t : Lifting) : Prop where
  | intro {operands : List Operand} {values : List ValueId} {u : Lifting} {a : Action}
      (reads : ReadsAll m r.line operands s values u)
      (asks : Asks m r operands values (Snapshot.ofList u.contents) a) (acts : Acts a u t)

section Records
variable {m : Machine} {r : Record} {s t : Lifting}

/-- A record is lifted as it asks, or the unit falls back. -/
theorem ensures_record (hs : s.Sound) (r : Record) :
    Ensures (record m r) s fun _ t => Lifts m r s t := by
  unfold record
  rcases refused_or_understood m r with ⟨e, he, hrecord⟩ | ⟨operands, act, hasks, hrecord⟩
  · rw [hrecord]
    exact UnitError.isRecoverable_of_isOfRecord he
  · rw [hrecord]
    refine (ensures_readAll hs r.line operands).and_eq.bind ?_
    rintro values u ⟨hread, hruns⟩
    obtain ⟨new, hreach⟩ := hread.reaches hs
    have ha := hasks values (Snapshot.ofList u.contents) (length_of_readAll hruns)
    exact (ensures_action hreach.sound ha.suits (hread.live hs)).mono
      fun _ t hacts => .intro hread ha hacts

theorem Lifts.reaches (h : Lifts m r s t) (hs : s.Sound) : ∃ new, s.Reaches t new := by
  obtain ⟨reads, asks, acts⟩ := h
  obtain ⟨_, h₁⟩ := reads.reaches hs
  obtain ⟨_, h₂⟩ := acts.reaches asks.suits h₁.sound
  exact ⟨_, h₁.trans h₂⟩

/-- Records lifted one after the other. -/
inductive LiftsAll (m : Machine) : List Record → Lifting → Lifting → Prop where
  | nil {s : Lifting} : LiftsAll m [] s s
  | cons {r : Record} {rest : List Record} {s t u : Lifting} (runs : record m r s = .ok () t)
      (first : Lifts m r s t) (others : LiftsAll m rest t u) : LiftsAll m (r :: rest) s u

theorem LiftsAll.reaches {rs : List Record} {t : Lifting} (h : LiftsAll m rs s t) (hs : s.Sound) :
    ∃ new, s.Reaches t new := by
  induction h with
  | nil => exact ⟨[], hs, .refl _⟩
  | cons _ first _ ih =>
    obtain ⟨_, h₁⟩ := first.reaches hs
    obtain ⟨_, h₂⟩ := ih h₁.sound
    exact ⟨_, h₁.trans h₂⟩

theorem ensures_records (hs : s.Sound) (rs : List Record) :
    Ensures (records m rs) s fun _ t => LiftsAll m rs s t := by
  induction rs generalizing s with
  | nil => exact ensures_pure .nil
  | cons r rest ih =>
    refine (ensures_record hs r).and_eq.bind ?_
    rintro _ t ⟨hfirst, hruns⟩
    obtain ⟨new, hreach⟩ := hfirst.reaches hs
    exact (ih hreach.sound).mono fun _ u hu => .cons hruns hfirst hu

/-- All records, then all write-backs. -/
theorem ensures_codeUnit (hs : s.Sound) (u : CodeUnit) :
    Ensures (codeUnit m u) s fun _ t =>
      ∃ s₁, LiftsAll m u.records s s₁ ∧ WriteBacks s₁.pending s₁ t := by
  refine (ensures_records hs u.records).bind ?_
  intro _ s₁ hrecords
  obtain ⟨new, hreach⟩ := hrecords.reaches hs
  exact (ensures_settle hreach.sound).mono fun _ t hw => ⟨s₁, hrecords, hw⟩

end Records
end Lift

namespace Machine
open Lift

variable {m : Machine} {u : CodeUnit} {b : Lifting}

theorem recoverable_of_lift {e : UnitError} (h : m.lift u = .error e b) :
    e.isRecoverable = true :=
  (ensures_codeUnit Lifting.sound_empty u).of_error h

theorem lifts_of_lift (h : m.lift u = .ok () b) :
    ∃ s, LiftsAll m u.records {} s ∧ WriteBacks s.pending s b :=
  (ensures_codeUnit Lifting.sound_empty u).of_ok h

theorem orderly_of_lift (h : m.lift u = .ok () b) : b.graph.Orderly := by
  obtain ⟨s, hrecords, hw⟩ := lifts_of_lift h
  obtain ⟨_, h₁⟩ := hrecords.reaches Lifting.sound_empty
  obtain ⟨_, h₂⟩ := hw.reaches h₁.sound
  exact h₂.sound.graph

end Machine
end DefUse
