import DefUse.Proofs.Lift.Simulation
import DefUse.Proofs.Lift.Tracked

namespace DefUse
namespace Lift
open Lifting

theorem settles_of_writeBack {l : Location} {s t : Lifting} (h : writeBack l s = .ok () t) :
    Settles [l] s t ∧ ∀ v, t.graph.kind? v = s.graph.kind? v := by
  cases hv : s.contents.get? l with
  | none =>
    simp only [writeBack, hv] at h
    cases h
    exact ⟨⟨rfl, rfl, by simp, rfl⟩, fun _ => rfl⟩
  | some v =>
    simp only [writeBack, hv, bind, EStateM.bind] at h
    split at h
    next id u happ =>
      obtain rfl := append_eq_ok happ
      cases h
      exact ⟨⟨rfl, rfl, by simp, rfl⟩, fun w => Graph.kind?_appended ..⟩
    next => cases h

theorem length_lt_of_writeBack {l : Location} {rest : List Location} {s t : Lifting}
    (hp : s.pending = l :: rest) (h : writeBack l s = .ok () t) :
    t.pending.length < s.pending.length := by
  have hrest := List.length_filter_le (fun p => decide (p ∉ [l])) rest
  have hfirst : decide (l ∉ [l]) = false := by simp
  rw [(settles_of_writeBack h).1.pending, hp, List.filter_cons, hfirst, List.length_cons]
  exact Nat.lt_succ_of_le hrest

/-- Writes back the first pending location as long as there is one. -/
def drain (s : Lifting) : EStateM.Result UnitError Lifting Unit :=
  match hp : s.pending with
  | [] => .ok () s
  | l :: _ =>
    match hw : writeBack l s with
    | .ok _ t =>
      have := length_lt_of_writeBack hp hw
      drain t
    | .error e t => .error e t
termination_by s.pending.length

theorem drain_eq_each {ls : List Location} {s : Lifting} (hp : s.pending = ls)
    (hnodup : ls.Nodup) : drain s = each writeBack ls s := by
  induction ls generalizing s with
  | nil =>
    unfold drain
    split
    next => rfl
    next hp' =>
      rw [hp] at hp'
      cases hp'
  | cons l rest ih =>
    obtain ⟨hnot, hrest⟩ := List.nodup_cons.mp hnodup
    unfold drain
    split
    next hp' =>
      rw [hp] at hp'
      cases hp'
    next k tail hp' =>
      rw [hp] at hp'
      cases hp'
      simp only [each, bind, EStateM.bind]
      split
      next t hw =>
        rw [hw]
        refine ih ?_ hrest
        rw [(settles_of_writeBack hw).1.pending, hp]
        have hkept : ∀ p ∈ rest, p ≠ l := by
          intro p hin he
          exact hnot (he ▸ hin)
        simpa using hkept
      next e t hw => rw [hw]

theorem not_recoverable_of_each {ls : List Location} {s t : Lifting} {e : UnitError}
    (h : each writeBack ls s = .error e t) : e.isRecoverable = false := by
  induction ls generalizing s with
  | nil => cases h
  | cons l rest ih =>
    simp only [each, bind, EStateM.bind] at h
    split at h
    next => exact ih h
    next hw =>
      cases h
      cases hv : s.contents.get? l with
      | none =>
        simp only [writeBack, hv] at hw
        cases hw
      | some v =>
        simp only [writeBack, hv, bind, EStateM.bind] at hw
        split at hw
        next => cases hw
        next happ =>
          cases hw
          obtain ⟨_, rfl⟩ := eq_graph_of_append happ
          rfl

/-- All that was pending is written back: each location once, in order, with the value it holds. -/
structure Drained (s t : Lifting) : Prop where
  pending : t.pending = []
  operations : ∃ new, t.graph.operations = s.graph.operations ++ new ∧
    List.Forall₂ (Returns s) s.pending new
  counted : t.writebacks = s.writebacks + s.pending.length

theorem drained_of_settle {s t : Lifting} (hs : s.Sound) (h : settle s = .ok () t) :
    Drained s t := by
  have hw := (ensures_settle hs).of_ok h
  obtain ⟨new, hreach, hreturns⟩ := hw.returns hs
  refine ⟨hw.pending_eq_nil, ⟨new, ?_, hreturns⟩, ?_⟩
  · rw [hreach.sound.graph.operations_eq, hs.graph.operations_eq, hreach.grows.code]
  · have hsteps := @takesSteps_settle (fun _ => True) s
    rw [TakesSteps, h] at hsteps
    have hcount := writebacks_add_of_steps hsteps
    have hheld : (s.held s.pending).length = s.pending.length := by
      apply List.filterMap_length_eq_length.mpr
      intro p hp
      obtain ⟨v, hv⟩ := hs.pending hp
      rw [hv]
      rfl
    rw [← writebacks_of_returns hreturns, List.length_map] at hheld
    rw [hreach.grows.code, writebacks_append, List.length_append] at hcount
    omega

/-- Draining ends, and is what settling does. -/
theorem exists_drain {s : Lifting} (hs : s.Sound) (hnodup : s.pending.Nodup) :
    ∃ t, drain s = .ok () t ∧ settle s = .ok () t ∧ Drained s t := by
  have hsame : drain s = settle s := drain_eq_each rfl hnodup
  cases h : settle s with
  | ok _ t => exact ⟨t, hsame.trans h, rfl, drained_of_settle hs h⟩
  | error e t =>
    -- only the graph can refuse a write-back, and a sound one does not
    have hnot := not_recoverable_of_each h
    rw [(ensures_settle hs).of_error h] at hnot
    cases hnot

open Classical in
/-- A step that is made only where `ok` holds; elsewhere the alarm is raised. -/
noncomputable def guarded (alarm : UnitError) (ok : Lifting → Prop) (step : Lift Unit) :
    Lift Unit := fun s =>
  if ok s then step s else .error alarm s

noncomputable def checkedWriteBack (alarm : UnitError) (l : Location) : Lift Unit :=
  guarded alarm (fun s => s.Tracked ∧ ∃ v, s.contents.get? l = some v) (writeBack l)

/-- Lifting that raises the alarm where it would rely on something that does not hold. -/
noncomputable def checked (alarm : UnitError) : Primitives where
  writeBack := checkedWriteBack alarm
  settle := guarded alarm (fun s => s.Tracked ∧ ∃ t, drain s = .ok () t ∧ Drained s t) fun s =>
    each (checkedWriteBack alarm) s.pending s
  forget space := guarded alarm (fun s => s.Tracked ∧ ∀ p ∈ s.pending, p.space ≠ space)
    (forget space)

/-- Two ways to go on from a state that come to the same. -/
def SameAt {α : Type} (s : Lifting) (x y : Lift α) : Prop :=
  x s = y s

theorem SameAt.rfl {α : Type} {s : Lifting} {x : Lift α} : SameAt s x x := Eq.refl (x s)

/-- What follows need come to the same only in the states that are reached. -/
theorem SameAt.bind {α β : Type} {s : Lifting} {x y : Lift α} {f g : α → Lift β}
    (hxy : SameAt s x y) (hfg : ∀ a t, y s = .ok a t → SameAt t (f a) (g a)) :
    SameAt s (x >>= f) (y >>= g) := by
  unfold SameAt at hxy ⊢
  simp only [Bind.bind, EStateM.bind, hxy]
  split
  next a t h => exact hfg a t h
  next => exact Eq.refl _

section Checked
variable {alarm : UnitError} {m : Machine} {s t : Lifting}

theorem steady_of_readAll {line : Nat} {operands : List Operand} {vs : List ValueId}
    (hs : s.Steady) (hsound : s.Sound) (h : readAll m line operands s = .ok vs t) :
    t.Steady ∧ t.Sound := by
  have hreads := (ensures_readAll hsound line operands).of_ok h
  obtain ⟨new, hreach⟩ := hreads.reaches hsound
  exact ⟨hreads.steady hs, hreach.sound⟩

theorem steady_of_append {op : Operation} {id : OpId} (hs : s.Steady)
    (h : append op s = .ok id t) : t.Steady ∧ t.pending = s.pending := by
  obtain rfl := append_eq_ok h
  refine ⟨hs.of_settles (Alike.settles ⟨rfl, rfl, rfl, rfl⟩) ?_, rfl⟩
  intro v k hk
  exact (Graph.kind?_appended ..).trans hk

theorem steady_of_newOutput {size : Nat} {v : ValueId} (hs : s.Steady)
    (h : onGraph (Graph.newOutput size) s = .ok v t) : t.Steady ∧ t.pending = s.pending := by
  cases h
  have hgrows := Graph.grows_create s.graph { origin := .output, size }
  refine ⟨hs.of_settles (Alike.settles ⟨rfl, rfl, rfl, rfl⟩) hgrows.kind, rfl⟩

theorem steady_of_writeBack {l : Location} (hs : s.Steady) (h : writeBack l s = .ok () t) :
    t.Steady ∧ Settles [l] s t := by
  obtain ⟨hsettles, hkinds⟩ := settles_of_writeBack h
  refine ⟨hs.of_settles hsettles ?_, hsettles⟩
  intro v k hk
  exact (hkinds v).trans hk

theorem steady_of_each {ls : List Location} (hs : s.Steady) (h : each writeBack ls s = .ok () t) :
    t.Steady ∧ Settles ls s t := by
  induction ls generalizing s with
  | nil =>
    cases h
    exact ⟨hs, rfl, rfl, by simp, rfl⟩
  | cons l rest ih =>
    simp only [each, bind, EStateM.bind] at h
    split at h
    next u hw =>
      obtain ⟨hu, hsettles⟩ := steady_of_writeBack hs hw
      obtain ⟨ht, hrest⟩ := ih hu h
      exact ⟨ht, hsettles.trans hrest⟩
    next => cases h

theorem checked_each {ls : List Location} (hs : s.Steady)
    (hls : ∀ l ∈ ls, ∃ v, s.contents.get? l = some v) :
    SameAt s (each (checkedWriteBack alarm) ls) (each writeBack ls) := by
  induction ls generalizing s with
  | nil => exact .rfl
  | cons l rest ih =>
    -- a write-back leaves what the others hold
    obtain ⟨hfirst, hothers⟩ := List.forall_mem_cons.mp hls
    have hok : s.Tracked ∧ ∃ v, s.contents.get? l = some v := ⟨hs.tracked, hfirst⟩
    have hchecked : SameAt s (checkedWriteBack alarm l) (writeBack l) := if_pos hok
    refine hchecked.bind ?_
    intro _ t hw
    obtain ⟨ht, hsettles⟩ := steady_of_writeBack hs hw
    apply ih ht
    rw [hsettles.contents]
    exact hothers

theorem checked_settle (hs : s.Steady) (hsound : s.Sound) :
    SameAt s (checked alarm).settle settle := by
  have hpending : SameAt s (each (checkedWriteBack alarm) s.pending) (each writeBack s.pending) :=
    checked_each hs fun p hp => (hs.known p hp).2
  obtain ⟨t, hdrain, _, hdrained⟩ := exists_drain hsound hs.nodup
  have hok : s.Tracked ∧ ∃ t, drain s = .ok () t ∧ Drained s t := ⟨hs.tracked, t, hdrain, hdrained⟩
  exact (if_pos hok).trans hpending

theorem checked_barrier (hs : s.Steady) (hsound : s.Sound) (b : Barrier) :
    SameAt s (b.run (checked alarm)) (b.run plain) := by
  cases b with
  | none => exact .rfl
  | within space => exact checked_each hs fun p hp => (hs.known p (List.mem_filter.mp hp).1).2
  | all => exact checked_settle hs hsound

theorem checked_assign (hs : s.Steady) (l : Location) (v : ValueId) :
    SameAt s ((checked alarm).assign l v) (plain.assign l v) := by
  refine SameAt.bind (checked_each hs ?_) fun _ _ _ => .rfl
  intro p hp
  exact (hs.known p (List.mem_filter.mp hp).1).2

theorem checked_forget (hs : s.Steady) {a : Action}
    (hclear : ∀ {space}, a.forgets = some space → ∀ p ∈ s.pending, p.space ≠ space) :
    SameAt s (a.forget (checked alarm)) (a.forget plain) := by
  unfold Action.forget
  cases hspace : a.forgets with
  | none => exact .rfl
  | some space =>
    have hok : s.Tracked ∧ ∀ p ∈ s.pending, p.space ≠ space := ⟨hs.tracked, hclear hspace⟩
    exact if_pos hok

/-- No check fails while a record does what it asks for: what it forgets it has written back. -/
theorem checked_action {r : Record} {values : List ValueId} {a : Action} (ha : Suits m r values a)
    (hs : s.Steady) (hsound : s.Sound) : SameAt s (a.run (checked alarm)) (a.run plain) := by
  refine SameAt.bind (checked_barrier hs hsound a.barrier) fun _ t hbarrier => ?_
  rw [a.barrier.run_plain] at hbarrier
  obtain ⟨ht, hsettles⟩ := steady_of_each hs hbarrier
  cases a.effect with
  | perform op =>
    refine SameAt.rfl.bind fun _ u happ => ?_
    obtain ⟨hu, hpending⟩ := steady_of_append ht happ
    exact checked_forget hu (ha.clear hsettles hpending)
  | define l op =>
    refine SameAt.rfl.bind fun out u hout => ?_
    obtain ⟨hu, hsame⟩ := steady_of_newOutput ht hout
    refine SameAt.rfl.bind fun _ w happ => ?_
    obtain ⟨hw, hpending⟩ := steady_of_append hu happ
    have hclear {space : Space} (hspace : a.forgets = some space) :
        ∀ p ∈ w.pending, p.space ≠ space :=
      ha.clear hsettles (hpending.trans hsame) hspace
    refine SameAt.bind (checked_forget hw hclear) fun _ x hforget => ?_
    rw [a.forget_plain] at hforget
    cases hforget
    exact checked_assign (steady_after hw hclear) l out

theorem checked_record (hs : s.Steady) (hsound : s.Sound) (r : Record) :
    SameAt s ((checked alarm).record m r) (record m r) := by
  unfold record
  rcases refused_or_understood m r with ⟨e, _, hrecord⟩ | ⟨operands, act, hasks, hrecord⟩
  · rw [hrecord, hrecord]
    exact .rfl
  · rw [hrecord, hrecord]
    refine SameAt.rfl.bind fun values u hread => ?_
    obtain ⟨hu, husound⟩ := steady_of_readAll hs hsound hread
    have ha := hasks values (Snapshot.ofList u.contents) (length_of_readAll hread)
    exact checked_action ha.suits hu husound

end Checked

/-- After any records that could be lifted, what is known of locations is in step, and all that is
pending can be written back, each location once. From there on no check fails, neither within the
next record nor at the end of the unit. -/
theorem known_locations_stay_in_step {m : Machine} {rs : List Record} {s : Lifting}
    (h : records m rs {} = .ok () s) :
    s.Tracked ∧
      (∃ t, drain s = .ok () t ∧ settle s = .ok () t ∧ Drained s t) ∧
      (∀ r, plain.record m r = record m r) ∧
      ∀ alarm, (checked alarm).settle s = settle s ∧
        ∀ r, (checked alarm).record m r s = record m r s := by
  have hlifts := (ensures_records sound_empty rs).of_ok h
  have hs := hlifts.steady steady_empty
  obtain ⟨new, hreach⟩ := hlifts.reaches sound_empty
  exact ⟨hs.tracked, exists_drain hreach.sound hs.nodup, fun _ => rfl, fun alarm =>
    ⟨checked_settle hs hreach.sound, checked_record hs hreach.sound⟩⟩

/-- The state that lifting ends in, unless it fails. -/
def after? {α : Type} (x : Lift α) (s : Lifting) : Option Lifting :=
  match x s with
  | .ok _ t => some t
  | .error _ _ => none

theorem eq_ok_of_after? {x : Lift Unit} {s t : Lifting} (h : after? x s = some t) :
    x s = .ok () t := by
  unfold after? at h
  split at h
  next hx =>
    obtain rfl := Option.some.inj h
    exact hx
  next => cases h

/-- A register is written, then half of it, which is read again, and then memory. -/
def writesHalf : List Record :=
  [⟨2, some (.varnode "register" 0 8), "COPY", [.varnode "const" 1 8]⟩,
    ⟨3, some (.varnode "register" 4 4), "COPY", [.varnode "register" 8 4]⟩,
    ⟨4, some (.varnode "ram" 0x1000 4), "COPY", [.varnode "register" 4 4]⟩]

theorem writesHalf_stays_in_step :
    ∃ s t, records {} writesHalf {} = .ok () s ∧
      s.pending = [⟨.register, 4, 4⟩, ⟨.ram, 0x1000, 4⟩] ∧ s.Tracked ∧
      drain s = .ok () t ∧ t.writebacks = 3 ∧
      ∀ alarm r, (checked alarm).record {} r s = record {} r s := by
  have hend : (after? (records {} writesHalf) {}).map (fun s => (s.pending, s.writebacks)) =
      some ([⟨.register, 4, 4⟩, ⟨.ram, 0x1000, 4⟩], 1) := by decide +kernel
  obtain ⟨s, hs, heq⟩ := Option.map_eq_some_iff.mp hend
  obtain ⟨hpending, hcount⟩ := Prod.mk.inj heq
  have hrecords := eq_ok_of_after? hs
  obtain ⟨htracked, ⟨t, hdrain, _, hdrained⟩, _, hchecked⟩ :=
    known_locations_stay_in_step hrecords
  refine ⟨s, t, hrecords, hpending, htracked, hdrain, ?_, fun alarm => (hchecked alarm).2⟩
  rw [hdrained.counted, hcount, hpending]
  rfl

end Lift
end DefUse
