import Mathlib.Data.List.Infix
import DefUse.Proofs.Graph.Sweep

namespace DefUse

/-- A link is refused for these reasons before it looks at the values. -/
def Refusal.isEarly : Refusal → Bool
  | unknownOp _ | alreadyLinked _ => true
  | _ => false

theorem Values.not_early_of_define {v : ValueId} {id : OpId} {vs ws : Values} {e : Refusal}
    (h : define v id vs = .error e ws) : e.isEarly = false := by
  unfold define at h
  split at h
  next => cases h; rfl
  next =>
    split at h
    next => cases h
    next => cases h; rfl
    next => cases h; rfl

theorem Values.not_early_of_addUses {id : OpId} {position : Nat} {inputs : List ValueId}
    {vs ws : Values} {e : Refusal} (h : addUses id position inputs vs = .error e ws) :
    e.isEarly = false := by
  induction inputs generalizing position vs with
  | nil => cases h
  | cons v rest ih =>
    simp only [addUses, bind, EStateM.bind, addUse] at h
    cases hx : vs.value? v with
    | none =>
      simp only [hx] at h
      cases h
      rfl
    | some x =>
      cases hu : x.hasUse ⟨id, position⟩ with
      | true =>
        simp only [hx, hu, if_true] at h
        cases h
        rfl
      | false =>
        simp only [hx, hu, Bool.false_eq_true, if_false] at h
        exact ih h

theorem Operation.not_early_of_link {op : Operation} {id : OpId} {vs ws : Values} {e : Refusal}
    (h : op.link id vs = .error e ws) : e.isEarly = false := by
  cases ho : op.output with
  | none =>
    simp only [link, ho] at h
    exact Values.not_early_of_addUses h
  | some out =>
    simp only [link, ho, bind, EStateM.bind] at h
    cases hd : Values.define out id vs with
    | ok _ us =>
      rw [hd] at h
      exact Values.not_early_of_addUses h
    | error e' us =>
      rw [hd] at h
      cases h
      exact Values.not_early_of_define hd

namespace Graph

inductive Request where
  | newConstant (word : UInt64) (size : Nat)
  | newEntry (location : Location)
  | newOutput (size : Nat)
  | add (op : Operation)
  | link (id : OpId)
  | addLinked (op : Operation)
  | unlink (id : OpId)
  | detach (id : OpId)
  | remove (id : OpId)
  | eliminateDeadCode
deriving DecidableEq

/-- The graph after a call, answered or refused. -/
def leaves {α : Type} : EStateM.Result Refusal Graph α → Graph
  | .ok _ h => h
  | .error _ h => h

/-- Whether a call answers, or is refused before it records anything. -/
def isSettled {α : Type} : EStateM.Result Refusal Graph α → Bool
  | .ok _ _ => true
  | .error e _ => e.isEarly

namespace Request

def after (r : Request) (g : Graph) : Graph :=
  match r with
  | newConstant word size => leaves (Graph.newConstant word size g)
  | newEntry location => leaves (Graph.newEntry location g)
  | newOutput size => leaves (Graph.newOutput size g)
  | add op => leaves (Graph.add op g)
  | link id => leaves (Graph.link id g)
  | addLinked op => leaves (Graph.addLinked op g)
  | unlink id => leaves (Graph.unlink id g)
  | detach id => leaves (Graph.detach id g)
  | remove id => leaves (Graph.remove id g)
  | eliminateDeadCode => leaves (Graph.eliminateDeadCode g)

/-- The output given to an operation that is added. -/
def handed? : Request → Option ValueId
  | add op => op.output
  | addLinked op => op.output
  | _ => none

/-- No link stops halfway; of the other calls nothing is asked. -/
def settles (r : Request) (g : Graph) : Bool :=
  match r with
  | link id => isSettled (Graph.link id g)
  | addLinked op => isSettled (Graph.addLinked op g)
  | _ => true

end Request

def replay : List Request → Graph → Graph
  | [], g => g
  | r :: rest, g => replay rest (r.after g)

def settled : List Request → Graph → Bool
  | [], _ => true
  | r :: rest, g => r.settles g && settled rest (r.after g)

/-- The operation of an id, linked or not. -/
def op? (g : Graph) (id : OpId) : Option Operation :=
  (g.node? id).map (·.op)

theorem op?_setLinked (g : Graph) (id other : OpId) (linked : Bool) :
    (g.setLinked id linked).op? other = g.op? other := by
  unfold op?
  rw [node?_setLinked]
  split
  next => rw [Option.map_map]; rfl
  next => rfl

theorem op?_of_linked? {g : Graph} {id : OpId} {op : Operation} (h : g.linked? id = some op) :
    g.op? id = some op := by
  simp [op?, linked?_eq_some_iff.mp h]

theorem Shrinks.op? {g h : Graph} (hs : g.Shrinks h) {id : OpId} {op : Operation}
    (hop : h.op? id = some op) : g.op? id = some op := by
  rcases hs.node id with he | ⟨hnone, _⟩
  · simpa only [Graph.op?, he] using hop
  · simp [Graph.op?, hnone] at hop

/-- `h` has operations and linked operations of `g` only, and its values are what they were. -/
structure Keeps (g h : Graph) : Prop where
  op : ∀ {id op}, h.op? id = some op → g.op? id = some op
  linked : ∀ {id op}, h.linked? id = some op → g.linked? id = some op
  origin : ∀ {v x y}, g.value? v = some x → h.value? v = some y → y.origin = x.origin

theorem Keeps.refl (g : Graph) : g.Keeps g where
  op hop := hop
  linked hop := hop
  origin hx hy := by
    rw [hx] at hy
    rw [Option.some.inj hy]

theorem Shrinks.keeps {g h : Graph} (hs : g.Shrinks h) : g.Keeps h where
  op hop := hs.op? hop
  linked hop := hs.linked? hop
  origin hx hy := by
    obtain ⟨z, hz, horigin, _⟩ := hs.value hy
    rw [hx] at hz
    rw [Option.some.inj hz, horigin]

theorem Consistent.keeps_create {g : Graph} (hc : g.Consistent) {x : Value} (hd : x.definer = none)
    (hu : x.uses = []) : ({ g with values := g.values.push x } : Graph).Consistent ∧
      g.Keeps { g with values := g.values.push x } := by
  refine ⟨hc.create hd hu, fun hop => hop, fun hop => hop, ?_⟩
  intro v y z hy hz
  have hlt : v.index < g.values.next := Slots.lt_next_of_get? hy
  have hne : v ≠ ⟨g.values.next⟩ := by
    intro he
    rw [he] at hlt
    exact Nat.lt_irrefl _ hlt
  rw [value?_create, if_neg hne, hy] at hz
  rw [Option.some.inj hz]

theorem Consistent.keeps_unlink {g : Graph} (hc : g.Consistent) (id : OpId) :
    (leaves (Graph.unlink id g)).Consistent ∧ g.Keeps (leaves (Graph.unlink id g)) := by
  cases hr : Graph.unlink id g with
  | error e h =>
    rw [leaves, (hc.unlink_error_iff.mp hr).1]
    exact ⟨hc, .refl g⟩
  | ok a h =>
    refine ⟨hc.unlink hr, ?_⟩
    obtain ⟨op, _, _, rfl⟩ := unlink_iff.mp hr
    refine ⟨?_, ?_, ?_⟩
    · intro other p hp
      rwa [leaves, op?_setLinked] at hp
    · intro other p hp
      rw [leaves, linked?_setLinked_false] at hp
      split at hp
      next => cases hp
      next => exact hp
    · intro v x y hx hy
      rw [leaves, value?_mapAll_setLinked, hx] at hy
      rw [← Option.some.inj hy]
      rfl

theorem Consistent.keeps_detach {g : Graph} (hc : g.Consistent) {id : OpId}
    (hown : ∀ op v, g.node? id = some ⟨op, false⟩ → op.output = some v →
      ∀ other p, g.linked? other = some p → p.output ≠ some v) :
    (leaves (Graph.detach id g)).Consistent ∧ g.Keeps (leaves (Graph.detach id g)) := by
  cases hr : Graph.detach id g with
  | error e h =>
    rw [leaves, (detach_error_iff.mp hr).1]
    exact ⟨hc, .refl g⟩
  | ok op h =>
    have hn := (detach_iff.mp hr).1
    refine ⟨hc.detach hr fun v hv => hown op v hn hv, ?_⟩
    have hnode := node?_of_detach hr
    refine ⟨?_, ?_, ?_⟩
    · intro other p hp
      rw [leaves, op?, hnode] at hp
      split at hp
      next => cases hp
      next => exact hp
    · intro other p hp
      rw [leaves, linked?_eq_some_iff, hnode] at hp
      split at hp
      next => cases hp
      next => exact linked?_eq_some_iff.mpr hp
    · intro v x y hx hy
      rw [leaves, value?_of_detach hr] at hy
      split at hy
      next => cases hy
      next => exact (Keeps.refl g).origin hx hy

theorem Consistent.keeps_remove {g : Graph} (hc : g.Consistent) (id : OpId) :
    (leaves (remove id g)).Consistent ∧ g.Keeps (leaves (remove id g)) := by
  cases hr : Graph.remove id g with
  | error e h =>
    rw [leaves, (hc.remove_error_iff.mp hr).1]
    exact ⟨hc, .refl g⟩
  | ok op h =>
    obtain ⟨hop, hrem, rfl⟩ := hc.remove_iff.mp hr
    exact ⟨hc.without hop hrem, (shrinks_without hop (isRemovable_iff.mp hrem).1).keeps⟩

theorem Consistent.keeps_eliminateDeadCode {g : Graph} (hc : g.Consistent) :
    (leaves (Graph.eliminateDeadCode g)).Consistent ∧
      g.Keeps (leaves (Graph.eliminateDeadCode g)) := by
  obtain ⟨n, h, hok, hcons, hshr⟩ := hc.eliminateDeadCode
  rw [hok]
  exact ⟨hcons, hshr.keeps⟩

/-- A link that is refused early changes nothing. -/
theorem eq_of_early_link {g h : Graph} {id : OpId} {e : Refusal} (herr : link id g = .error e h)
    (he : e.isEarly = true) : h = g := by
  unfold link at herr
  split at herr
  next => cases herr; rfl
  next =>
    split at herr
    next => cases herr; rfl
    next =>
      split at herr
      next => cases herr
      next hl =>
        cases herr
        rw [Operation.not_early_of_link hl] at he
        cases he

/-- Adding and linking in one call is adding, then linking. -/
theorem addLinked_eq (op : Operation) (g : Graph) :
    leaves (addLinked op g) =
        leaves (Graph.link ⟨g.nodes.next⟩ { g with nodes := g.nodes.push { op } }) ∧
      isSettled (addLinked op g) =
        isSettled (Graph.link ⟨g.nodes.next⟩ { g with nodes := g.nodes.push { op } }) := by
  simp only [addLinked, add, bind, EStateM.bind]
  cases Graph.link ⟨g.nodes.next⟩ { g with nodes := g.nodes.push { op } } <;> exact ⟨rfl, rfl⟩

/-- A consistent graph whose linked operations define outputs, where all that operations name as
output is among `handed` and no two of them name the same one of `outputs`. -/
structure Unshared (outputs : ValueId → Prop) (handed : List ValueId) (g : Graph) : Prop where
  consistent : g.Consistent
  defined : ∀ {id op v x}, g.linked? id = some op → op.output = some v → g.value? v = some x →
    x.origin = .output
  handed : ∀ {id op v}, g.op? id = some op → op.output = some v → v ∈ handed
  apart : ∀ {a b p q v}, outputs v → g.op? a = some p → g.op? b = some q → p.output = some v →
    q.output = some v → a = b

section Unshared
variable {outputs : ValueId → Prop} {handed : List ValueId} {g : Graph}

theorem unshared_empty (outputs : ValueId → Prop) : Unshared outputs [] {} where
  consistent := consistent_empty
  defined hop := by simp [linked?, node?] at hop
  handed hop := by simp [op?, node?] at hop
  apart _ hop := by simp [op?, node?] at hop

theorem Unshared.keep {h : Graph} (hu : Unshared outputs handed g) (hc : h.Consistent)
    (hk : g.Keeps h) : Unshared outputs handed h where
  consistent := hc
  defined hop hv hx := by
    have hlive := hu.consistent.output_live (hk.linked hop) hv
    obtain ⟨y, hy⟩ := Option.isSome_iff_exists.mp hlive
    rw [hk.origin hy hx]
    exact hu.defined (hk.linked hop) hv hy
  handed hop hv := hu.handed (hk.op hop) hv
  apart hv hp hq := hu.apart hv (hk.op hp) (hk.op hq)

theorem Unshared.add (hu : Unshared outputs handed g) {op : Operation}
    (hnew : ∀ v, outputs v → (handed ++ op.output.toList).count v ≤ 1) :
    Unshared outputs (handed ++ op.output.toList) { g with nodes := g.nodes.push { op } } := by
  have hop (id : OpId) : ({ g with nodes := g.nodes.push { op } } : Graph).op? id =
      if id = ⟨g.nodes.next⟩ then some op else g.op? id := by
    unfold op?
    rw [node?_add]
    split <;> rfl
  have hfresh {v : ValueId} (hv : outputs v) (ho : op.output = some v) : v ∉ handed := by
    intro hmem
    have hpos := List.count_pos_iff.mpr hmem
    have hle := hnew v hv
    rw [ho, List.count_append] at hle
    simp only [Option.toList_some, List.count_singleton_self] at hle
    omega
  refine ⟨hu.consistent.add op, ?_, ?_, ?_⟩
  · intro id p v x hp hv hx
    have hn := linked?_eq_some_iff.mp hp
    rw [node?_add] at hn
    split at hn
    next => cases hn
    next => exact hu.defined (linked?_eq_some_iff.mpr hn) hv hx
  · intro id p v hp hv
    rw [hop] at hp
    split at hp
    next =>
      rw [← Option.some.inj hp] at hv
      simp [hv]
    next => exact List.mem_append_left _ (hu.handed hp hv)
  · intro a b p q v hout hp hq hv hw
    rw [hop] at hp hq
    split at hp <;> split at hq
    next ha hb => exact ha.trans hb.symm
    next =>
      rw [← Option.some.inj hp] at hv
      exact absurd (hu.handed hq hw) (hfresh hout hv)
    next =>
      rw [← Option.some.inj hq] at hw
      exact absurd (hu.handed hp hv) (hfresh hout hw)
    next => exact hu.apart hout hp hq hv hw

theorem Unshared.link (hu : Unshared outputs handed g) {id : OpId}
    (hs : isSettled (link id g) = true) : Unshared outputs handed (leaves (link id g)) := by
  cases hr : Graph.link id g with
  | error e h =>
    rw [hr] at hs
    rw [leaves, eq_of_early_link hr hs]
    exact hu
  | ok a h =>
    have hc := hu.consistent.link hr
    obtain ⟨op, hn, hable, rfl⟩ := link_iff.mp hr
    have hlinked := linked?_setLinked_true
      (g := { g with values := g.values.mapAll (op.record id) }) hn
    refine ⟨hc, ?_, ?_, ?_⟩
    · intro other p v y hp hv hy
      rw [leaves, hlinked] at hp
      rw [leaves, value?_mapAll_setLinked] at hy
      obtain ⟨x, hx, rfl⟩ := Option.map_eq_some_iff.mp hy
      split at hp
      next =>
        rw [← Option.some.inj hp] at hv
        obtain ⟨z, hz, horigin, _⟩ := hable.output v hv
        rw [show g.values.value? v = some x from hx] at hz
        rw [← Option.some.inj hz] at horigin
        exact horigin
      next =>
        have horigin := hu.defined hp hv hx
        exact horigin
    · intro other p v hp hv
      rw [leaves, op?_setLinked] at hp
      exact hu.handed hp hv
    · intro a b p q v hout hp hq
      rw [leaves, op?_setLinked] at hp hq
      exact hu.apart hout hp hq

/-- One call. -/
theorem Unshared.after (hu : Unshared outputs handed g) (r : Request)
    (hout : ∀ v x, g.value? v = some x → x.origin = .output → outputs v)
    (hnew : ∀ v, outputs v → (handed ++ r.handed?.toList).count v ≤ 1)
    (hs : r.settles g = true) : Unshared outputs (handed ++ r.handed?.toList) (r.after g) := by
  have hc := hu.consistent
  have hkeep {h : Graph} (hh : h.Consistent ∧ g.Keeps h) : Unshared outputs (handed ++ []) h := by
    rw [List.append_nil]
    exact hu.keep hh.1 hh.2
  cases r with
  | newConstant word size => exact hkeep (hc.keeps_create rfl rfl)
  | newEntry location => exact hkeep (hc.keeps_create rfl rfl)
  | newOutput size => exact hkeep (hc.keeps_create rfl rfl)
  | add op => exact hu.add hnew
  | link id =>
    show Unshared outputs (handed ++ []) (leaves (Graph.link id g))
    rw [List.append_nil]
    exact hu.link hs
  | addLinked op =>
    have heq := addLinked_eq op g
    simp only [Request.settles, Request.after, heq] at hs ⊢
    exact (hu.add hnew).link hs
  | unlink id => exact hkeep (hc.keeps_unlink id)
  | detach id =>
    refine hkeep (hc.keeps_detach ?_)
    intro op v hn hv other p hp hpv
    -- what a linked operation defines is an output, so it is named by that operation alone
    obtain ⟨x, hx⟩ := Option.isSome_iff_exists.mp (hc.output_live hp hpv)
    have hid : g.op? id = some op := by simp [op?, hn]
    have hsame := hu.apart (hout v x hx (hu.defined hp hpv hx)) (op?_of_linked? hp) hid hpv hv
    rw [hsame, linked?_eq_none_of_unlinked hn] at hp
    cases hp
  | remove id => exact hkeep (hc.keeps_remove id)
  | eliminateDeadCode => exact hkeep hc.keeps_eliminateDeadCode

/-- Any number of calls. -/
theorem Unshared.replay (hu : Unshared outputs handed g) (history : List Request)
    (hout : ∀ past, past <+: history → ∀ v x, (replay past g).value? v = some x →
      x.origin = .output → outputs v)
    (hnew : ∀ v, outputs v → (handed ++ history.filterMap Request.handed?).count v ≤ 1)
    (hs : settled history g = true) :
    Unshared outputs (handed ++ history.filterMap Request.handed?) (replay history g) := by
  induction history generalizing handed g with
  | nil => simpa [Graph.replay] using hu
  | cons r rest ih =>
    have hsplit : handed ++ (r :: rest).filterMap Request.handed? =
        handed ++ r.handed?.toList ++ rest.filterMap Request.handed? := by
      cases hr : r.handed? <;> simp [hr]
    rw [hsplit] at hnew ⊢
    obtain ⟨hfirst, hrest⟩ := Bool.and_eq_true_iff.mp hs
    have hstep : Unshared outputs (handed ++ r.handed?.toList) (r.after g) := by
      refine hu.after r (hout [] List.nil_prefix) ?_ hfirst
      intro v hv
      have hle := hnew v hv
      rw [List.count_append] at hle
      omega
    refine ih hstep ?_ hnew hrest
    intro past hpast
    exact hout (r :: past) ((List.prefix_cons_inj r).mpr hpast)

theorem replay_unshared (history : List Request)
    (hout : ∀ past, past <+: history → ∀ v x, (replay past {}).value? v = some x →
      x.origin = .output → (history.filterMap Request.handed?).count v ≤ 1)
    (hlink : settled history {} = true) : (replay history {}).Consistent := by
  let outputs (v : ValueId) : Prop :=
    ∃ past, past <+: history ∧ ∃ x, (replay past {}).value? v = some x ∧ x.origin = .output
  have hnew : ∀ v, outputs v → ([] ++ history.filterMap Request.handed?).count v ≤ 1 := by
    rintro v ⟨past, hpast, x, hx, horigin⟩
    exact hout past hpast v x hx horigin
  have hu := (unshared_empty outputs).replay history
    (fun past hpast v x hx horigin => ⟨past, hpast, x, hx, horigin⟩) hnew hlink
  exact hu.consistent

/-- Where no value at all is named twice, no output is. -/
theorem replay_consistent_of_nodup (history : List Request)
    (hout : (history.filterMap Request.handed?).Nodup) (hlink : settled history {} = true) :
    (replay history {}).Consistent :=
  replay_unshared history (fun _ _ v _ _ _ => List.nodup_iff_count_le_one.mp hout v) hlink

/-- The outputs there have been, read off the beginnings of a history. -/
theorem count_handed_le_one {history : List Request}
    (h : ∀ past ∈ history.inits, ∀ e ∈ (replay past {}).values.list, e.2.origin = .output →
      (history.filterMap Request.handed?).count e.1 ≤ 1) :
    ∀ past, past <+: history → ∀ v x, (replay past {}).value? v = some x →
      x.origin = .output → (history.filterMap Request.handed?).count v ≤ 1 := by
  intro past hpast v x hx
  exact h past ((List.mem_inits _ _).mpr hpast) (v, x) (Values.mem_list.mpr hx)

end Unshared

theorem settled_append (past rest : List Request) (g : Graph) :
    settled (past ++ rest) g = (settled past g && settled rest (replay past g)) := by
  induction past generalizing g with
  | nil => rfl
  | cons r past ih => simp only [List.cons_append, settled, replay, ih, Bool.and_assoc]

/-- Use-def consistency is an invariant of the calls: it holds after every call of a history from
the empty graph in which no output is given to two operations and no link stops halfway. -/
theorem replay_consistent (history : List Request)
    (hout : ∀ past, past <+: history → ∀ v x, (replay past {}).value? v = some x →
      x.origin = .output → (history.filterMap Request.handed?).count v ≤ 1)
    (hlink : settled history {} = true) (past : List Request) (hpast : past <+: history) :
    (replay past {}).Consistent := by
  apply replay_unshared past
  · intro earlier hearlier v x hx horigin
    have hall := hout earlier (hearlier.trans hpast) v x hx horigin
    have hle := (hpast.sublist.filterMap Request.handed?).count_le v
    exact hle.trans hall
  · obtain ⟨rest, rfl⟩ := hpast
    rw [settled_append, Bool.and_eq_true] at hlink
    exact hlink.1

/-- A history with a repeated operand, a link refused, two operations that name a constant as their
output, a removal refused, a call on an operation that is not there, and an operation taken out. -/
def mixedHistory : List Request :=
  [.newConstant 4 8, .newOutput 8, .add (.binary .intAdd ⟨1⟩ ⟨0⟩ ⟨0⟩), .link ⟨0⟩, .link ⟨0⟩,
   .newOutput 8, .addLinked (.copy ⟨2⟩ ⟨1⟩), .add (.copy ⟨0⟩ ⟨1⟩), .add (.unary .intNegate ⟨0⟩ ⟨1⟩),
   .remove ⟨0⟩, .link ⟨7⟩, .unlink ⟨1⟩, .detach ⟨1⟩]

theorem mixedHistory_consistent :
    (mixedHistory.filterMap Request.handed?).count ⟨0⟩ = 2 ∧
      (∀ past, past <+: mixedHistory → ∀ v x, (replay past {}).value? v = some x →
        x.origin = .output → (mixedHistory.filterMap Request.handed?).count v ≤ 1) ∧
      settled mixedHistory {} = true ∧
      ∀ past, past <+: mixedHistory → (replay past {}).Consistent := by
  have hout := @count_handed_le_one mixedHistory (by decide)
  have hlink : settled mixedHistory {} = true := by decide
  exact ⟨by decide, hout, hlink, replay_consistent mixedHistory hout hlink⟩

end Graph
end DefUse
