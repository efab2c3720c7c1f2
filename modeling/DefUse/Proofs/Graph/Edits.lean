import Mathlib.Logic.Relation
import DefUse.Proofs.Graph.History

namespace DefUse.Graph

/-- One change to the tables of a graph that gives out no id. -/
inductive Change : Graph → Graph → Prop
  | uses (g : Graph) (v : ValueId) (f : List Use → List Use) :
    Change g { g with values := g.values.modifyValue v fun x => { x with uses := f x.uses } }
  | define (g : Graph) {v : ValueId} {x : Value} (id : OpId) (hx : g.value? v = some x)
    (ho : x.origin = .output) :
    Change g { g with values := g.values.modifyValue v fun x => { x with definer := some id } }
  | undefine (g : Graph) (v : ValueId) :
    Change g { g with values := g.values.modifyValue v fun x => { x with definer := none } }
  | release (g : Graph) (v : ValueId) : Change g { g with values := g.values.release v }
  | setLinked (g : Graph) (id : OpId) (linked : Bool) : Change g (g.setLinked id linked)
  | erase (g : Graph) (id : OpId) : Change g { g with nodes := g.nodes.erase id.index }

/-- Any number of changes. -/
abbrev Changes : Graph → Graph → Prop :=
  Relation.ReflTransGen Change

/-- A change, a new value or a new operation. -/
inductive Edit : Graph → Graph → Prop
  | change {g h : Graph} (hc : Change g h) : Edit g h
  | create (g : Graph) {x : Value} (hd : x.definer = none) (hu : x.uses = []) :
    Edit g { g with values := g.values.push x }
  | add (g : Graph) (op : Operation) : Edit g { g with nodes := g.nodes.push { op } }

/-- Any number of edits. -/
abbrev Edits : Graph → Graph → Prop :=
  Relation.ReflTransGen Edit

theorem Changes.edits {g h : Graph} (hc : g.Changes h) : g.Edits h :=
  Relation.ReflTransGen.mono (fun _ _ => Edit.change) g h hc

/-- A call that does nothing to the values but changes. -/
def ChangesValues (c : Call Values Unit) : Prop :=
  ∀ g : Graph, match c g.values with
    | .ok _ vs => g.Changes { g with values := vs }
    | .error _ vs => g.Changes { g with values := vs }

theorem changesValues_pure : ChangesValues (pure ()) := fun _ => .refl

theorem ChangesValues.bind {c d : Call Values Unit} (hc : ChangesValues c) (hd : ChangesValues d) :
    ChangesValues (c >>= fun _ => d) := by
  intro g
  have hfirst := hc g
  simp only [Bind.bind, EStateM.bind]
  cases hr : c g.values with
  | error e vs =>
    rw [hr] at hfirst
    exact hfirst
  | ok u vs =>
    rw [hr] at hfirst
    have hsecond := hd { g with values := vs }
    simp only at hfirst hsecond ⊢
    cases hs : d vs with
    | ok u ws =>
      rw [hs] at hsecond
      exact hfirst.trans hsecond
    | error e ws =>
      rw [hs] at hsecond
      exact hfirst.trans hsecond

theorem changesValues_addUse (v : ValueId) (u : Use) : ChangesValues (Values.addUse v u) := by
  intro g
  unfold Values.addUse
  cases hx : g.values.value? v with
  | none => exact .refl
  | some x =>
    cases hu : x.hasUse u with
    | true =>
      simp only [hu, if_true]
      exact .refl
    | false =>
      simp only [hu, Bool.false_eq_true, if_false]
      exact .single (.uses g v (· ++ [u]))

theorem changesValues_removeUse (v : ValueId) (u : Use) : ChangesValues (Values.removeUse v u) := by
  intro g
  unfold Values.removeUse
  cases hx : g.values.value? v with
  | none => exact .refl
  | some x =>
    cases hu : x.hasUse u with
    | true =>
      simp only [hu, if_true]
      exact .single (.uses g v (·.erase u))
    | false =>
      simp only [hu, Bool.false_eq_true, if_false]
      exact .refl

theorem changesValues_define (v : ValueId) (id : OpId) : ChangesValues (Values.define v id) := by
  intro g
  unfold Values.define
  cases hx : g.values.value? v with
  | none => exact .refl
  | some x =>
    cases ho : x.origin with
    | constant word =>
      simp only [ho]
      exact .refl
    | entry location =>
      simp only [ho]
      exact .refl
    | output =>
      cases hd : x.definer with
      | none =>
        simp only [ho, hd]
        exact .single (.define g id hx ho)
      | some definer =>
        simp only [ho, hd]
        exact .refl

theorem changesValues_undefine (v : ValueId) (id : OpId) :
    ChangesValues (Values.undefine v id) := by
  intro g
  unfold Values.undefine
  cases hx : g.values.value? v with
  | none => exact .refl
  | some x =>
    by_cases hd : x.definer = some id
    · simp only [hd, if_true]
      exact .single (.undefine g v)
    · simp only [hd, if_false]
      exact .refl

theorem changesValues_addUses (id : OpId) (position : Nat) (inputs : List ValueId) :
    ChangesValues (Values.addUses id position inputs) := by
  induction inputs generalizing position with
  | nil => exact changesValues_pure
  | cons v rest ih => exact (changesValues_addUse v _).bind (ih _)

theorem changesValues_removeUses (id : OpId) (position : Nat) (inputs : List ValueId) :
    ChangesValues (Values.removeUses id position inputs) := by
  induction inputs generalizing position with
  | nil => exact changesValues_pure
  | cons v rest ih => exact (changesValues_removeUse v _).bind (ih _)

theorem changesValues_link (op : Operation) (id : OpId) : ChangesValues (op.link id) := by
  have huses := changesValues_addUses id 0 op.inputs
  unfold Operation.link
  cases op.output with
  | none => exact huses
  | some out => exact (changesValues_define out id).bind huses

theorem changesValues_unlink (op : Operation) (id : OpId) : ChangesValues (op.unlink id) := by
  have huses := changesValues_removeUses id 0 op.inputs
  unfold Operation.unlink
  cases op.output with
  | none => exact huses
  | some out => exact (changesValues_undefine out id).bind huses

theorem changes_link (id : OpId) (g : Graph) : g.Changes (leaves (link id g)) := by
  unfold link
  cases hn : g.node? id with
  | none => exact .refl
  | some node =>
    cases hl : node.linked with
    | true =>
      simp only [hl, if_true]
      exact .refl
    | false =>
      have hvalues := changesValues_link node.op id g
      simp only [hl, Bool.false_eq_true, if_false]
      cases hr : node.op.link id g.values with
      | ok u vs =>
        rw [hr] at hvalues
        exact hvalues.tail (.setLinked _ id true)
      | error e vs =>
        rw [hr] at hvalues
        exact hvalues

theorem changes_unlink (id : OpId) (g : Graph) : g.Changes (leaves (unlink id g)) := by
  unfold unlink
  cases hn : g.node? id with
  | none => exact .refl
  | some node =>
    cases hl : node.linked with
    | false =>
      simp only [hl, Bool.false_eq_true, if_false]
      exact .refl
    | true =>
      have hvalues := changesValues_unlink node.op id g
      simp only [hl, if_true]
      cases hr : node.op.unlink id g.values with
      | ok u vs =>
        rw [hr] at hvalues
        exact hvalues.tail (.setLinked _ id false)
      | error e vs =>
        rw [hr] at hvalues
        exact hvalues

theorem changes_detach (id : OpId) (g : Graph) : g.Changes (leaves (detach id g)) := by
  cases hr : detach id g with
  | error e h =>
    rw [leaves, (detach_error_iff.mp hr).1]
  | ok op h =>
    obtain ⟨_, _, rfl⟩ := detach_iff.mp hr
    have herase := Relation.ReflTransGen.single (Change.erase g id)
    cases op.output with
    | none => exact herase
    | some out => exact herase.tail (.release _ out)

theorem changes_remove (id : OpId) (g : Graph) : g.Changes (leaves (remove id g)) := by
  unfold remove
  split
  next => exact .refl
  next node _ =>
    split
    next =>
      split
      next =>
        have hunlink := changes_unlink id g
        split
        next u h hok =>
          rw [hok] at hunlink
          exact hunlink.trans (changes_detach id h)
        next e h herr =>
          rw [herr] at hunlink
          exact hunlink
      next => exact .refl
    next => exact .refl

theorem changes_settleInputs (inputs : List ValueId) (work : List OpId) (g : Graph) :
    g.Changes (settleInputs inputs work g).2 := by
  fun_induction settleInputs inputs work g with
  | case1 work g => exact .refl
  | case2 v rest work g hx ih => exact ih
  | case3 v rest work g x hx definer hd ih => exact ih
  | case4 v rest work g x hx hd hkeep ih => exact ih
  | case5 v rest work g x hx hd hdrop ih => exact .head (.release g v) ih

theorem changes_sweep (work : List OpId) (removed : Nat) (g : Graph) :
    g.Changes (leaves (sweep work removed g)) := by
  fun_induction sweep work removed g with
  | case1 removed g => exact .refl
  | case2 removed g id work hn ih => exact ih
  | case3 removed g id work node hn hrem e h herr =>
    have hremove := changes_remove id g
    rw [herr] at hremove
    exact hremove
  | case4 removed g id work node hn hrem op h hok ih =>
    have hremove := changes_remove id g
    rw [hok] at hremove
    exact (hremove.trans (changes_settleInputs op.inputs work h)).trans ih
  | case5 removed g id work node hn hrem ih => exact ih

/-- One call, answered or refused, makes edits only. -/
theorem Request.edits (r : Request) (g : Graph) : g.Edits (r.after g) := by
  cases r with
  | newConstant word size => exact .single (.create g rfl rfl)
  | newEntry location => exact .single (.create g rfl rfl)
  | newOutput size => exact .single (.create g rfl rfl)
  | add op => exact .single (.add g op)
  | link id => exact (changes_link id g).edits
  | addLinked op =>
    simp only [Request.after, (addLinked_eq op g).1]
    exact .head (.add g op) (changes_link ⟨g.nodes.next⟩ _).edits
  | unlink id => exact (changes_unlink id g).edits
  | detach id => exact (changes_detach id g).edits
  | remove id => exact (changes_remove id g).edits
  | eliminateDeadCode => exact (changes_sweep _ 0 g).edits

/-- Any number of calls. -/
theorem edits_replay (history : List Request) (g : Graph) : g.Edits (replay history g) := by
  induction history generalizing g with
  | nil => exact .refl
  | cons r rest ih => exact (r.edits g).trans (ih (r.after g))

/-- Only outputs have a definer. The calls see to it, refused or not: `definesOutputs_replay`. -/
def DefinesOutputs (g : Graph) : Prop :=
  ∀ v x, g.value? v = some x → x.definer ≠ none → x.origin = .output

theorem DefinesOutputs.modifyValue {g : Graph} (hg : g.DefinesOutputs) {v : ValueId}
    {f : Value → Value} (hf : ∀ x, g.value? v = some x →
      (x.definer ≠ none → x.origin = .output) → (f x).definer ≠ none → (f x).origin = .output) :
    ({ g with values := g.values.modifyValue v f } : Graph).DefinesOutputs := by
  intro w y hy hdef
  have hvalue : (if v = w then (g.value? w).map f else g.value? w) = some y := by
    rw [← hy]
    exact (Values.value?_modifyValue g.values v w f).symm
  split at hvalue
  next he =>
    obtain ⟨x, hx, rfl⟩ := Option.map_eq_some_iff.mp hvalue
    rw [← he] at hx
    exact hf x hx (hg v x hx) hdef
  next => exact hg w y hvalue hdef

/-- One change. -/
theorem DefinesOutputs.change {g h : Graph} (hg : g.DefinesOutputs) (hc : Change g h) :
    h.DefinesOutputs := by
  cases hc with
  | uses v f => exact hg.modifyValue fun x _ hx => hx
  | define id hx ho =>
    apply hg.modifyValue
    intro y hy _ _
    rw [hx] at hy
    cases hy
    exact ho
  | undefine v => exact hg.modifyValue fun x _ _ hdef => absurd rfl hdef
  | release v =>
    intro w y hy hdef
    rw [value?_release] at hy
    split at hy
    next => cases hy
    next => exact hg w y hy hdef
  | setLinked id linked => exact hg
  | erase id => exact hg

/-- One edit. -/
theorem DefinesOutputs.edit {g h : Graph} (hg : g.DefinesOutputs) (he : Edit g h) :
    h.DefinesOutputs := by
  cases he with
  | change hc => exact hg.change hc
  | create hd hu =>
    intro v y hy hdef
    rw [value?_create] at hy
    split at hy
    next =>
      cases hy
      exact absurd hd hdef
    next => exact hg v y hy hdef
  | add op => exact hg

theorem DefinesOutputs.edits {g h : Graph} (hg : g.DefinesOutputs) (he : g.Edits h) :
    h.DefinesOutputs := by
  induction he with
  | refl => exact hg
  | tail _ hstep ih => exact ih.edit hstep

theorem definesOutputs_replay (history : List Request) : (replay history {}).DefinesOutputs := by
  have hempty : ({} : Graph).DefinesOutputs := by
    intro v x hx
    simp [value?, Values.value?] at hx
  exact hempty.edits (edits_replay history {})

end DefUse.Graph
