import DefUse.Proofs.Graph.Edits

namespace DefUse

namespace Slots
variable {α : Type} {s t : Slots α}

theorem filled_push (s : Slots α) (a : α) : (s.push a).filled = s.filled + 1 := by
  simp [push, filled, List.countP_append]

theorem length_entries (s : Slots α) : s.entries.length = s.filled := by
  have hfst : s.cells.zipIdx.map Prod.fst = s.cells := List.zipIdx_map_fst ..
  rw [entries, List.length_filterMap_eq_countP, filled]
  conv_rhs => rw [← hfst, List.countP_map]
  apply List.countP_congr
  intro e _
  simp

/-- One change to a table. A cell is emptied only where one is filled, and then the count that goes
down is not zero. -/
inductive Move : Slots α → Slots α → Prop
  | push (s : Slots α) (a : α) : Move s (s.push a)
  | modify (s : Slots α) (i : Nat) (f : α → α) : Move s (s.modify i f)
  | erase {s : Slots α} {i : Nat} {a : α} (filled : s.get? i = some a) (counted : 0 < s.live) :
    Move s (s.erase i)

abbrev Moves : Slots α → Slots α → Prop :=
  Relation.ReflTransGen Move

/-- The count stays that of the filled cells. -/
theorem Move.live_eq (h : Move s t) (hs : s.live = s.filled) : t.live = t.filled := by
  cases h with
  | push a => rw [filled_push, ← hs]; rfl
  | modify i f => rw [filled_modify, ← hs]; rfl
  | @erase i a hfilled _ =>
    have hfewer := filled_erase hfilled
    have hlive : (s.erase i).live = s.live - 1 := by simp only [Slots.erase, hfilled]
    omega

theorem Moves.live_eq (h : Moves s t) (hs : s.live = s.filled) : t.live = t.filled := by
  induction h with
  | refl => exact hs
  | tail _ hmove ih => exact hmove.live_eq ih

/-- Where the count is right, emptying any cell is such a change or none. -/
theorem moves_erase (hs : s.live = s.filled) (i : Nat) : s.Moves (s.erase i) := by
  cases hi : s.get? i with
  | none =>
    have hsame : s.erase i = s := by simp only [erase, hi]
    rw [hsame]
  | some a =>
    have hfewer := filled_erase hi
    exact .single (.erase hi (by omega))

/-- A number that was given out and has no cell stays without one. -/
theorem Move.get?_eq_none (h : Move s t) {i : Nat} (hi : i < s.next) (hnone : s.get? i = none) :
    i < t.next ∧ t.get? i = none := by
  cases h with
  | push a =>
    have hne : i ≠ s.next := by omega
    rw [next_push, get?_push, if_neg hne]
    exact ⟨by omega, hnone⟩
  | modify j f =>
    rw [next_modify, get?_modify, hnone]
    exact ⟨hi, by split <;> rfl⟩
  | erase =>
    rw [next_erase, get?_erase, hnone]
    exact ⟨hi, by split <;> rfl⟩

theorem Moves.get?_eq_none (h : Moves s t) {i : Nat} (hi : i < s.next) (hnone : s.get? i = none) :
    i < t.next ∧ t.get? i = none := by
  induction h with
  | refl => exact ⟨hi, hnone⟩
  | tail _ hmove ih => exact hmove.get?_eq_none ih.1 ih.2

/-- Between two tables with a third in between: what the first has and the second has not, the third
has not. -/
theorem Moves.gone {u : Slots α} (hst : Moves s t) (htu : Moves t u) {i : Nat}
    (hlive : (s.get? i).isSome = true) (hnone : t.get? i = none) : u.get? i = none := by
  obtain ⟨a, ha⟩ := Option.isSome_iff_exists.mp hlive
  have hissued : i < t.next := by
    clear hnone htu
    induction hst with
    | refl => exact lt_next_of_get? ha
    | tail _ hmove ih =>
      cases hmove with
      | push a => rw [next_push]; omega
      | modify j f => rwa [next_modify]
      | erase => rwa [next_erase]
  exact (htu.get?_eq_none hissued hnone).2

end Slots

namespace Graph

/-- Both counts are right. -/
structure Counted (g : Graph) : Prop where
  values : g.values.live = g.values.filled
  nodes : g.nodes.live = g.nodes.filled

theorem counted_empty : Counted {} := ⟨rfl, rfl⟩

/-- Both tables change in small moves. -/
structure Moves (g h : Graph) : Prop where
  values : Slots.Moves g.values h.values
  nodes : Slots.Moves g.nodes h.nodes

variable {g h : Graph}

theorem Moves.counted (hm : g.Moves h) (hg : g.Counted) : h.Counted :=
  ⟨hm.values.live_eq hg.values, hm.nodes.live_eq hg.nodes⟩

theorem Change.moves (hc : Change g h) (hg : g.Counted) : g.Moves h := by
  cases hc with
  | uses v f => exact ⟨.single (.modify ..), .refl⟩
  | define id hx ho => exact ⟨.single (.modify ..), .refl⟩
  | undefine v => exact ⟨.single (.modify ..), .refl⟩
  | release v => exact ⟨Slots.moves_erase hg.values v.index, .refl⟩
  | setLinked id linked => exact ⟨.refl, .single (.modify ..)⟩
  | erase id => exact ⟨.refl, Slots.moves_erase hg.nodes id.index⟩

theorem Edit.moves (he : Edit g h) (hg : g.Counted) : g.Moves h := by
  cases he with
  | change hc => exact hc.moves hg
  | create hd hu => exact ⟨.single (.push ..), .refl⟩
  | add op => exact ⟨.refl, .single (.push ..)⟩

theorem Edits.moves (he : g.Edits h) (hg : g.Counted) : g.Moves h := by
  induction he with
  | refl => exact ⟨.refl, .refl⟩
  | tail _ hstep ih =>
    have hlast := hstep.moves (ih.counted hg)
    exact ⟨ih.values.trans hlast.values, ih.nodes.trans hlast.nodes⟩

/-- A change gives out no id. -/
theorem Change.next_eq (hc : Change g h) :
    h.values.next = g.values.next ∧ h.nodes.next = g.nodes.next := by
  cases hc with
  | uses v f => exact ⟨Slots.next_modify .., rfl⟩
  | define id hx ho => exact ⟨Slots.next_modify .., rfl⟩
  | undefine v => exact ⟨Slots.next_modify .., rfl⟩
  | release v => exact ⟨Slots.next_erase .., rfl⟩
  | setLinked id linked => exact ⟨rfl, Slots.next_modify ..⟩
  | erase id => exact ⟨rfl, Slots.next_erase ..⟩

theorem Changes.next_eq (hc : g.Changes h) :
    h.values.next = g.values.next ∧ h.nodes.next = g.nodes.next := by
  induction hc with
  | refl => exact ⟨rfl, rfl⟩
  | tail _ hstep ih => exact ⟨hstep.next_eq.1.trans ih.1, hstep.next_eq.2.trans ih.2⟩

namespace Request

def createsValue : Request → Bool
  | newConstant .. | newEntry _ | newOutput _ => true
  | _ => false

/-- A refused link leaves the operation in the graph. -/
def addsOp : Request → Bool
  | add _ | addLinked _ => true
  | _ => false

/-- One call gives out one id at most. -/
theorem next_after (r : Request) (g : Graph) :
    (r.after g).values.next = g.values.next + r.createsValue.toNat ∧
      (r.after g).nodes.next = g.nodes.next + r.addsOp.toNat := by
  have hcreate (x : Value) : (g.values.push x).next = g.values.next + 1 ∧
      g.nodes.next = g.nodes.next + 0 := ⟨Slots.next_push .., rfl⟩
  cases r with
  | newConstant word size => exact hcreate _
  | newEntry location => exact hcreate _
  | newOutput size => exact hcreate _
  | add op => exact ⟨rfl, Slots.next_push ..⟩
  | link id => exact (changes_link id g).next_eq
  | addLinked op =>
    have hlink := (changes_link ⟨g.nodes.next⟩ { g with nodes := g.nodes.push { op } }).next_eq
    rw [Slots.next_push] at hlink
    simp only [after, (addLinked_eq op g).1]
    exact hlink
  | unlink id => exact (changes_unlink id g).next_eq
  | detach id => exact (changes_detach id g).next_eq
  | remove id => exact (changes_remove id g).next_eq
  | eliminateDeadCode => exact (changes_sweep _ 0 g).next_eq

end Request

theorem next_replay (history : List Request) (g : Graph) :
    (replay history g).values.next = g.values.next + history.countP Request.createsValue ∧
      (replay history g).nodes.next = g.nodes.next + history.countP Request.addsOp := by
  induction history generalizing g with
  | nil => exact ⟨rfl, rfl⟩
  | cons r rest ih =>
    obtain ⟨hvalues, hnodes⟩ := ih (r.after g)
    obtain ⟨hvalue, hnode⟩ := r.next_after g
    rw [replay, List.countP_cons, List.countP_cons, hvalues, hnodes, hvalue, hnode]
    cases r.createsValue <;> cases r.addsOp <;> simp <;> omega

theorem replay_append (past rest : List Request) (g : Graph) :
    replay (past ++ rest) g = replay rest (replay past g) := by
  induction past generalizing g with
  | nil => rfl
  | cons r past ih => exact ih (r.after g)

theorem op?_link (id other : OpId) (g : Graph) :
    (leaves (link id g)).op? other = g.op? other := by
  unfold link
  cases g.node? id with
  | none => rfl
  | some node =>
    cases hl : node.linked with
    | true => simp only [hl, if_true, leaves]
    | false =>
      simp only [hl, Bool.false_eq_true, if_false]
      cases node.op.link id g.values with
      | ok u vs => exact op?_setLinked ..
      | error e vs => rfl

theorem op?_add (op : Operation) (g : Graph) :
    ({ g with nodes := g.nodes.push { op } } : Graph).op? ⟨g.nodes.next⟩ = some op := by
  rw [op?, node?_add, if_pos rfl]
  rfl

/-- The next value and the next operation get these numbers, whichever call makes them. An operation
that is added but whose link is refused has the number too. -/
structure Issues (value op : Nat) (g : Graph) : Prop where
  newConstant : ∀ word size, ∃ h, Graph.newConstant word size g = .ok ⟨value⟩ h ∧
    h.value? ⟨value⟩ = some { origin := .constant word, size }
  newEntry : ∀ l, ∃ h, Graph.newEntry l g = .ok ⟨value⟩ h ∧
    h.value? ⟨value⟩ = some { origin := .entry l, size := l.size }
  newOutput : ∀ size, ∃ h, Graph.newOutput size g = .ok ⟨value⟩ h ∧
    h.value? ⟨value⟩ = some { origin := .output, size }
  add : ∀ o, ∃ h, Graph.add o g = .ok ⟨op⟩ h ∧ h.op? ⟨op⟩ = some o
  addLinked : ∀ o, (∀ id h, Graph.addLinked o g = .ok id h → id = ⟨op⟩) ∧
    (leaves (Graph.addLinked o g)).op? ⟨op⟩ = some o

theorem issues_next (g : Graph) : g.Issues g.values.next g.nodes.next := by
  have hcreate (x : Value) : ∃ h, Graph.create x g = .ok ⟨g.values.next⟩ h ∧
      h.value? ⟨g.values.next⟩ = some x := by
    refine ⟨_, rfl, ?_⟩
    rw [value?_create, if_pos rfl]
  refine ⟨fun _ _ => hcreate _, fun _ => hcreate _, fun _ => hcreate _, ?_, ?_⟩
  · intro op
    exact ⟨_, rfl, op?_add op g⟩
  · intro op
    constructor
    · intro id h hok
      simp only [Graph.addLinked, Graph.add, bind, EStateM.bind] at hok
      split at hok
      next => cases hok; rfl
      next => cases hok
    · rw [(addLinked_eq op g).1, op?_link]
      exact op?_add op g

/-- After any history of calls, answered or refused: the next value and the next operation get the
number of those made before; what was live earlier and is gone is gone for good; both counts are
those of the live operations and values; and whatever calls come next, the tables change only by
moves that take nothing off a count of zero. -/
theorem ids_and_counts_are_exact (past rest : List Request) :
    (replay past {}).Issues (past.countP Request.createsValue) (past.countP Request.addsOp) ∧
    (∀ earlier, earlier <+: past →
      (∀ v, ((replay earlier {}).value? v).isSome = true → (replay past {}).value? v = none →
        (replay (past ++ rest) {}).value? v = none) ∧
      ∀ id, ((replay earlier {}).node? id).isSome = true → (replay past {}).node? id = none →
        (replay (past ++ rest) {}).node? id = none) ∧
    (replay past {}).nodes.live = (replay past {}).nodeList.length ∧
    (replay past {}).values.live = (replay past {}).values.list.length ∧
    (replay past {}).Moves (replay (past ++ rest) {}) := by
  have hcounted (history : List Request) : (replay history {}).Counted :=
    ((edits_replay history {}).moves counted_empty).counted counted_empty
  have hmoves (history more : List Request) :
      (replay history {}).Moves (replay (history ++ more) {}) := by
    rw [replay_append]
    exact (edits_replay more _).moves (hcounted history)
  refine ⟨?_, ?_, ?_, ?_, hmoves past rest⟩
  · have hissues := issues_next (replay past {})
    obtain ⟨hvalues, hnodes⟩ := next_replay past {}
    have hempty : ({} : Graph).values.next = 0 ∧ ({} : Graph).nodes.next = 0 := ⟨rfl, rfl⟩
    rwa [hvalues, hnodes, hempty.1, hempty.2, Nat.zero_add, Nat.zero_add] at hissues
  · rintro earlier ⟨middle, rfl⟩
    have hfirst := hmoves earlier middle
    have hthen := hmoves (earlier ++ middle) rest
    exact ⟨fun v => hfirst.values.gone hthen.values, fun id => hfirst.nodes.gone hthen.nodes⟩
  · rw [(hcounted past).nodes, ← Slots.length_entries]
    exact (List.length_map ..).symm
  · rw [(hcounted past).values, ← Slots.length_entries]
    exact (List.length_map ..).symm

end Graph
end DefUse
