import Mathlib.Logic.Function.Basic
import DefUse.Proofs.Graph.Order

namespace DefUse

/-- What operations give and do, on values `α` and memories `μ`. -/
structure Meaning (α μ : Type) where
  /-- The result of an operation that touches no memory. -/
  compute : Operation → List α → α
  /-- What a load finds. -/
  fetch : Operation → List α → μ → α
  /-- The result of an operation with effects, and the memory it leaves. -/
  affect : Operation → List α → μ → α × μ

@[ext]
structure Run (α μ : Type) where
  env : ValueId → α
  memory : μ
  log : List ((OpId × Operation) × List α) := []

namespace Meaning
variable {α μ : Type}

def result (m : Meaning α μ) (op : Operation) (args : List α) (memory : μ) : α :=
  if op.hasEffects then (m.affect op args memory).1
  else if op.isOrdered then m.fetch op args memory
  else m.compute op args

def memoryAfter (m : Meaning α μ) (op : Operation) (args : List α) (memory : μ) : μ :=
  if op.hasEffects then (m.affect op args memory).2 else memory

/-- One operation: its operands are looked up, its output is set. -/
def step (m : Meaning α μ) (r : Run α μ) (x : OpId × Operation) : Run α μ where
  env := match x.2.output with
    | none => r.env
    | some out => Function.update r.env out (m.result x.2 (x.2.inputs.map r.env) r.memory)
  memory := m.memoryAfter x.2 (x.2.inputs.map r.env) r.memory
  log := if x.2.hasEffects then r.log ++ [(x, x.2.inputs.map r.env)] else r.log

def run (m : Meaning α μ) (r : Run α μ) (code : List (OpId × Operation)) : Run α μ :=
  code.foldl m.step r

theorem run_cons (m : Meaning α μ) (r : Run α μ) (x : OpId × Operation)
    (code : List (OpId × Operation)) : m.run r (x :: code) = m.run (m.step r x) code := rfl

theorem run_append (m : Meaning α μ) (r : Run α μ) (code rest : List (OpId × Operation)) :
    m.run r (code ++ rest) = m.run (m.run r code) rest :=
  List.foldl_append

/-- Only the output is set. -/
theorem env_step_of_ne (m : Meaning α μ) (r : Run α μ) {x : OpId × Operation} {v : ValueId}
    (h : x.2.output ≠ some v) : (m.step r x).env v = r.env v := by
  unfold step
  cases ho : x.2.output with
  | none => rfl
  | some out =>
    have hne : v ≠ out := fun he => h (by rw [ho, he])
    simp [Function.update_of_ne hne]

theorem env_step_output (m : Meaning α μ) (r : Run α μ) {x : OpId × Operation} {v : ValueId}
    (h : x.2.output = some v) :
    (m.step r x).env v = m.result x.2 (x.2.inputs.map r.env) r.memory := by
  simp [step, h]

theorem env_run_of_ne (m : Meaning α μ) (r : Run α μ) {code : List (OpId × Operation)}
    {v : ValueId} (h : ∀ x ∈ code, x.2.output ≠ some v) : (m.run r code).env v = r.env v := by
  induction code generalizing r with
  | nil => rfl
  | cons x code ih =>
    rw [run_cons, ih _ fun y hy => h y (List.mem_cons_of_mem x hy)]
    exact m.env_step_of_ne r (h x List.mem_cons_self)

/-- An operation without effects leaves memory and log alone. -/
theorem step_of_not_effects (m : Meaning α μ) (r : Run α μ) {x : OpId × Operation}
    (h : x.2.hasEffects = false) :
    (m.step r x).memory = r.memory ∧ (m.step r x).log = r.log := by
  simp [step, memoryAfter, h]

end Meaning

theorem Operation.hasEffects_of_not_isOrdered {op : Operation} (h : op.isOrdered = false) :
    op.hasEffects = false := by
  cases op with
  | load out space offset => rfl
  | _ => exact h

/-- Neither reads what the other defines, they define different values, and they are not both
ordered. -/
structure Operation.Independent (p q : Operation) : Prop where
  left : ∀ v, p.output = some v → v ∉ q.inputs
  right : ∀ v, q.output = some v → v ∉ p.inputs
  outputs : ∀ v, p.output = some v → q.output ≠ some v
  order : p.isOrdered = true → q.isOrdered = false

theorem Operation.Independent.symm {p q : Operation} (h : p.Independent q) : q.Independent p where
  left := h.right
  right := h.left
  outputs v hq hp := h.outputs v hp hq
  order hq := by
    cases hp : p.isOrdered with
    | false => rfl
    | true => rw [h.order hp] at hq; cases hq

namespace Meaning
variable {α μ : Type}

theorem args_step (m : Meaning α μ) (r : Run α μ) {x : OpId × Operation} {inputs : List ValueId}
    (h : ∀ v, x.2.output = some v → v ∉ inputs) :
    inputs.map (m.step r x).env = inputs.map r.env := by
  apply List.map_congr_left
  intro v hv
  exact m.env_step_of_ne r fun ho => h v ho hv

/-- An operation gives the same before and after an independent one. -/
theorem result_step (m : Meaning α μ) (r : Run α μ) {x y : OpId × Operation}
    (h : x.2.Independent y.2) :
    m.result y.2 (y.2.inputs.map (m.step r x).env) (m.step r x).memory =
      m.result y.2 (y.2.inputs.map r.env) r.memory := by
  rw [m.args_step r h.left]
  cases hy : y.2.isOrdered with
  | false => simp [result, hy, Operation.hasEffects_of_not_isOrdered hy]
  | true =>
    have hx := Operation.hasEffects_of_not_isOrdered (h.symm.order hy)
    rw [(m.step_of_not_effects r hx).1]

/-- Independent operations can change places. -/
theorem step_comm (m : Meaning α μ) (r : Run α μ) {x y : OpId × Operation}
    (h : x.2.Independent y.2) : m.step (m.step r x) y = m.step (m.step r y) x := by
  -- one of the two has no effects, whichever it is
  have heffects : x.2.hasEffects = false ∨ y.2.hasEffects = false := by
    cases hx : x.2.isOrdered with
    | false => exact Or.inl (Operation.hasEffects_of_not_isOrdered hx)
    | true => exact Or.inr (Operation.hasEffects_of_not_isOrdered (h.order hx))
  have hargsX := m.args_step r h.right
  have hargsY := m.args_step r h.left
  apply Run.ext
  · funext v
    by_cases hx : x.2.output = some v
    · have hy := h.outputs v hx
      rw [m.env_step_of_ne _ hy, m.env_step_output _ hx, m.env_step_output _ hx]
      exact (m.result_step r h.symm).symm
    · rw [m.env_step_of_ne _ hx]
      by_cases hy : y.2.output = some v
      · rw [m.env_step_output _ hy, m.env_step_output _ hy]
        exact m.result_step r h
      · rw [m.env_step_of_ne _ hy, m.env_step_of_ne _ hx, m.env_step_of_ne _ hy]
  · rcases heffects with hx | hy
    · rw [(m.step_of_not_effects _ hx).1]
      simp only [step, memoryAfter, hx, Bool.false_eq_true, if_false] at hargsY ⊢
      rw [hargsY]
    · rw [(m.step_of_not_effects _ hy).1]
      simp only [step, memoryAfter, hy, Bool.false_eq_true, if_false] at hargsX ⊢
      rw [hargsX]
  · rcases heffects with hx | hy
    · rw [(m.step_of_not_effects _ hx).2]
      simp only [step, hx, Bool.false_eq_true, if_false] at hargsY ⊢
      rw [hargsY]
    · rw [(m.step_of_not_effects _ hy).2]
      simp only [step, hy, Bool.false_eq_true, if_false] at hargsX ⊢
      rw [hargsX]

end Meaning

namespace Graph

/-- The operations that an order names, with their ids. -/
def code (g : Graph) (order : List OpId) : List (OpId × Operation) :=
  order.filterMap fun id => (g.linked? id).map (id, ·)

theorem code_cons {g : Graph} {id : OpId} {op : Operation} (h : g.linked? id = some op)
    (order : List OpId) : g.code (id :: order) = (id, op) :: g.code order := by
  simp [code, h]

/-- Two operations that can both come next are independent. -/
theorem Consistent.independent {g : Graph} (hc : g.Consistent) {done : Set OpId} {a b : OpId}
    {p q : Operation} (hab : a ≠ b) (hp : g.linked? a = some p) (hq : g.linked? b = some q)
    (ha : a ∉ done) (hb : b ∉ done) (hna : ∀ d, g.Needs a d → d ∈ done)
    (hnb : ∀ d, g.Needs b d → d ∈ done) : p.Independent q := by
  -- an operation that reads what another defines needs it
  have hreads {c d : OpId} {s t : Operation} (hs : g.linked? c = some s)
      (ht : g.linked? d = some t) {v : ValueId} (hv : s.output = some v) (hin : v ∈ t.inputs) :
      g.Needs d c := by
    obtain ⟨x, hx⟩ := Option.isSome_iff_exists.mp (hc.output_live hs hv)
    exact ⟨t, ht, Or.inl ⟨v, hin, x, hx, (hc.definer_iff hx c).mpr ⟨s, hs, hv⟩⟩⟩
  refine ⟨?_, ?_, ?_, ?_⟩
  · intro v hv hin
    exact ha (hnb a (hreads hp hq hv hin))
  · intro v hv hin
    exact hb (hna b (hreads hq hp hv hin))
  · intro v hv hv'
    exact hab (hc.output_inj hp hq hv hv')
  · intro hpo
    by_contra hqo
    have hqo : q.isOrdered = true := by simpa using hqo
    have hindex : a.index ≠ b.index := by
      intro heq
      cases a
      cases b
      exact hab (congrArg OpId.mk heq)
    rcases Nat.lt_or_gt_of_ne hindex with hlt | hlt
    · exact ha (hnb a ⟨q, hq, Or.inr ⟨hqo, hlt, p, hp, hpo⟩⟩)
    · exact hb (hna b ⟨p, hp, Or.inr ⟨hpo, hlt, q, hq, hqo⟩⟩)

/-- An operation that is ready can be done early. -/
theorem Feasible.insert_erase {g : Graph} {done : Set OpId} {order : List OpId}
    (h : g.Feasible done order) {id : OpId} (hneeds : ∀ d, g.Needs id d → d ∈ done) :
    g.Feasible (insert id done) (order.erase id) := by
  induction order generalizing done with
  | nil => trivial
  | cons a rest ih =>
    obtain ⟨ha, hna, hrest⟩ := h
    by_cases heq : a = id
    · rw [heq, List.erase_cons_head]
      rw [heq] at hrest
      exact hrest
    · rw [List.erase_cons_tail (by simpa using heq)]
      refine ⟨?_, fun d hd => Set.mem_insert_of_mem id (hna d hd), ?_⟩
      · rw [Set.mem_insert_iff]
        exact not_or.mpr ⟨heq, ha⟩
      · rw [Set.insert_comm]
        exact ih hrest fun d hd => Set.mem_insert_of_mem a (hneeds d hd)

variable {α μ : Type}

/-- Moving a ready operation to the front does not change the run. -/
theorem Consistent.run_move_to_front {g : Graph} (hc : g.Consistent) (m : Meaning α μ)
    {done : Set OpId} {order : List OpId} (h : g.Feasible done order)
    (hlinked : ∀ a ∈ order, (g.linked? a).isSome = true) {id : OpId} (hnew : id ∉ done)
    (hneeds : ∀ d, g.Needs id d → d ∈ done) (hmem : id ∈ order) (r : Run α μ) :
    m.run r (g.code order) = m.run r (g.code (id :: order.erase id)) := by
  induction order generalizing done r with
  | nil => cases hmem
  | cons a rest ih =>
    by_cases heq : a = id
    · rw [heq, List.erase_cons_head]
    · obtain ⟨ha, hna, hrest⟩ := h
      obtain ⟨p, hp⟩ := Option.isSome_iff_exists.mp (hlinked a List.mem_cons_self)
      obtain ⟨q, hq⟩ := Option.isSome_iff_exists.mp (hlinked id hmem)
      have hmem' : id ∈ rest := (List.mem_cons.mp hmem).resolve_left (Ne.symm heq)
      have hnew' : id ∉ insert a done := by
        rw [Set.mem_insert_iff]
        exact not_or.mpr ⟨Ne.symm heq, hnew⟩
      have hfront := ih hrest (fun b hb => hlinked b (List.mem_cons_of_mem a hb)) hnew'
        (fun d hd => Set.mem_insert_of_mem a (hneeds d hd)) hmem' (m.step r (a, p))
      have hind : p.Independent q := hc.independent heq hp hq ha hnew hna hneeds
      rw [List.erase_cons_tail (by simpa using heq)]
      calc m.run r (g.code (a :: rest))
          = m.run (m.step r (a, p)) (g.code (id :: rest.erase id)) := by
            rw [code_cons hp, Meaning.run_cons, hfront]
        _ = m.run (m.step (m.step r (a, p)) (id, q)) (g.code (rest.erase id)) := by
            rw [code_cons hq, Meaning.run_cons]
        _ = m.run (m.step (m.step r (id, q)) (a, p)) (g.code (rest.erase id)) := by
            rw [m.step_comm r (x := (a, p)) (y := (id, q)) hind]
        _ = m.run r (g.code (id :: a :: rest.erase id)) := by
            rw [code_cons hq, code_cons hp, Meaning.run_cons, Meaning.run_cons]

/-- Feasible orders of the same operations give the same run. -/
theorem Consistent.run_eq_of_perm {g : Graph} (hc : g.Consistent) (m : Meaning α μ)
    {done : Set OpId} {first second : List OpId} (h₁ : g.Feasible done first)
    (h₂ : g.Feasible done second) (hperm : first.Perm second)
    (hlinked : ∀ a ∈ first, (g.linked? a).isSome = true) (r : Run α μ) :
    m.run r (g.code first) = m.run r (g.code second) := by
  induction first generalizing done second r with
  | nil => rw [List.perm_nil.mp hperm.symm]
  | cons id rest ih =>
    obtain ⟨hnew, hneeds, hrest⟩ := h₁
    have hmem : id ∈ second := hperm.mem_iff.mp List.mem_cons_self
    have hlinked₂ : ∀ a ∈ second, (g.linked? a).isSome = true :=
      fun a ha => hlinked a (hperm.mem_iff.mpr ha)
    have hperm' : rest.Perm (second.erase id) :=
      List.Perm.cons_inv (hperm.trans (List.perm_cons_erase hmem))
    obtain ⟨op, hop⟩ := Option.isSome_iff_exists.mp (hlinked id List.mem_cons_self)
    rw [hc.run_move_to_front m h₂ hlinked₂ hnew hneeds hmem r, code_cons hop, code_cons hop,
      Meaning.run_cons, Meaning.run_cons]
    exact ih hrest (h₂.insert_erase hneeds) hperm'
      (fun a ha => hlinked a (List.mem_cons_of_mem id ha)) (m.step r (id, op))

/-- All arrangements of a graph give the same run. -/
theorem Consistent.run_eq {g : Graph} (hc : g.Consistent) (m : Meaning α μ)
    {first second : List OpId} (h₁ : g.Arranges first) (h₂ : g.Arranges second) (r : Run α μ) :
    m.run r (g.code first) = m.run r (g.code second) := by
  have hperm : first.Perm second := by
    rw [List.perm_ext_iff_of_nodup h₁.feasible.nodup h₂.feasible.nodup]
    intro id
    rw [h₁.mem_iff, h₂.mem_iff]
  exact hc.run_eq_of_perm m h₁.feasible h₂.feasible hperm (fun a ha => (h₁.mem_iff a).mp ha) r

end Graph
end DefUse
