import DefUse.Graph.Basic

namespace DefUse.Graph

theorem nodes_of_unlink {id : OpId} {g h : Graph} (hok : unlink id g = .ok () h) :
    ∃ node, g.node? id = some node ∧
      h.nodes = g.nodes.modify id.index fun node => { node with linked := false } := by
  unfold unlink at hok
  split at hok
  · simp at hok
  next node hn =>
    split at hok
    · split at hok
      · simp only [EStateM.Result.ok.injEq, true_and] at hok
        exact ⟨node, hn, by rw [← hok]; rfl⟩
      · simp at hok
    · simp at hok

theorem nodes_of_detach {id : OpId} {g h : Graph} {op : Operation} (hok : detach id g = .ok op h) :
    ∃ node, g.node? id = some node ∧ h.nodes = g.nodes.erase id.index := by
  unfold detach at hok
  split at hok
  · simp at hok
  next node hn =>
    split at hok
    · simp at hok
    · split at hok
      · simp only [EStateM.Result.ok.injEq] at hok
        exact ⟨node, hn, by rw [← hok.2]⟩
      · split at hok
        · simp at hok
        · simp only [EStateM.Result.ok.injEq] at hok
          exact ⟨node, hn, by rw [← hok.2]⟩

/-- A removal leaves one operation fewer. -/
theorem filled_of_remove {id : OpId} {g h : Graph} {op : Operation} (hok : remove id g = .ok op h) :
    h.nodes.filled < g.nodes.filled := by
  unfold remove at hok
  split at hok
  · simp at hok
  · split at hok
    · split at hok
      · split at hok
        next m hu =>
          obtain ⟨_, _, hm⟩ := nodes_of_unlink hu
          obtain ⟨node, hn, hd⟩ := nodes_of_detach hok
          have he := Slots.filled_erase hn
          rw [← hd, hm, Slots.filled_modify] at he
          omega
        · simp at hok
      · simp at hok
    · simp at hok

/-- After a removal: the definer of an input is looked at again, and an entry value or a constant
that nothing reads any more goes. -/
def settleInputs : List ValueId → List OpId → Graph → List OpId × Graph
  | [], work, g => (work, g)
  | v :: rest, work, g =>
    match g.value? v with
    | none => settleInputs rest work g
    | some value =>
      match value.definer with
      | some definer => settleInputs rest (definer :: work) g
      | none =>
        if value.isUsed || value.origin = .output then settleInputs rest work g
        else settleInputs rest work { g with values := g.values.release v }

theorem nodes_settleInputs (inputs : List ValueId) (work : List OpId) (g : Graph) :
    (settleInputs inputs work g).2.nodes = g.nodes := by
  induction inputs generalizing work g with
  | nil => rfl
  | cons v rest ih =>
    unfold settleInputs
    split
    · exact ih ..
    · split
      · exact ih ..
      · split <;> exact ih ..

/-- Works through the stack and counts the removals. -/
def sweep (work : List OpId) (removed : Nat) (g : Graph) : EStateM.Result Refusal Graph Nat :=
  match work with
  | [] => .ok removed g
  | id :: work =>
    match g.node? id with
    | none => sweep work removed g
    | some node =>
      if node.linked && node.op.isRemovable g.values then
        match h : remove id g with
        | .error e g => .error e g
        | .ok op g => sweep (settleInputs op.inputs work g).1 (removed + 1)
            (settleInputs op.inputs work g).2
      else sweep work removed g
termination_by (g.nodes.filled, work.length)
decreasing_by
  · exact Prod.Lex.right _ (Nat.lt_succ_self _)
  · rw [nodes_settleInputs]
    exact Prod.Lex.left _ _ (filled_of_remove h)
  · exact Prod.Lex.right _ (Nat.lt_succ_self _)

/-- Removes every operation that can be removed until none can, and answers how many went. Readers
are looked at before what they read. -/
def eliminateDeadCode : Call Graph Nat := fun g =>
  sweep (g.linkedOps.map (·.1)).reverse 0 g

end DefUse.Graph
