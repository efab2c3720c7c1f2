import DefUse.Graph.DeadCode
import DefUse.Proofs.Graph.Consistent

namespace DefUse.Graph

/-- `h` is `g` less some linked operations without effects and some values. -/
structure Shrinks (g h : Graph) : Prop where
  node : ∀ id, h.node? id = g.node? id ∨
    (h.node? id = none ∧ ∃ op, g.linked? id = some op ∧ op.hasEffects = false)
  value : ∀ {v x}, h.value? v = some x →
    ∃ y, g.value? v = some y ∧ y.origin = x.origin ∧ y.size = x.size ∧ y.definer = x.definer

theorem Shrinks.refl (g : Graph) : g.Shrinks g where
  node _ := Or.inl rfl
  value hx := ⟨_, hx, rfl, rfl, rfl⟩

theorem Shrinks.linked? {g h : Graph} (hs : g.Shrinks h) {id : OpId} {op : Operation}
    (hop : h.linked? id = some op) : g.linked? id = some op := by
  rcases hs.node id with he | ⟨hnone, _⟩
  · rwa [linked?_congr he] at hop
  · rw [linked?_eq_some_iff, hnone] at hop
    cases hop

theorem Shrinks.trans {g h k : Graph} (hgh : g.Shrinks h) (hhk : h.Shrinks k) : g.Shrinks k where
  node id := by
    rcases hhk.node id with he | ⟨hnone, op, hop, heff⟩
    · rw [he]
      exact hgh.node id
    · exact Or.inr ⟨hnone, op, hgh.linked? hop, heff⟩
  value hx := by
    obtain ⟨y, hy, ho, hs, hd⟩ := hhk.value hx
    obtain ⟨z, hz, ho', hs', hd'⟩ := hgh.value hy
    exact ⟨z, hz, ho'.trans ho, hs'.trans hs, hd'.trans hd⟩

theorem shrinks_without {g : Graph} {id : OpId} {op : Operation} (hop : g.linked? id = some op)
    (heff : op.hasEffects = false) : g.Shrinks (g.without id op) where
  node other := by
    rw [node?_without]
    split
    next he => exact Or.inr ⟨rfl, op, he ▸ hop, heff⟩
    next => exact Or.inl rfl
  value {v x} hx := by
    rw [value?_without] at hx
    split at hx
    next => cases hx
    next hout =>
      obtain ⟨y, hy, rfl⟩ := Option.map_eq_some_iff.mp hx
      exact ⟨y, hy, rfl, rfl, by simp [Operation.unrecord, hout]⟩

theorem shrinks_release (g : Graph) (v : ValueId) :
    g.Shrinks { g with values := g.values.release v } where
  node _ := Or.inl rfl
  value {w x} hx := by
    rw [value?_release] at hx
    split at hx
    next => cases hx
    next => exact ⟨x, hx, rfl, rfl, rfl⟩

theorem settleInputs_keeps {g : Graph} (hc : g.Consistent) (inputs : List ValueId)
    (work : List OpId) :
    (settleInputs inputs work g).2.Consistent ∧ g.Shrinks (settleInputs inputs work g).2 := by
  induction inputs, work, g using settleInputs.induct with
  | case1 work g => exact ⟨hc, .refl g⟩
  | case2 v rest work g hx ih =>
    simp only [settleInputs, hx]
    exact ih hc
  | case3 v rest work g x hx definer hd ih =>
    simp only [settleInputs, hx, hd]
    exact ih hc
  | case4 v rest work g x hx hd hkeep ih =>
    simp only [settleInputs, hx, hd, hkeep, if_true]
    exact ih hc
  | case5 v rest work g x hx hd hdrop ih =>
    -- an entry value or a constant without uses: no linked operation reads or defines it
    have hused : g.values.isUsed v = false := by
      have hx' : g.values.value? v = some x := hx
      simp only [Bool.or_eq_true, not_or, Bool.not_eq_true] at hdrop
      simp only [Values.isUsed, hx', hdrop.1]
    have hout : ∀ id op, g.linked? id = some op → op.output ≠ some v := by
      intro id op hop ho
      have hdef := (hc.definer_iff hx id).mpr ⟨op, hop, ho⟩
      rw [hd] at hdef
      cases hdef
    obtain ⟨hcons, hshr⟩ := ih (hc.release (fun _ _ hop => hc.notMem_inputs hused hop) hout)
    simp only [settleInputs, hx, hd, if_neg hdrop]
    exact ⟨hcons, (shrinks_release g v).trans hshr⟩

/-- An operation on top of the stack that can be removed is removed. -/
theorem Consistent.sweep_cons_of_isRemovable {g : Graph} (hc : g.Consistent) {id : OpId}
    {op : Operation} (hop : g.linked? id = some op) (hr : op.isRemovable g.values = true)
    (work : List OpId) (removed : Nat) :
    Graph.sweep (id :: work) removed g =
      Graph.sweep (settleInputs op.inputs work (g.without id op)).1 (removed + 1)
        (settleInputs op.inputs work (g.without id op)).2 := by
  have hok := hc.remove_eq hop hr
  rw [Graph.sweep, linked?_eq_some_iff.mp hop]
  simp only [hr, Bool.and_self, if_true]
  split
  next e h herr =>
    rw [hok] at herr
    cases herr
  next p h hok' =>
    rw [hok] at hok'
    cases hok'
    rfl

/-- Any other one is dropped from the stack. -/
theorem sweep_cons_of_not_isRemovable {g : Graph} {id : OpId}
    (hstays : ∀ op, g.linked? id = some op → op.isRemovable g.values = false) (work : List OpId)
    (removed : Nat) : Graph.sweep (id :: work) removed g = Graph.sweep work removed g := by
  rw [Graph.sweep]
  cases hn : g.node? id with
  | none => rfl
  | some node =>
    obtain ⟨op, linked⟩ := node
    have hrem : (linked && op.isRemovable g.values) = false := by
      cases linked with
      | false => rfl
      | true => exact hstays op (linked?_eq_some_iff.mpr hn)
    simp only [hrem, Bool.false_eq_true, if_false]

/-- The cases of a turn of the sweep. -/
theorem sweep_induct {motive : List OpId → Nat → (g : Graph) → g.Consistent → Prop}
    (done : ∀ removed g hc, motive [] removed g hc)
    (skip : ∀ id work removed g hc,
      (∀ op, g.linked? id = some op → op.isRemovable g.values = false) → motive work removed g hc →
        motive (id :: work) removed g hc)
    (remove : ∀ id op work removed g hc (hop : g.linked? id = some op)
      (hr : op.isRemovable g.values = true),
      motive (settleInputs op.inputs work (g.without id op)).1 (removed + 1)
          (settleInputs op.inputs work (g.without id op)).2
          (settleInputs_keeps (hc.without hop hr) op.inputs work).1 →
        motive (id :: work) removed g hc)
    (work : List OpId) (removed : Nat) (g : Graph) (hc : g.Consistent) :
    motive work removed g hc := by
  induction work, removed, g using sweep.induct with
  | case1 removed g => exact done removed g hc
  | case2 removed g id work hn ih =>
    refine skip id work removed g hc (fun op hop => ?_) (ih hc)
    rw [linked?_eq_some_iff, hn] at hop
    cases hop
  | case3 removed g id work node hn hrem e g' herr =>
    obtain ⟨op, linked⟩ := node
    obtain ⟨rfl, hr⟩ := Bool.and_eq_true_iff.mp hrem
    have hok := hc.remove_eq (linked?_eq_some_iff.mpr hn) hr
    rw [herr] at hok
    cases hok
  | case4 removed g id work node hn hrem op g' hok ih =>
    obtain ⟨op', linked⟩ := node
    obtain ⟨rfl, hr⟩ := Bool.and_eq_true_iff.mp hrem
    have hop := linked?_eq_some_iff.mpr hn
    have heq := hc.remove_eq hop hr
    rw [hok] at heq
    simp only [EStateM.Result.ok.injEq] at heq
    obtain ⟨rfl, rfl⟩ := heq
    exact remove id op work removed g hc hop hr (ih _)
  | case5 removed g id work node hn hrem ih =>
    refine skip id work removed g hc (fun op hop => ?_) (ih hc)
    rw [linked?_eq_some_iff, hn] at hop
    cases hop
    simpa using hrem

/-- Working through any stack succeeds and only shrinks the graph. -/
theorem Consistent.sweep {g : Graph} (hc : g.Consistent) (work : List OpId) (removed : Nat) :
    ∃ n h, sweep work removed g = .ok n h ∧ h.Consistent ∧ g.Shrinks h := by
  induction work, removed, g, hc using sweep_induct with
  | done removed g hc => exact ⟨removed, g, by rw [Graph.sweep], hc, .refl g⟩
  | skip id work removed g hc hstays ih =>
    rw [sweep_cons_of_not_isRemovable hstays]
    exact ih
  | remove id op work removed g hc hop hr ih =>
    obtain ⟨n, h, hrun, hcons, hshr⟩ := ih
    have hsettle := (settleInputs_keeps (hc.without hop hr) op.inputs work).2
    refine ⟨n, h, ?_, hcons, ?_⟩
    · rw [hc.sweep_cons_of_isRemovable hop hr]
      exact hrun
    · exact ((shrinks_without hop (isRemovable_iff.mp hr).1).trans hsettle).trans hshr

theorem Consistent.eliminateDeadCode {g : Graph} (hc : g.Consistent) :
    ∃ n h, eliminateDeadCode g = .ok n h ∧ h.Consistent ∧ g.Shrinks h :=
  hc.sweep _ 0

theorem Consistent.shrinks_of_eliminateDeadCode {g h : Graph} (hc : g.Consistent) {removed : Nat}
    (hok : Graph.eliminateDeadCode g = .ok removed h) : h.Consistent ∧ g.Shrinks h := by
  obtain ⟨n, k, hok', hk⟩ := hc.eliminateDeadCode
  rw [hok] at hok'
  simp only [EStateM.Result.ok.injEq] at hok'
  obtain ⟨rfl, rfl⟩ := hok'
  exact hk

end DefUse.Graph
