import DefUse.Proofs.Graph.History

namespace DefUse.Graph

/-- After every history from the empty graph in which no output is given to two operations and no
link stops halfway: unlinking, detaching and removing are refused for the reasons listed, in the
situations listed, and leave the graph as it was. Sweeping is never refused, and a link refused for
one of its early reasons changes nothing. -/
theorem refused_calls_change_nothing (history : List Request)
    (hout : ∀ past, past <+: history → ∀ v x, (replay past {}).value? v = some x →
      x.origin = .output → (history.filterMap Request.handed?).count v ≤ 1)
    (hlink : settled history {} = true) (g : Graph) (hg : g = replay history {}) (id : OpId) :
    (∀ e h, unlink id g = .error e h ↔ h = g ∧ (
      (g.node? id = none ∧ e = .unknownOp id) ∨
      ∃ op, g.node? id = some ⟨op, false⟩ ∧ e = .notLinked id)) ∧
    (∀ e h, detach id g = .error e h ↔ h = g ∧ (
      (g.node? id = none ∧ e = .unknownOp id) ∨
      (∃ op, g.node? id = some ⟨op, true⟩ ∧ e = .stillLinked id) ∨
      ∃ op v, g.node? id = some ⟨op, false⟩ ∧ op.output = some v ∧ g.values.isUsed v = true ∧
        e = .notRemovable id outputUsedReason)) ∧
    (∀ e h, remove id g = .error e h ↔ h = g ∧ (
      (g.node? id = none ∧ e = .unknownOp id) ∨
      (∃ op, g.node? id = some ⟨op, false⟩ ∧ e = .notLinked id) ∨
      ∃ op, g.node? id = some ⟨op, true⟩ ∧ op.isRemovable g.values = false ∧
        e = .notRemovable id (if op.hasEffects then effectsReason else outputUsedReason))) ∧
    (∃ n h, eliminateDeadCode g = .ok n h) ∧
    ∀ e h, link id g = .error e h → e = .unknownOp id ∨ e = .alreadyLinked id → h = g := by
  have hc : g.Consistent := hg ▸ replay_unshared history hout hlink
  refine ⟨fun _ _ => hc.unlink_error_iff, fun _ _ => detach_error_iff,
    fun _ _ => hc.remove_error_iff, ?_, ?_⟩
  · obtain ⟨n, h, hok, _⟩ := hc.eliminateDeadCode
    exact ⟨n, h, hok⟩
  · intro e h herr he
    apply eq_of_early_link herr
    rcases he with rfl | rfl <;> rfl

/-- A load that a branch reads, and two operations that both name the constant as their output and
are not linked. -/
def namedConstant : List Request :=
  [.newConstant 16 8, .newOutput 8, .addLinked (.load ⟨1⟩ .ram ⟨0⟩), .addLinked (.branchInd ⟨1⟩),
   .add (.copy ⟨0⟩ ⟨1⟩), .add (.unary .intNegate ⟨0⟩ ⟨1⟩)]

theorem namedConstant_refuses :
    settled namedConstant {} = true ∧
    (∀ past, past <+: namedConstant → ∀ v x, (replay past {}).value? v = some x →
      x.origin = .output → (namedConstant.filterMap Request.handed?).count v ≤ 1) ∧
    remove ⟨0⟩ (replay namedConstant {}) =
      .error (.notRemovable ⟨0⟩ outputUsedReason) (replay namedConstant {}) ∧
    detach ⟨2⟩ (replay namedConstant {}) =
      .error (.notRemovable ⟨2⟩ outputUsedReason) (replay namedConstant {}) ∧
    unlink ⟨3⟩ (replay namedConstant {}) = .error (.notLinked ⟨3⟩) (replay namedConstant {}) := by
  have hlink : settled namedConstant {} = true := by decide
  have hout := @count_handed_le_one namedConstant (by decide)
  have hrefuse := refused_calls_change_nothing namedConstant hout hlink _ rfl
  refine ⟨hlink, hout, ?_, ?_, ?_⟩
  · exact ((hrefuse ⟨0⟩).2.2.1 _ _).mpr ⟨rfl, .inr (.inr ⟨_, rfl, by decide, rfl⟩)⟩
  · exact ((hrefuse ⟨2⟩).2.1 _ _).mpr ⟨rfl, .inr (.inr ⟨_, _, rfl, rfl, by decide, rfl⟩)⟩
  · exact ((hrefuse ⟨3⟩).1 _ _).mpr ⟨rfl, .inr ⟨_, rfl, rfl⟩⟩

end DefUse.Graph
