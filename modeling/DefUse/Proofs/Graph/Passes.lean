import DefUse.Plan
import DefUse.Proofs.Graph.Orderly
import DefUse.Proofs.Graph.Verified
import DefUse.Proofs.Typing.Rounds

namespace DefUse

theorem Graph.Orderly.callsTyped {g : Graph} (hg : g.Orderly) : g.CallsTyped :=
  fun _ _ _ _ _ _ hop => hg.typed hop

namespace Typing

theorem exists_infer {g : Graph} (hg : g.Orderly) : ∃ t, infer g = .ok t := by
  have ht := hg.callsTyped
  obtain ⟨start, hstart, hfits, _⟩ := exists_openPoll hg.consistent
  have hvoting := hfits.voting hg.consistent ht
  obtain ⟨p, hp, _⟩ := hvoting.exists_settle hfits ((start.voted.map Prod.fst).length + 1)
  obtain ⟨t, hinfer, _⟩ := infer_eq hg.consistent ht hstart hp
  exact ⟨t, hinfer⟩

end Typing

namespace Plan

theorem exists_operandTexts {p : Plan} {id : OpId} {position : Nat} {inputs : List ValueId}
    (h : ∀ i < inputs.length, ∃ behavior, p.graph.asked id (position + i) = .ok behavior) :
    ∃ texts, p.operandTexts id position inputs = .ok texts := by
  induction inputs generalizing position with
  | nil => exact ⟨[], rfl⟩
  | cons v rest ih =>
    have hfirst : ∃ text, p.operandText id position v = .ok text := by
      obtain ⟨behavior, hasked⟩ := h 0 (by simp)
      rw [Nat.add_zero] at hasked
      unfold operandText
      split
      · exact ⟨_, by simp only [hasked, bind, Except.bind]; rfl⟩
      · exact ⟨_, rfl⟩
    have hrest : ∀ i < rest.length, ∃ behavior,
        p.graph.asked id (position + 1 + i) = .ok behavior := by
      intro i hi
      have hnext := h (i + 1) (by simpa using hi)
      rwa [Nat.add_comm i 1, ← Nat.add_assoc] at hnext
    obtain ⟨text, htext⟩ := hfirst
    obtain ⟨texts, htexts⟩ := ih hrest
    exact ⟨_, by simp only [operandTexts, htext, htexts, bind, Except.bind]; rfl⟩

theorem exists_text {p : Plan} (hg : p.graph.Orderly)
    (horder : ∀ id ∈ p.order, (p.graph.linked? id).isSome = true) : ∃ text, p.text = .ok text := by
  have hlines : ∃ lines, p.order.mapM p.opLine = .ok lines := by
    refine exists_mapM_eq_ok fun id hid => ?_
    obtain ⟨op, hop⟩ := Option.isSome_iff_exists.mp (horder id hid)
    have hasked : ∀ i < op.inputs.length, ∃ behavior,
        p.graph.asked id (0 + i) = .ok behavior := by
      intro i hi
      rw [Nat.zero_add]
      exact ⟨_, hg.callsTyped.asked_eq hop hi⟩
    obtain ⟨texts, htexts⟩ := exists_operandTexts hasked
    exact ⟨_, by simp only [opLine, Graph.op_of_linked? hop, htexts, bind, Except.bind]; rfl⟩
  obtain ⟨lines, hlines⟩ := hlines
  exact ⟨_, by simp only [text, hlines, bind, Except.bind]; rfl⟩

end Plan
end DefUse
