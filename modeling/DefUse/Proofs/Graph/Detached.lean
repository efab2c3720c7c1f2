import DefUse.Proofs.Graph.History
import DefUse.Proofs.Graph.Verified

namespace DefUse.Graph
variable {g h : Graph} {id : OpId} {op : Operation}

theorem linked?_of_detach (hok : detach id g = .ok op h) (other : OpId) :
    h.linked? other = g.linked? other := by
  have hn := (detach_iff.mp hok).1
  have hnode := node?_of_detach hok other
  split at hnode
  next he =>
    rw [← he, linked?_eq_none_of_unlinked hn, he]
    simp only [linked?, hnode]
  next => exact linked?_congr hnode

theorem Consistent.value?_of_mem_inputs (hc : g.Consistent) (hok : Graph.detach id g = .ok op h)
    {other : OpId} {p : Operation} (hp : g.linked? other = some p) {v : ValueId}
    (hv : v ∈ p.inputs) : h.value? v = g.value? v := by
  have hunused := (detach_iff.mp hok).2.1
  have hne : op.output ≠ some v := by
    intro ho
    exact hc.notMem_inputs (hunused v ho) hp hv
  rw [value?_of_detach hok, if_neg hne]

/-- Detaching keeps a graph consistent just when nobody defines the output: the operation itself is
not linked, so a definer is another operation. -/
theorem Consistent.detach_iff_free (hc : g.Consistent) (hok : Graph.detach id g = .ok op h) :
    h.Consistent ↔ ∀ v x, op.output = some v → g.value? v = some x → x.definer = none := by
  constructor
  · intro hh v x hv hx
    cases hd : x.definer with
    | none => rfl
    | some definer =>
      obtain ⟨p, hp, hpv⟩ := (hc.definer_iff hx definer).mp hd
      rw [← linked?_of_detach hok] at hp
      have hlive := hh.output_live hp hpv
      rw [value?_of_detach hok, if_pos hv] at hlive
      cases hlive
  · intro hfree
    apply hc.detach hok
    intro v hv other p hp hpv
    obtain ⟨x, hx⟩ := Option.isSome_iff_exists.mp (hc.output_live hp hpv)
    have hd := (hc.definer_iff hx other).mpr ⟨p, hp, hpv⟩
    rw [hfree v x hv hx] at hd
    cases hd

/-- Detaching from a graph that passes the check: linked operations stay linked, and what they read
stays as it was. The graph passes the check afterwards just when the output that goes had no
definer. -/
theorem detach_damages_only_defined (g h : Graph) (id : OpId) (op : Operation)
    (hcheck : g.verify = .ok ()) (hok : detach id g = .ok op h) :
    (∀ other p, g.linked? other = some p →
      h.linked? other = some p ∧ ∀ v ∈ p.inputs, h.value? v = g.value? v) ∧
    (h.verify = .ok () ↔
      ∀ v x, op.output = some v → g.value? v = some x → x.definer = none) := by
  have hc := verify_eq_ok_iff.mp hcheck
  constructor
  · intro other p hp
    rw [linked?_of_detach hok]
    exact ⟨hp, fun v hv => hc.value?_of_mem_inputs hok hp hv⟩
  · rw [verify_eq_ok_iff]
    exact hc.detach_iff_free hok

/-- A linked copy and a second one of the same constant, not linked, that names `out` as its
output. -/
def secondCopy (out : ValueId) : Call Graph OpId := do
  let source ← newConstant 16 8
  let first ← newOutput 8
  let _ ← newOutput 8
  let _ ← addLinked (.copy first source)
  add (.copy out source)

/-- With an output of its own the second copy can go. -/
theorem secondCopy_detaches : ∃ g h op, secondCopy ⟨2⟩ {} = .ok ⟨1⟩ g ∧ g.verify = .ok () ∧
    detach ⟨1⟩ g = .ok op h ∧ h.verify = .ok () := by
  have hcheck : (leaves (secondCopy ⟨2⟩ {})).verify = .ok () := by decide
  have hok : detach ⟨1⟩ (leaves (secondCopy ⟨2⟩ {})) = .ok (.copy ⟨2⟩ ⟨0⟩) _ := rfl
  refine ⟨_, _, _, rfl, hcheck, hok, (detach_damages_only_defined _ _ _ _ hcheck hok).2.mpr ?_⟩
  intro v x hv hx
  cases hv
  cases hx
  rfl

/-- With the output of the first copy it takes that one's value away. -/
theorem secondCopy_damages : ∃ g h op, secondCopy ⟨1⟩ {} = .ok ⟨1⟩ g ∧ g.verify = .ok () ∧
    detach ⟨1⟩ g = .ok op h ∧ h.verify = .error (.unknownValue ⟨1⟩) :=
  ⟨_, _, _, rfl, by decide, rfl, by decide⟩

end DefUse.Graph
