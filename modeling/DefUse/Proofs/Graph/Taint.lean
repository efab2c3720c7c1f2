import DefUse.Proofs.Graph.Edits
import DefUse.Proofs.Graph.Order
import DefUse.Proofs.Graph.Slice
import DefUse.Taint

namespace DefUse.Graph
variable {g : Graph} {client : TaintClient} {v : ValueId}

/-- A live entry value of a location that the client names. -/
def IsSource (g : Graph) (client : TaintClient) (v : ValueId) : Prop :=
  ∃ x location, g.value? v = some x ∧ x.origin = .entry location ∧ client.isSource location = true

theorem mem_taintSources : v ∈ g.taintSources client ↔ g.IsSource client v := by
  rw [taintSources, List.mem_filterMap]
  constructor
  · rintro ⟨⟨w, x⟩, hmem, hsome⟩
    have hx := Values.mem_list.mp hmem
    cases ho : x.origin with
    | constant word => simp [ho] at hsome
    | output => simp [ho] at hsome
    | entry location =>
      simp only [ho, Option.ite_none_right_eq_some, Option.some.injEq] at hsome
      obtain ⟨hsource, rfl⟩ := hsome
      exact ⟨x, location, hx, ho, hsource⟩
  · rintro ⟨x, location, hx, ho, hsource⟩
    exact ⟨(v, x), Values.mem_list.mpr hx, by simp [ho, hsource]⟩

theorem live_of_isSource (h : g.IsSource client v) : (g.value? v).isSome = true := by
  obtain ⟨x, _, hx, _⟩ := h
  exact Option.isSome_of_eq_some hx

theorem Consistent.mem_tainted_iff (hc : g.Consistent) :
    v ∈ g.tainted client ↔ ∃ s, g.IsSource client s ∧ Relation.ReflTransGen g.Flows s v := by
  rw [tainted, hc.mem_forwardSlice_iff]
  constructor
  · rintro ⟨s, hs, _, hpath⟩
    exact ⟨s, mem_taintSources.mp hs, hpath⟩
  · rintro ⟨s, hs, hpath⟩
    exact ⟨s, mem_taintSources.mpr hs, live_of_isSource hs, hpath⟩

/-- A value is tainted as a source or through its definer. -/
theorem Consistent.mem_tainted_iff_definer (hc : g.Consistent) {x : Value}
    (hx : g.value? v = some x) :
    v ∈ g.tainted client ↔ g.IsSource client v ∨
      ∃ id op, x.definer = some id ∧ g.linked? id = some op ∧
        ∃ w ∈ op.inputs, w ∈ g.tainted client := by
  constructor
  · intro hv
    obtain ⟨s, hs, hpath⟩ := hc.mem_tainted_iff.mp hv
    cases hpath with
    | refl => exact Or.inl hs
    | @tail w _ hpath hflows =>
      obtain ⟨id, op, hop, hw, hout⟩ := hflows
      have hdef : x.definer = some id := (hc.definer_iff hx id).mpr ⟨op, hop, hout⟩
      exact Or.inr ⟨id, op, hdef, hop, w, hw, hc.mem_tainted_iff.mpr ⟨s, hs, hpath⟩⟩
  · rintro (hsource | ⟨id, op, hdef, hop, w, hw, htainted⟩)
    · exact hc.mem_tainted_iff.mpr ⟨v, hsource, .refl⟩
    · obtain ⟨s, hs, hpath⟩ := hc.mem_tainted_iff.mp htainted
      obtain ⟨op', hop', hout⟩ := (hc.definer_iff hx id).mp hdef
      obtain rfl : op = op' := Option.some.inj (hop.symm.trans hop')
      exact hc.mem_tainted_iff.mpr ⟨s, hs, hpath.tail ⟨id, op, hop, hw, hout⟩⟩

/-- Values without a source among them that have, with any output, the operands of its definer are not
tainted. -/
theorem Consistent.notMem_tainted (hc : g.Consistent) (clean : List ValueId)
    (hsources : ∀ w ∈ clean, w ∉ g.taintSources client)
    (hback : ∀ e ∈ g.linkedOps, ∀ w ∈ e.2.output.toList, w ∈ clean → ∀ z ∈ e.2.inputs, z ∈ clean)
    (hv : v ∈ clean) : v ∉ g.tainted client := by
  rw [hc.mem_tainted_iff]
  rintro ⟨s, hs, hpath⟩
  -- The path is followed backwards from the value, and never leaves the list.
  have hclean : s ∈ clean := by
    induction hpath with
    | refl => exact hv
    | tail _ hflows ih =>
      obtain ⟨id, op, hop, hw, hout⟩ := hflows
      exact ih (hback (id, op) (mem_linkedOps_iff.mpr hop) _ (by simp [hout]) hv _ hw)
  exact hsources s hclean (mem_taintSources.mpr hs)

theorem isSource_iff {x : Value} (hx : g.value? v = some x) :
    g.IsSource client v ↔ ∃ location, x.origin = .entry location ∧ client.isSource location = true := by
  constructor
  · rintro ⟨y, location, hy, ho, hsource⟩
    obtain rfl : x = y := Option.some.inj (hx.symm.trans hy)
    exact ⟨location, ho, hsource⟩
  · rintro ⟨location, ho, hsource⟩
    exact ⟨x, location, hx, ho, hsource⟩

/-- What is no output has no definer to be tainted through. -/
theorem Consistent.mem_tainted_iff_isSource (hc : g.Consistent) (hd : g.DefinesOutputs) {x : Value}
    (hx : g.value? v = some x) (ho : x.origin ≠ .output) :
    v ∈ g.tainted client ↔ g.IsSource client v := by
  rw [hc.mem_tainted_iff_definer hx]
  constructor
  · rintro (hsource | ⟨id, _, hdef, _⟩)
    · exact hsource
    · have hne : x.definer ≠ none := by simp [hdef]
      exact absurd (hd v x hx hne) ho
  · exact Or.inl

/-- Slices and taint are the least closed sets. The slice of any seeds has the live ones and, with any
value, the outputs of the operations on record as its readers, and nothing that it need not have. So
the tainted values, in order of creation, are those that a source flows into, and an output is among
them if its definer has a tainted operand. In every graph that calls can build only outputs have
definers, and there no constant is tainted, and an entry value is if the client names its location. -/
theorem taint_is_least :
    (∀ requests : List Request, (replay requests {}).DefinesOutputs) ∧
    ∀ g : Graph, g.Consistent →
      (∀ seeds : List ValueId,
        IsLeast {S : Set ValueId | g.Slices seeds S} {v | v ∈ g.forwardSlice seeds}) ∧
      ∀ client : TaintClient,
        ((g.tainted client).Pairwise fun a b => a.index < b.index) ∧
        (∀ v, v ∈ g.tainted client ↔
          ∃ s, g.IsSource client s ∧ Relation.ReflTransGen g.Flows s v) ∧
        ∀ v x, g.value? v = some x →
          (x.origin = .output →
            (v ∈ g.tainted client ↔ ∃ id op, x.definer = some id ∧ g.linked? id = some op ∧
              ∃ w ∈ op.inputs, w ∈ g.tainted client)) ∧
          (g.DefinesOutputs →
            (∀ word, x.origin = .constant word → v ∉ g.tainted client) ∧
            ∀ location, x.origin = .entry location →
              (v ∈ g.tainted client ↔ client.isSource location = true)) := by
  refine ⟨definesOutputs_replay, fun g hc => ⟨g.isLeast_forwardSlice, fun client =>
    ⟨g.increasing_forwardSlice _, fun v => hc.mem_tainted_iff, fun v x hx => ⟨?_, ?_⟩⟩⟩⟩
  · intro ho
    have hnot : ¬g.IsSource client v := by
      rw [isSource_iff hx]
      simp [ho]
    rw [hc.mem_tainted_iff_definer hx, or_iff_right hnot]
  · intro hd
    constructor
    · intro word ho
      rw [hc.mem_tainted_iff_isSource hd hx (by simp [ho]), isSource_iff hx]
      simp [ho]
    · intro location ho
      rw [hc.mem_tainted_iff_isSource hd hx (by simp [ho]), isSource_iff hx]
      simp [ho]

/-- A sum of a register and its own copy, and a copy of what memory holds. -/
def sumOfItsCopy : Graph :=
  replay [.newEntry ⟨.register, 56, 8⟩, .newEntry ⟨.ram, 16, 8⟩, .newOutput 8, .newOutput 8,
    .newOutput 8, .addLinked (.binary .intAdd ⟨2⟩ ⟨0⟩ ⟨3⟩), .addLinked (.copy ⟨3⟩ ⟨2⟩),
    .addLinked (.copy ⟨4⟩ ⟨1⟩)] {}

/-- Taint goes round the circle and does not reach the second copy. -/
theorem sumOfItsCopy_taint :
    sumOfItsCopy.Consistent ∧ sumOfItsCopy.DefinesOutputs ∧
      ⟨3⟩ ∈ sumOfItsCopy.tainted (.within "registers" .register) ∧
      ⟨4⟩ ∉ sumOfItsCopy.tainted (.within "registers" .register) ∧
      ⟨2⟩ ∈ sumOfItsCopy.forwardSlice [⟨3⟩, ⟨9⟩] := by
  have hc : sumOfItsCopy.Consistent := replay_consistent_of_nodup _ (by decide) (by decide)
  obtain ⟨hbuilt, hgraph⟩ := taint_is_least
  have hd : sumOfItsCopy.DefinesOutputs := hbuilt _
  obtain ⟨hleast, htaint⟩ := hgraph sumOfItsCopy hc
  obtain ⟨_, hreach, hvalues⟩ := htaint (.within "registers" .register)
  have hsum : sumOfItsCopy.Flows ⟨0⟩ ⟨2⟩ := ⟨⟨0⟩, _, rfl, by decide, rfl⟩
  have hcopy : sumOfItsCopy.Flows ⟨2⟩ ⟨3⟩ := ⟨⟨1⟩, _, rfl, by decide, rfl⟩
  have hback : sumOfItsCopy.Flows ⟨3⟩ ⟨2⟩ := ⟨⟨0⟩, _, rfl, by decide, rfl⟩
  have hentry : ⟨1⟩ ∉ sumOfItsCopy.tainted (.within "registers" .register) := by
    rw [((hvalues ⟨1⟩ _ rfl).2 hd).2 _ rfl]
    decide
  refine ⟨hc, hd, ?_, ?_, ?_⟩
  · exact (hreach ⟨3⟩).mpr ⟨⟨0⟩, ⟨_, _, rfl, rfl, by decide⟩, .tail (.single hsum) hcopy⟩
  · rw [(hvalues ⟨4⟩ _ rfl).1 rfl]
    rintro ⟨id, op, hdef, hop, w, hw, htainted⟩
    obtain rfl : (⟨2⟩ : OpId) = id := Option.some.inj hdef
    obtain rfl : Operation.copy ⟨4⟩ ⟨1⟩ = op := Option.some.inj hop
    obtain rfl : w = ⟨1⟩ := List.mem_singleton.mp hw
    exact hentry htainted
  · have hslice := (hleast [⟨3⟩, ⟨9⟩]).1
    exact hslice.closed (hslice.seeds ⟨3⟩ (by decide) (by decide)) (hc.feeds_iff.mpr hback)

end DefUse.Graph
