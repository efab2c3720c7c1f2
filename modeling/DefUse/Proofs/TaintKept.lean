import DefUse.Proofs.Graph.Taint
import DefUse.Proofs.ProgramOrder

namespace DefUse
namespace Graph
variable {g h : Graph} {v w : ValueId}

theorem Shrinks.live (hs : g.Shrinks h) (hv : (h.value? v).isSome = true) :
    (g.value? v).isSome = true := by
  obtain ⟨x, hx⟩ := Option.isSome_iff_exists.mp hv
  obtain ⟨y, hy, _⟩ := hs.value hx
  exact Option.isSome_of_eq_some hy

theorem Shrinks.flows (hs : g.Shrinks h) (hf : h.Flows v w) : g.Flows v w := by
  obtain ⟨id, op, hop, hv, hout⟩ := hf
  exact ⟨id, op, hs.linked? hop, hv, hout⟩

/-- The definer of a value that is left is left. -/
theorem Shrinks.flows_left (hs : g.Shrinks h) (hg : g.Consistent) (hh : h.Consistent)
    (hw : (h.value? w).isSome = true) (hf : g.Flows v w) : h.Flows v w := by
  obtain ⟨id, op, hop, hv, hout⟩ := hf
  obtain ⟨x, hx⟩ := Option.isSome_iff_exists.mp hw
  obtain ⟨y, hy, _, _, hsame⟩ := hs.value hx
  have hdef : x.definer = some id := by
    rw [← hsame]
    exact (hg.definer_iff hy id).mpr ⟨op, hop, hout⟩
  obtain ⟨p, hp, hpout⟩ := (hh.definer_iff hx id).mp hdef
  have heq : op = p := Option.some.inj (hop.symm.trans (hs.linked? hp))
  exact ⟨id, p, hp, heq ▸ hv, hpout⟩

/-- The paths to a value that is left. -/
theorem Shrinks.reaches_iff (hs : g.Shrinks h) (hg : g.Consistent) (hh : h.Consistent)
    (hv : (h.value? v).isSome = true) :
    Relation.ReflTransGen g.Flows w v ↔
      (h.value? w).isSome = true ∧ Relation.ReflTransGen h.Flows w v := by
  constructor
  · intro hpath
    induction hpath with
    | refl => exact ⟨hv, .refl⟩
    | tail _ hflows ih =>
      have hlast := hs.flows_left hg hh hv hflows
      obtain ⟨hw, hpath⟩ := ih (hh.operand_live_of_flows hlast)
      exact ⟨hw, hpath.tail hlast⟩
  · intro hpath
    exact Relation.ReflTransGen.mono (fun _ _ hflows => hs.flows hflows) _ _ hpath.2

/-- Slices of what is left. -/
theorem Shrinks.forwardSlice_eq (hs : g.Shrinks h) (hg : g.Consistent) (hh : h.Consistent)
    (seeds : List ValueId) :
    h.forwardSlice seeds = (g.forwardSlice seeds).filter fun v => (h.value? v).isSome := by
  apply eq_of_increasing (h.increasing_forwardSlice seeds)
    ((g.increasing_forwardSlice seeds).filter _)
  intro v
  rw [List.mem_filter, hg.mem_forwardSlice_iff]
  constructor
  · intro hin
    have hv := hh.live_of_mem_forwardSlice hin
    obtain ⟨s, hseed, hlive, hpath⟩ := hh.mem_forwardSlice_iff.mp hin
    exact ⟨⟨s, hseed, hs.live hlive, (hs.reaches_iff hg hh hv).mpr ⟨hlive, hpath⟩⟩, hv⟩
  · intro hin
    obtain ⟨⟨s, hseed, _, hpath⟩, hv⟩ := hin
    exact hh.mem_forwardSlice_iff.mpr ⟨s, hseed, (hs.reaches_iff hg hh hv).mp hpath⟩

theorem Shrinks.isSource_iff (hs : g.Shrinks h) {client : TaintClient} :
    h.IsSource client v ↔ g.IsSource client v ∧ (h.value? v).isSome = true := by
  constructor
  · intro hv
    obtain ⟨x, location, hx, ho, hsource⟩ := hv
    obtain ⟨y, hy, hsame, _⟩ := hs.value hx
    exact ⟨⟨y, location, hy, hsame.trans ho, hsource⟩, Option.isSome_of_eq_some hx⟩
  · intro hv
    obtain ⟨⟨y, location, hy, ho, hsource⟩, hlive⟩ := hv
    obtain ⟨x, hx⟩ := Option.isSome_iff_exists.mp hlive
    obtain ⟨z, hz, hsame, _⟩ := hs.value hx
    rw [hy] at hz
    obtain rfl := Option.some.inj hz
    exact ⟨x, location, hx, hsame.symm.trans ho, hsource⟩

/-- Taint in what is left. -/
theorem Shrinks.tainted_eq (hs : g.Shrinks h) (hg : g.Consistent) (hh : h.Consistent)
    (client : TaintClient) :
    h.tainted client = (g.tainted client).filter fun v => (h.value? v).isSome := by
  have hsources : h.tainted client = h.forwardSlice (g.taintSources client) := by
    apply eq_of_increasing (h.increasing_forwardSlice _) (h.increasing_forwardSlice _)
    intro v
    simp only [hh.mem_forwardSlice_iff, mem_taintSources, hs.isSource_iff, and_assoc,
      and_self_left]
  rw [hsources, hs.forwardSlice_eq hg hh]
  rfl

end Graph

/-- The graph that a report holds is the lifted one or what dead code elimination leaves of it. -/
theorem shrinks_of_runUnit {m : Machine} {s : Settings} {client : Option TaintClient} {u : CodeUnit}
    {r : Report} (h : (runUnit m s client u).1 = .lifted r) :
    (∃ b, m.lift u = .ok () b ∧ b.graph.Consistent ∧ r.graph.Consistent ∧
      b.graph.Shrinks r.graph) ∧ r.tainted = client.map r.graph.tainted := by
  unfold runUnit at h
  split at h
  next report st hr =>
    obtain rfl := Outcome.lifted.inj h
    obtain ⟨b, hb, hclean, _, htainted⟩ := Pass.report_eq_ok hr
    have hg : b.graph.Consistent := (Machine.orderly_of_lift hb).consistent
    refine ⟨⟨b, hb, hg, ?_⟩, htainted⟩
    rcases hclean with hok | ⟨heq, _⟩
    · exact hg.shrinks_of_eliminateDeadCode hok
    · rw [heq]
      exact ⟨hg, .refl _⟩
  next => split at h <;> cases h

/-- Dead code elimination does not change what is tainted. On a consistent graph it answers, and the
taint and all slices of what it leaves are those of the graph less the values that are gone. Two
runs of one unit, with whatever settings, list the tainted values of the graphs they report, and
agree on every value that both graphs have. -/
theorem dead_code_keeps_taint :
    (∀ g : Graph, g.Consistent → ∃ removed h, g.eliminateDeadCode = .ok removed h ∧
      (∀ client, h.tainted client = (g.tainted client).filter fun v => (h.value? v).isSome) ∧
      ∀ seeds, h.forwardSlice seeds =
        (g.forwardSlice seeds).filter fun v => (h.value? v).isSome) ∧
    ∀ (m : Machine) (s t : Settings) (client : TaintClient) (u : CodeUnit) (r q : Report),
      (runUnit m s (some client) u).1 = .lifted r → (runUnit m t (some client) u).1 = .lifted q →
        r.tainted = some (r.graph.tainted client) ∧ q.tainted = some (q.graph.tainted client) ∧
        ∀ v, (r.graph.value? v).isSome = true → (q.graph.value? v).isSome = true →
          (v ∈ r.graph.tainted client ↔ v ∈ q.graph.tainted client) := by
  constructor
  · intro g hg
    obtain ⟨removed, h, hok, hh, hs⟩ := hg.eliminateDeadCode
    exact ⟨removed, h, hok, hs.tainted_eq hg hh, hs.forwardSlice_eq hg hh⟩
  · intro m s t client u r q hr hq
    obtain ⟨⟨b, hb, hg, hrc, hrs⟩, hrtaint⟩ := shrinks_of_runUnit hr
    obtain ⟨⟨c, hc, _, hqc, hqs⟩, hqtaint⟩ := shrinks_of_runUnit hq
    obtain rfl : b = c := by
      rw [hb] at hc
      cases hc
      rfl
    refine ⟨hrtaint, hqtaint, ?_⟩
    intro v hvr hvq
    rw [hrs.tainted_eq hg hrc, hqs.tainted_eq hg hqc, List.mem_filter, List.mem_filter]
    simp only [hvr, hvq]

/-- The second copy of the circular sum is dead, and so is the load that is overwritten. -/
theorem overwrittenLoad_keeps_taint :
    Graph.sumOfItsCopy.Consistent ∧
      (∃ removed h, Graph.sumOfItsCopy.eliminateDeadCode = .ok removed h ∧
        h.tainted (.within "memory" .ram) =
          (Graph.sumOfItsCopy.tainted (.within "memory" .ram)).filter fun v =>
            (h.value? v).isSome) ∧
      ∃ r q, (runUnit {} {} (some (.within "memory" .ram)) overwrittenLoad).1 = .lifted r ∧
        (runUnit {} { deadCode := false } (some (.within "memory" .ram)) overwrittenLoad).1 =
          .lifted q ∧
        ∀ v, (r.graph.value? v).isSome = true → (q.graph.value? v).isSome = true →
          (v ∈ r.graph.tainted (.within "memory" .ram) ↔
            v ∈ q.graph.tainted (.within "memory" .ram)) := by
  have hc : Graph.sumOfItsCopy.Consistent :=
    Graph.replay_consistent_of_nodup _ (by decide) (by decide)
  have hok : (({} : Machine).lifted? overwrittenLoad).isSome = true := by decide +kernel
  obtain ⟨b, hb⟩ := Option.isSome_iff_exists.mp hok
  have hl := Machine.lift_of_lifted? hb
  obtain ⟨r, hr⟩ := exists_lifted (s := {}) (some (.within "memory" .ram)) hl rfl
  obtain ⟨q, hq⟩ :=
    exists_lifted (s := { deadCode := false }) (some (.within "memory" .ram)) hl rfl
  obtain ⟨hgraph, hunit⟩ := dead_code_keeps_taint
  obtain ⟨removed, h, hdead, htaint, _⟩ := hgraph Graph.sumOfItsCopy hc
  exact ⟨hc, ⟨removed, h, hdead, htaint _⟩, r, q, hr, hq, (hunit {} _ _ _ _ r q hr hq).2.2⟩

end DefUse
