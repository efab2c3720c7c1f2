import DefUse.Proofs.Graph.Removed
import DefUse.Proofs.Lift.Steps
import DefUse.Proofs.ProgramOrder
import DefUse.Proofs.Typing.Coercions

namespace DefUse

namespace Pass
variable {m : Machine} {s : Settings} {g : Graph} {t : Typing}

theorem type_eq_of_reject (hs : s.mismatch = .reject) (ht : Typing.infer g = .ok t)
    (st : Statistics) :
    type s g st = match t.leastMismatch? with
      | some (use, expected, found) => .error (.typeRejected use expected found.behavior)
          (st.recordDiagnostics t.diagnostics.length)
      | none => .ok t (st.recordDiagnostics t.diagnostics.length) := by
  have hstep (next : Typing → Pass Typing) : (ofExcept (.ok t) >>= next) st = next t st := rfl
  simp only [type, ht, hs, hstep]
  cases t.leastMismatch? <;> rfl

end Pass

/-- The graph of a unit as it is typed. -/
def Machine.Prepares (m : Machine) (s : Settings) (u : CodeUnit) (g : Graph) : Prop :=
  ∃ b, m.lift u = .ok () b ∧ s.Cleans b.graph g

/-- What becomes of a unit that is lifted, where disagreements are rejected: it has none, or is given
up for the least. -/
theorem runUnit_of_lift {m : Machine} {s : Settings} (hs : s.mismatch = .reject)
    (client : Option TaintClient) {u : CodeUnit} {b : Lifting} (hl : m.lift u = .ok () b) :
    ∃ g p t, s.Cleans b.graph g ∧ Typing.infer g = .ok t ∧ Typing.Exact g p t ∧
      ((t.coercions = [] ∧ t.leastMismatch? = none ∧
          ∃ report, (runUnit m s client u).1 = .lifted report ∧ report.graph = g ∧
            report.typing = t) ∨
        ∃ use expected found, t.coercions.head? = some use ∧
          Typing.Disagrees g t use expected found ∧
          t.leastMismatch? = some (use, expected, found) ∧ (runUnit m s client u).1 =
            .fallback u.name (.typeRejected use expected found.behavior)) := by
  obtain ⟨g, _, st, hg, hcleans, _, hok, herror⟩ := Pass.report_of_type (s := s) client hl {}
  obtain ⟨_, _, p, t, _, _, _, hinfer, hexact⟩ := Typing.exists_exact hg.consistent hg.callsTyped
  refine ⟨g, p, t, hcleans, hinfer, hexact, ?_⟩
  have htype := Pass.type_eq_of_reject hs hinfer st
  rcases hexact.leastMismatch?_eq with ⟨hnone, hleast⟩ | ⟨use, expected, found, hhead, hdis, hleast⟩
  · rw [hleast] at htype
    obtain ⟨r, hr, hgraph, _, htyping⟩ := hok t _ htype
    refine Or.inl ⟨hnone, hleast, r, ?_, hgraph, htyping⟩
    simp only [runUnit, hr]
  · rw [hleast] at htype
    have hr := herror _ _ htype
    refine Or.inr ⟨use, expected, found, hhead, hdis, hleast, ?_⟩
    simp only [runUnit, hr]
    rfl

/-- What becomes of a unit where disagreements are rejected: one that is lifted has none, one that is
rejected names the least. -/
theorem runUnit_of_reject {m : Machine} {s : Settings} (hs : s.mismatch = .reject)
    (client : Option TaintClient) (u : CodeUnit) :
    (∃ e, (runUnit m s client u).1 = .fallback u.name e ∧ e.isRejection = false) ∨
      ∃ g p t, m.Prepares s u g ∧ Typing.infer g = .ok t ∧ Typing.Exact g p t ∧
        ((t.coercions = [] ∧ ∃ report, (runUnit m s client u).1 = .lifted report ∧
            report.graph = g ∧ report.typing = t) ∨
          ∃ use expected found, t.coercions.head? = some use ∧
            Typing.Disagrees g t use expected found ∧ (runUnit m s client u).1 =
              .fallback u.name (.typeRejected use expected found.behavior)) := by
  cases hl : m.lift u with
  | error e b =>
    refine Or.inl ⟨e, ?_, Machine.not_rejection_of_lift hl⟩
    simp only [runUnit, Pass.report_of_lift_error s client hl, Machine.recoverable_of_lift hl,
      if_true]
  | ok _ b =>
    obtain ⟨g, p, t, hcleans, hinfer, hexact, hcases⟩ := runUnit_of_lift hs client hl
    refine Or.inr ⟨g, p, t, ⟨b, hl, hcleans⟩, hinfer, hexact, ?_⟩
    rcases hcases with ⟨hnone, _, hreport⟩ | ⟨use, expected, found, hhead, hdis, _, hrun⟩
    · exact Or.inl ⟨hnone, hreport⟩
    · exact Or.inr ⟨use, expected, found, hhead, hdis, hrun⟩

/-- The least disagreement is the first that is found, where they are found in order. -/
theorem Typing.leastMismatch?_of_pairwise {g : Graph} (hc : g.Consistent) (ht : g.CallsTyped)
    (start p : Poll) (hstart : openPoll g g.values.list = .ok start)
    (hp : settle g (start.voted.map (·.1)) ((start.voted.map (·.1)).length + 1) start = .ok p)
    (hsorted : (g.values.list.flatMap (disagreements g (decidedTypes g p))).Pairwise
      fun a b => a.1.le b.1 = true) :
    ∃ t, infer g = .ok t ∧ t.leastMismatch? = leastMismatch? { t with
      diagnostics := g.values.list.flatMap (fun e => (decide p e.1 e.2.size).2) ++
        (g.values.list.flatMap (disagreements g (decidedTypes g p))).map (·.2) } := by
  have hdisputes : disputes g p = g.values.list.flatMap (disagreements g (decidedTypes g p)) :=
    List.mergeSort_of_pairwise hsorted
  refine ⟨conclude g p, infer_eq_conclude hc ht hstart hp, ?_⟩
  simp only [conclude, hdisputes]

theorem Graph.isSwept_of_linkedOps {g : Graph}
    (h : ∀ e ∈ g.linkedOps, e.2.isRemovable g.values = false) : g.IsSwept :=
  fun _ _ hop => h _ (Graph.mem_linkedOps_iff.mpr hop)

theorem Settings.Cleans.eq_of_isSwept {s : Settings} {g h : Graph} (hc : s.Cleans g h)
    (hg : g.IsSwept) : h = g := by
  unfold Settings.Cleans at hc
  split at hc
  next =>
    obtain ⟨removed, hok⟩ := hc
    rw [Graph.eliminateDeadCode, hg.sweep] at hok
    cases hok
    rfl
  next => exact hc

/-- A unit with nothing dead is judged by the types of the graph it is lifted to. -/
theorem runUnit_of_isSwept {m : Machine} {s : Settings} (hs : s.mismatch = .reject)
    (client : Option TaintClient) {u : CodeUnit} {b : Lifting} {t : Typing}
    (hl : m.lift u = .ok () b) (hb : b.graph.IsSwept) (ht : Typing.infer b.graph = .ok t) :
    (t.leastMismatch? = none → ∃ report, (runUnit m s client u).1 = .lifted report) ∧
      ∀ use expected found, t.leastMismatch? = some (use, expected, found) →
        (runUnit m s client u).1 =
          .fallback u.name (.typeRejected use expected found.behavior) := by
  obtain ⟨g, p, t', hcleans, hinfer, _, hcases⟩ := runUnit_of_lift hs client hl
  obtain rfl := hcleans.eq_of_isSwept hb
  obtain rfl : t = t' := Except.ok.inj (ht.symm.trans hinfer)
  rcases hcases with ⟨_, hleast, report, hrun, _⟩ | ⟨use, expected, found, _, _, hleast, hrun⟩
  · exact ⟨fun _ => ⟨report, hrun⟩, fun _ _ _ h => by simp [hleast] at h⟩
  · refine ⟨fun h => by simp [hleast] at h, fun use' expected' found' h => ?_⟩
    rw [hleast] at h
    cases h
    exact hrun

/-- Types, reports and coercions are exact. On a consistent graph whose calls are typed, typing is
never refused: every live value and no other gets a type, of its own size, and a float only at the
widths of floats; a declared category stands where it has a type; the coercions are, in order, the
positions that ask for another category than the value there has; and the reports are those of values
taken for floats at other widths, then one for each coercion. Where disagreements are rejected, a
unit that is lifted has no coercion, and one that is rejected names the least position that
disagrees. -/
theorem typing_is_exact :
    (∀ g : Graph, g.Consistent → g.CallsTyped →
      ∃ start opened p t, Typing.openPoll g g.values.list = .ok start ∧
        start.voted.map (·.1) = opened ∧
        Typing.settle g opened (opened.length + 1) start = .ok p ∧
        Typing.infer g = .ok t ∧ Typing.Exact g p t) ∧
    ∀ (m : Machine) (s : Settings) (client : Option TaintClient) (u : CodeUnit),
      s.mismatch = .reject →
      (∀ report, (runUnit m s client u).1 = .lifted report →
        m.Prepares s u report.graph ∧ Typing.infer report.graph = .ok report.typing ∧
          report.typing.coercions = []) ∧
      ∀ use expected category,
        (runUnit m s client u).1.error? = some (.typeRejected use expected category) →
        ∃ g t found, m.Prepares s u g ∧ Typing.infer g = .ok t ∧
          Typing.Disagrees g t use expected found ∧ found.behavior = category ∧
          ∀ other asked type, Typing.Disagrees g t other asked type →
            other = use ∨ use.Before other := by
  refine ⟨fun g hc ht => Typing.exists_exact hc ht, ?_⟩
  intro m s client u hs
  refine ⟨?_, ?_⟩
  · intro report hlifted
    rcases runUnit_of_reject hs client u with ⟨e, hrun, _⟩ | ⟨g, p, t, hprep, hinfer, _, hcases⟩
    · rw [hrun] at hlifted
      cases hlifted
    · rcases hcases with ⟨hnone, r, hrun, hgraph, htyping⟩ | ⟨_, _, _, _, _, hrun⟩
      · rw [hrun] at hlifted
        obtain rfl := Outcome.lifted.inj hlifted
        rw [hgraph, htyping]
        exact ⟨hprep, hinfer, hnone⟩
      · rw [hrun] at hlifted
        cases hlifted
  · intro use expected category herror
    rcases runUnit_of_reject hs client u with
      ⟨e, hrun, hcause⟩ | ⟨g, p, t, hprep, hinfer, hexact, hcases⟩
    · rw [hrun] at herror
      obtain rfl := Option.some.inj herror
      cases hcause
    · rcases hcases with ⟨_, r, hrun, _⟩ | ⟨use', expected', found, hhead, hdis, hrun⟩
      · rw [hrun] at herror
        cases herror
      · rw [hrun] at herror
        cases herror
        exact ⟨g, t, found, hprep, hinfer, hdis, rfl,
          fun other asked type hother => hexact.head_before hhead hother⟩

/-- A sum of floats at a width without floats, and a load at the address it gives. -/
def wideSum : Graph :=
  Graph.replay [.newEntry ⟨.ram, 16, 10⟩, .newOutput 10, .newOutput 8,
    .addLinked (.binary .floatAdd ⟨1⟩ ⟨0⟩ ⟨0⟩), .addLinked (.load ⟨2⟩ .ram ⟨1⟩)] {}

/-- A sum of floats that is taken for an integer three times. -/
def mixedSum : CodeUnit :=
  { name := "f", line := 1, records := [
    ⟨2, some (.varnode "unique" 0 8), "FLOAT_ADD", [.varnode "const" 0 8, .varnode "const" 1 8]⟩,
    ⟨3, some (.varnode "register" 0 8), "INT_ADD", [.varnode "const" 2 8, .varnode "unique" 0 8]⟩,
    ⟨4, some (.varnode "register" 8 8), "INT_ADD",
      [.varnode "unique" 0 8, .varnode "unique" 0 8]⟩] }

/-- A sum of floats. -/
def plainSum : CodeUnit :=
  { name := "g", line := 1, records := [
    ⟨2, some (.varnode "register" 0 8), "FLOAT_ADD",
      [.varnode "const" 0 8, .varnode "const" 1 8]⟩] }

/-- The graph that the plain sum is lifted to. -/
def plainGraph : Graph :=
  Graph.replay [.newConstant 0 8, .newConstant 1 8, .newOutput 8,
    .addLinked (.binary .floatAdd ⟨2⟩ ⟨0⟩ ⟨1⟩), .addLinked (.writeback ⟨.register, 0, 8⟩ ⟨2⟩)] {}

/-- The graph that the mixed sum is lifted to. -/
def mixedGraph : Graph :=
  Graph.replay [.newConstant 0 8, .newConstant 1 8, .newOutput 8,
    .addLinked (.binary .floatAdd ⟨2⟩ ⟨0⟩ ⟨1⟩), .newConstant 2 8, .newOutput 8,
    .addLinked (.binary .intAdd ⟨4⟩ ⟨3⟩ ⟨2⟩), .newOutput 8,
    .addLinked (.binary .intAdd ⟨5⟩ ⟨2⟩ ⟨2⟩), .addLinked (.writeback ⟨.register, 0, 8⟩ ⟨4⟩),
    .addLinked (.writeback ⟨.register, 8, 8⟩ ⟨5⟩)] {}

theorem runUnit_plainSum :
    ∃ report, (runUnit {} { mismatch := .reject } none plainSum).1 = .lifted report := by
  have hc : plainGraph.Consistent := Graph.replay_consistent_of_nodup _ (by decide) (by decide)
  have ht : plainGraph.CallsTyped := Graph.callsTyped_of_linkedOps (by decide)
  have hswept : plainGraph.IsSwept := Graph.isSwept_of_linkedOps (by decide)
  have hlifted : (({} : Machine).lifted? plainSum).map (·.graph) = some plainGraph := by
    decide +kernel
  obtain ⟨b, hb, hgraph⟩ := Option.map_eq_some_iff.mp hlifted
  obtain ⟨t, hinfer, hleast⟩ := Typing.leastMismatch?_of_pairwise hc ht
    ⟨[(⟨2⟩, .float)], [(⟨0⟩, none), (⟨1⟩, none)]⟩
    ⟨[(⟨2⟩, .float)], [(⟨0⟩, some .float), (⟨1⟩, some .float)]⟩
    (by decide +kernel) (by decide +kernel) (by decide +kernel)
  rw [← hgraph] at hswept hinfer
  exact (runUnit_of_isSwept rfl none (Machine.lift_of_lifted? hb) hswept hinfer).1
    (hleast.trans rfl)

theorem runUnit_mixedSum : (runUnit {} { mismatch := .reject } none mixedSum).1 =
    .fallback "f" (.typeRejected ⟨⟨1⟩, 1⟩ .integer .float) := by
  have hc : mixedGraph.Consistent := Graph.replay_consistent_of_nodup _ (by decide) (by decide)
  have ht : mixedGraph.CallsTyped := Graph.callsTyped_of_linkedOps (by decide)
  have hswept : mixedGraph.IsSwept := Graph.isSwept_of_linkedOps (by decide)
  have hlifted : (({} : Machine).lifted? mixedSum).map (·.graph) = some mixedGraph := by
    decide +kernel
  obtain ⟨b, hb, hgraph⟩ := Option.map_eq_some_iff.mp hlifted
  obtain ⟨t, hinfer, hleast⟩ := Typing.leastMismatch?_of_pairwise hc ht
    ⟨[(⟨2⟩, .float), (⟨4⟩, .integer), (⟨5⟩, .integer)], [(⟨0⟩, none), (⟨1⟩, none), (⟨3⟩, none)]⟩
    ⟨[(⟨2⟩, .float), (⟨4⟩, .integer), (⟨5⟩, .integer)],
      [(⟨0⟩, some .float), (⟨1⟩, some .float), (⟨3⟩, some .integer)]⟩
    (by decide +kernel) (by decide +kernel) (by decide +kernel)
  rw [← hgraph] at hswept hinfer
  exact (runUnit_of_isSwept rfl none (Machine.lift_of_lifted? hb) hswept hinfer).2 _ _ (.float 8)
    (hleast.trans rfl)

theorem wideSum_typing_is_exact :
    wideSum.Consistent ∧ wideSum.CallsTyped ∧
      (∃ start opened p t, Typing.openPoll wideSum wideSum.values.list = .ok start ∧
        start.voted.map (·.1) = opened ∧
        Typing.settle wideSum opened (opened.length + 1) start = .ok p ∧
        Typing.infer wideSum = .ok t ∧ Typing.Exact wideSum p t) ∧
      (∃ report, (runUnit {} { mismatch := .reject } none plainSum).1 = .lifted report ∧
        report.typing.coercions = []) ∧
      (runUnit {} { mismatch := .reject } none mixedSum).1.error? =
        some (.typeRejected ⟨⟨1⟩, 1⟩ .integer .float) ∧
      ∃ g t found, ({} : Machine).Prepares { mismatch := .reject } mixedSum g ∧
        Typing.infer g = .ok t ∧ Typing.Disagrees g t ⟨⟨1⟩, 1⟩ .integer found ∧
        found.behavior = .float ∧
        ∀ other asked type, Typing.Disagrees g t other asked type →
          other = ⟨⟨1⟩, 1⟩ ∨ Use.Before ⟨⟨1⟩, 1⟩ other := by
  have hc : wideSum.Consistent := Graph.replay_consistent_of_nodup _ (by decide) (by decide)
  have ht : wideSum.CallsTyped := Graph.callsTyped_of_linkedOps (by decide)
  have hmixed : (runUnit {} { mismatch := .reject } none mixedSum).1.error? =
      some (.typeRejected ⟨⟨1⟩, 1⟩ .integer .float) := by
    rw [runUnit_mixedSum]
    rfl
  obtain ⟨report, hreport⟩ := runUnit_plainSum
  have hlifted := (typing_is_exact.2 {} { mismatch := .reject } none plainSum rfl).1 report hreport
  exact ⟨hc, ht, typing_is_exact.1 wideSum hc ht, ⟨report, hreport, hlifted.2.2⟩, hmixed,
    (typing_is_exact.2 {} { mismatch := .reject } none mixedSum rfl).2 _ _ _ hmixed⟩

end DefUse
