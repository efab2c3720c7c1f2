import DefUse.Proofs.Lift.Simulation
import DefUse.Proofs.Run

namespace DefUse
namespace Graph

/-- The schedule is `order`: every operation of the graph, in order of creation. -/
structure InOrder (g : Graph) (order : List OpId) : Prop where
  scheduled : g.schedule = .ok order
  increasing : order.Pairwise fun a b => a.index < b.index
  mem_iff : ∀ id, id ∈ order ↔ (g.node? id).isSome = true

/-- `kept` is some of `emitted` in the same order, and no operation with effects is missing. -/
structure Thins (emitted kept : List (OpId × Operation)) : Prop where
  sublist : kept.Sublist emitted
  effects : kept.filter (·.2.hasEffects) = emitted.filter (·.2.hasEffects)

/-- Each entry waits only for what is done or listed before it. -/
def WaitsBack : (done : List OpId) → List (OpId × List OpId) → Prop
  | _, [] => True
  | done, e :: rest => (∀ d ∈ e.2, d ∈ done) ∧ WaitsBack (e.1 :: done) rest

theorem arrange_of_waitsBack (done : List OpId) (left : List (OpId × List OpId))
    (h : WaitsBack done left) : arrange done left = (done.reverse ++ left.map Prod.fst, []) := by
  induction left generalizing done with
  | nil =>
    rw [arrange]
    simp
  | cons e rest ih =>
    obtain ⟨hwaits, hrest⟩ := h
    have hready : isReady done e = true := by simpa [isReady] using hwaits
    rw [arrange]
    split
    next hnone =>
      rw [List.find?_cons_of_pos hready] at hnone
      cases hnone
    next entry hfind =>
      rw [List.find?_cons_of_pos hready] at hfind
      obtain rfl := Option.some.inj hfind
      rw [List.eraseP_cons_of_pos hready, ih _ hrest]
      simp

theorem Orderly.waitsBack {g : Graph} (hg : g.Orderly) {done : List OpId}
    {entries : List (OpId × List OpId)}
    (hsorted : entries.Pairwise fun a b => a.1.index < b.1.index)
    (hentries : ∀ e ∈ entries, g.Entry e)
    (hcover : ∀ id, (g.linked? id).isSome = true → id ∈ done ∨ id ∈ entries.map Prod.fst) :
    WaitsBack done entries := by
  induction entries generalizing done with
  | nil => trivial
  | cons e rest ih =>
    obtain ⟨hfirst, hrest⟩ := List.pairwise_cons.mp hsorted
    refine ⟨?_, ?_⟩
    · intro d hd
      have hneed : g.Needs e.1 d := (hentries e List.mem_cons_self).sound d hd
      have hlt : d.index < e.1.index := hg.needs_lt hneed
      rcases hcover d (hg.consistent.linked_of_needs hneed) with hin | hin
      · exact hin
      · -- an entry from here on was created too late to be waited for
        obtain ⟨x, hx, rfl⟩ := List.mem_map.mp hin
        rcases List.mem_cons.mp hx with rfl | hx
        · omega
        · have := hfirst x hx
          omega
    · apply ih hrest
      · exact fun x hx => hentries x (List.mem_cons_of_mem e hx)
      · intro id hid
        have h := hcover id hid
        rw [List.map_cons, List.mem_cons] at h
        rw [List.mem_cons]
        tauto

/-- The schedule of an orderly graph is the order of creation. -/
theorem Orderly.schedule_eq {g : Graph} (hg : g.Orderly) :
    g.schedule = .ok (g.linkedOps.map Prod.fst) := by
  have hlast : LastOrdered none [] := ⟨fun h => (by cases h), fun h => (by cases h)⟩
  obtain ⟨entries, hok, hids, hentries⟩ := waits_eq hg.consistent [] g.linkedOps rfl hlast
  have hsorted := pairwise_of_ids hids
  have hback : WaitsBack [] entries := by
    apply hg.waitsBack hsorted hentries
    intro id hid
    rw [hids]
    exact Or.inr (isSome_linked?_iff.mp hid)
  rw [schedule_of_waits hok hsorted, arrange_of_waitsBack [] entries hback]
  simp only [List.reverse_nil, List.nil_append, hids]

theorem Orderly.inOrder {g : Graph} (hg : g.Orderly) : g.InOrder (g.linkedOps.map Prod.fst) where
  scheduled := hg.schedule_eq
  increasing := List.pairwise_map.mpr g.pairwise_linkedOps
  mem_iff id := by
    rw [← isSome_linked?_iff]
    constructor
    · intro h
      obtain ⟨op, hop⟩ := Option.isSome_iff_exists.mp h
      exact Option.isSome_of_eq_some (linked?_eq_some_iff.mp hop)
    · intro h
      obtain ⟨⟨op, linked⟩, hn⟩ := Option.isSome_iff_exists.mp h
      obtain rfl : linked = true := hg.linked hn
      exact Option.isSome_of_eq_some (linked?_eq_some_iff.mpr hn)

theorem code_linkedOps (g : Graph) : g.code (g.linkedOps.map Prod.fst) = g.linkedOps := by
  have hmem : ∀ x ∈ g.linkedOps, g.linked? x.1 = some x.2 := fun _ hx => mem_linkedOps_iff.mp hx
  rw [code, List.filterMap_map]
  calc g.linkedOps.filterMap ((fun id => (g.linked? id).map (id, ·)) ∘ Prod.fst)
      = g.linkedOps.filterMap some := List.filterMap_congr fun x hx => by simp [hmem x hx]
    _ = g.linkedOps := List.filterMap_some

/-- What is left is listed as it was. -/
theorem Shrinks.linkedOps_eq {g h : Graph} (hs : g.Shrinks h) :
    h.linkedOps = g.linkedOps.filter fun x => (h.linked? x.1).isSome := by
  have hirrefl : Std.Irrefl fun a b : OpId × Operation => a.1.index < b.1.index :=
    ⟨fun _ => Nat.lt_irrefl _⟩
  have hantisymm : Std.Antisymm fun a b : OpId × Operation => a.1.index < b.1.index :=
    ⟨fun _ _ hab hba => absurd hba (Nat.lt_asymm hab)⟩
  refine List.Pairwise.eq_of_mem_iff h.pairwise_linkedOps (g.pairwise_linkedOps.filter _) ?_
  rintro ⟨id, op⟩
  rw [List.mem_filter, mem_linkedOps_iff, mem_linkedOps_iff]
  constructor
  · exact fun hop => ⟨hs.linked? hop, Option.isSome_of_eq_some hop⟩
  · rintro ⟨hop, hin⟩
    obtain ⟨p, hp⟩ := Option.isSome_iff_exists.mp hin
    have heq := hs.linked? hp
    rw [hop] at heq
    rwa [Option.some.inj heq]

theorem Shrinks.thins {g h : Graph} (hs : g.Shrinks h) : Thins g.linkedOps h.linkedOps := by
  refine ⟨hs.linkedOps_eq ▸ List.filter_sublist, ?_⟩
  rw [hs.linkedOps_eq, List.filter_filter]
  apply List.filter_congr
  rintro ⟨id, op⟩ hmem
  have hop : g.linked? id = some op := mem_linkedOps_iff.mp hmem
  -- only an operation without effects can be gone
  rcases hs.node id with hsame | ⟨_, p, hp, heff⟩
  · have hin : h.linked? id = some op := (linked?_congr hsame).trans hop
    simp [hin]
  · obtain rfl := Option.some.inj (hop.symm.trans hp)
    simp [heff]

theorem Orderly.thins_eliminated {g h : Graph} (hg : g.Orderly) {removed : Nat}
    (hok : Graph.eliminateDeadCode g = .ok removed h) :
    h.Orderly ∧ Thins g.operations h.operations := by
  obtain ⟨hc, hs⟩ := hg.consistent.shrinks_of_eliminateDeadCode hok
  have hh : h.Orderly := hg.shrinks hs hc
  exact ⟨hh, by rw [hg.operations_eq, hh.operations_eq]; exact hs.thins⟩

end Graph

theorem bind_eq_ok {ε σ α β : Type} {x : EStateM ε σ α} {f : α → EStateM ε σ β} {s t : σ} {b : β} :
    (x >>= f) s = .ok b t ↔ ∃ a r, x s = .ok a r ∧ f a r = .ok b t := by
  simp only [bind, EStateM.bind]
  cases x s <;> simp

/-- `h` is what the settings leave of a lifted graph: all of it, or what is not dead. -/
def Settings.Cleans (s : Settings) (g h : Graph) : Prop :=
  if s.deadCode then ∃ removed, g.eliminateDeadCode = .ok removed h else h = g

namespace Pass
variable {m : Machine} {s : Settings} {st st' : Statistics}

theorem ofExcept_eq_ok {α : Type} {x : Except Refusal α} {a : α} :
    ofExcept x st = .ok a st' ↔ x = .ok a ∧ st = st' := by
  cases x with
  | ok b =>
    show EStateM.Result.ok b st = .ok a st' ↔ _
    simp
  | error e =>
    show EStateM.Result.error (UnitError.graph e) st = .ok a st' ↔ _
    simp

theorem clean_eq_ok {g h : Graph} {removed : Nat} (hok : clean s g st = .ok (h, removed) st') :
    g.eliminateDeadCode = .ok removed h ∨ (h = g ∧ removed = 0) := by
  unfold clean at hok
  split at hok
  next =>
    cases hk : g.eliminateDeadCode with
    | ok n k =>
      simp only [hk, bind_eq_ok] at hok
      obtain ⟨_, _, _, _, _, _, hret⟩ := hok
      simp only [pure, EStateM.pure, EStateM.Result.ok.injEq, Prod.mk.injEq] at hret
      obtain ⟨⟨rfl, rfl⟩, _⟩ := hret
      exact Or.inl rfl
    | error e k =>
      rw [hk] at hok
      cases hok
  next =>
    simp only [pure, EStateM.pure, EStateM.Result.ok.injEq, Prod.mk.injEq] at hok
    exact Or.inr ⟨hok.1.1.symm, hok.1.2.symm⟩

/-- What a report holds: the graph of the unit, with or without its dead code, its schedule, and what
is tainted in it. -/
theorem report_eq_ok {client : Option TaintClient} {u : CodeUnit} {r : Report}
    (hok : report m s client u st = .ok r st') :
    ∃ b, m.lift u = .ok () b ∧
      (b.graph.eliminateDeadCode = .ok r.removed r.graph ∨ (r.graph = b.graph ∧ r.removed = 0)) ∧
      r.graph.schedule = .ok r.order ∧ r.tainted = client.map r.graph.tainted := by
  simp only [report, bind_eq_ok] at hok
  obtain ⟨g, _, hlift, _, _, _, ⟨h, removed⟩, _, hclean, typing, _, _, plan, _, hplan, hrest⟩ := hok
  have hret : r.graph = h ∧ r.order = plan.order ∧ r.removed = removed ∧
      r.tainted = client.map h.tainted := by
    cases hp : s.printPlan <;>
      simp only [hp, Bool.false_eq_true, if_false, if_true, bind_eq_ok, pure, EStateM.pure,
        EStateM.Result.ok.injEq] at hrest
    all_goals
      obtain ⟨_, _, _, rfl, _⟩ := hrest
      exact ⟨rfl, rfl, rfl, rfl⟩
  obtain ⟨hgraph, hplanned, hremoved, htainted⟩ := hret
  rw [hgraph, hplanned, hremoved]
  unfold lift at hlift
  split at hlift
  next b hb =>
    simp only [EStateM.Result.ok.injEq] at hlift
    obtain ⟨rfl, _⟩ := hlift
    refine ⟨b, hb, clean_eq_ok hclean, ?_, htainted⟩
    obtain ⟨hmake, _⟩ := ofExcept_eq_ok.mp hplan
    simp only [Plan.make, bind, Except.bind] at hmake
    split at hmake
    · cases hmake
    next order horder =>
      simp only [pure, Except.pure, Except.ok.injEq] at hmake
      obtain rfl := hmake
      exact horder
  next => cases hlift

theorem exists_clean {g : Graph} (hg : g.Orderly) (s : Settings) (st : Statistics) :
    ∃ h removed, clean s g st = .ok (h, removed) (st.recordRemoved removed) ∧ h.Orderly ∧
      s.Cleans g h := by
  unfold clean Settings.Cleans
  split
  next hdead =>
    obtain ⟨removed, h, hok, hh⟩ := hg.eliminateDeadCode
    simp only [hok, verify_eq hh.consistent]
    exact ⟨h, removed, rfl, hh, removed, rfl⟩
  next => exact ⟨g, 0, rfl, hg, rfl⟩

theorem exists_type {g : Graph} (hg : g.Orderly) (hs : s.mismatch = .coerce) (st : Statistics) :
    ∃ typing st', type s g st = .ok typing st' := by
  obtain ⟨typing, htyping⟩ := Typing.exists_infer hg
  refine ⟨typing, st.recordDiagnostics typing.diagnostics.length, ?_⟩
  simp only [type, htyping, bind_eq_ok]
  refine ⟨typing, st, rfl, ⟨⟩, _, rfl, ?_⟩
  simp only [hs]
  rfl

theorem report_of_lift_error (s : Settings) (client : Option TaintClient) {u : CodeUnit}
    {e : UnitError} {b : Lifting} (hl : m.lift u = .error e b) (st : Statistics) :
    report m s client u st = .error e (st.merge b.statistics) := by
  simp only [report, bind, EStateM.bind, lift, hl]

/-- Once a unit is lifted, its types alone decide whether it is reported. -/
theorem report_of_type (client : Option TaintClient) {u : CodeUnit} {b : Lifting}
    (hl : m.lift u = .ok () b) (st : Statistics) :
    ∃ g removed st₁, g.Orderly ∧ s.Cleans b.graph g ∧
      st₁ = (st.merge b.statistics).recordRemoved removed ∧
      (∀ typing st₂, type s g st₁ = .ok typing st₂ → ∃ r, report m s client u st = .ok r st₂ ∧
        r.graph = g ∧ r.removed = removed ∧ r.typing = typing) ∧
      ∀ e st₂, type s g st₁ = .error e st₂ → report m s client u st = .error e st₂ := by
  have hg : b.graph.Orderly := Machine.orderly_of_lift hl
  have hlift : lift m u st = .ok b.graph (st.merge b.statistics) := by
    simp only [lift, hl]
  obtain ⟨h, removed, hclean, hh, hcleans⟩ := exists_clean hg s (st.merge b.statistics)
  refine ⟨h, removed, _, hh, hcleans, rfl, ?_, ?_⟩
  · intro typing st₂ htype
    obtain ⟨plan, hplan, text, htext⟩ := Plan.exists_make hh typing
    have hmake : ofExcept (Plan.make h typing) st₂ = .ok plan st₂ := by
      rw [hplan]
      rfl
    simp only [report, bind, EStateM.bind, hlift, verify_eq hg.consistent, pure, EStateM.pure,
      hclean, htype, hmake, htext]
    cases s.printPlan <;> exact ⟨_, rfl, rfl, rfl, rfl⟩
  · intro e st₂ htype
    simp only [report, bind, EStateM.bind, hlift, verify_eq hg.consistent, pure, EStateM.pure,
      hclean, htype]

/-- A unit that can be lifted is reported, unless ill-typed units are rejected. -/
theorem exists_report (client : Option TaintClient) {u : CodeUnit} {b : Lifting}
    (hl : m.lift u = .ok () b) (hs : s.mismatch = .coerce) (st : Statistics) :
    ∃ r st', report m s client u st = .ok r st' := by
  obtain ⟨g, _, st₁, hg, _, _, hreport, _⟩ := report_of_type client hl st
  obtain ⟨typing, st₂, htype⟩ := exists_type hg hs st₁
  obtain ⟨r, hr, _⟩ := hreport typing st₂ htype
  exact ⟨r, st₂, hr⟩

end Pass

theorem recoverable_of_runUnit {m : Machine} {s : Settings} {client : Option TaintClient}
    {u : CodeUnit} {e : UnitError} (h : (runUnit m s client u).1.error? = some e) :
    e.isRecoverable = true := by
  have hspec : Ensures (Pass.report m s client u) {} fun _ _ => True :=
    Pass.ensures_report m s client u
  unfold Ensures at hspec
  unfold runUnit at h
  cases hr : Pass.report m s client u {} with
  | ok report st =>
    rw [hr] at h
    cases h
  | error e' st =>
    rw [hr] at h hspec
    simp only [hspec, if_true, Outcome.error?, Option.some.injEq] at h
    exact h ▸ hspec

theorem run_eq_ok_iff {m : Machine} {s : Settings} {p : Program} {r : Results} :
    run m s p = .ok r ↔ ∃ client, s.client = .ok client ∧
      r = runParts m s client (parts (partSize s.threads p.units.length) p.units) := by
  simp only [run, bind, Except.bind]
  cases s.client with
  | error e => simp
  | ok client => simp [pure, Except.pure, eq_comm]

theorem exists_lifted {m : Machine} {s : Settings} (client : Option TaintClient) {u : CodeUnit}
    {b : Lifting} (hl : m.lift u = .ok () b) (hs : s.mismatch = .coerce) :
    ∃ report, (runUnit m s client u).1 = .lifted report := by
  obtain ⟨report, st, hr⟩ := Pass.exists_report client hl hs {}
  exact ⟨report, by simp only [runUnit, hr]⟩

/-- A lifted unit is reported in order of creation, with the operations that lifting emitted. -/
theorem runUnit_in_order {m : Machine} {s : Settings} {client : Option TaintClient} {u : CodeUnit}
    {report : Report} (h : (runUnit m s client u).1 = .lifted report) :
    report.graph.InOrder report.order ∧ ∃ b, m.lift u = .ok () b ∧
      Graph.Thins b.graph.operations (report.graph.code report.order) := by
  unfold runUnit at h
  split at h
  next r st hr =>
    obtain rfl := Outcome.lifted.inj h
    obtain ⟨b, hb, hclean, horder, _⟩ := Pass.report_eq_ok hr
    have hg : b.graph.Orderly := Machine.orderly_of_lift hb
    have hthin : r.graph.Orderly ∧ Graph.Thins b.graph.operations r.graph.operations := by
      rcases hclean with hok | ⟨heq, _⟩
      · exact hg.thins_eliminated hok
      · rw [heq]
        exact ⟨hg, List.Sublist.refl _, rfl⟩
    have hin := hthin.1.inOrder
    have heq : r.graph.linkedOps.map Prod.fst = r.order :=
      Except.ok.inj (hin.scheduled.symm.trans horder)
    have hcode : r.graph.code r.order = r.graph.operations := by
      rw [← heq, Graph.code_linkedOps, hthin.1.operations_eq]
    rw [hcode, ← heq]
    exact ⟨hin, b, hb, hthin.2⟩
  next => split at h <;> cases h

/-- Units are lowered in program order. The graph that lifting builds is scheduled in order of
creation, no operation left out, and so is what dead code elimination leaves of it. In a run, each
report lists all operations of its graph in that order, which is the order in which lifting emitted
them; those with effects are all there. No run meets a cycle. -/
theorem units_run_in_order (m : Machine) :
    (∀ (u : CodeUnit) (b : Lifting), m.lift u = .ok () b →
      (∃ order, b.graph.InOrder order) ∧
        ∃ removed g order, b.graph.eliminateDeadCode = .ok removed g ∧ g.InOrder order ∧
          Graph.Thins b.graph.operations (g.code order)) ∧
    ∀ (s : Settings) (p : Program) (r : Results), run m s p = .ok r →
      r.outcomes.length = p.units.length ∧
      ∀ (i : Nat) (u : CodeUnit) (o : Outcome), p.units[i]? = some u → r.outcomes[i]? = some o →
        (∀ report, o = .lifted report → report.graph.InOrder report.order ∧
          ∃ b, m.lift u = .ok () b ∧
            Graph.Thins b.graph.operations (report.graph.code report.order)) ∧
        ∀ id, o.error? ≠ some (.graph (.cycle id)) := by
  refine ⟨?_, ?_⟩
  · intro u b hb
    have hg : b.graph.Orderly := Machine.orderly_of_lift hb
    obtain ⟨removed, g, hok, hclean⟩ := hg.eliminateDeadCode
    refine ⟨⟨_, hg.inOrder⟩, removed, g, _, hok, hclean.inOrder, ?_⟩
    rw [Graph.code_linkedOps, ← hclean.operations_eq]
    exact (hg.thins_eliminated hok).2
  · intro s p r hr
    obtain ⟨client, hc, rfl⟩ := run_eq_ok_iff.mp hr
    have hout := outcomes_runParts m s client (parts (partSize s.threads p.units.length) p.units)
    rw [flatten_parts] at hout
    refine ⟨by rw [hout, List.length_map], ?_⟩
    intro i u o hu ho
    rw [hout, List.getElem?_map, hu] at ho
    obtain rfl := Option.some.inj ho
    refine ⟨fun report h => runUnit_in_order h, ?_⟩
    intro id hcycle
    cases recoverable_of_runUnit hcycle

/-- A load whose value is overwritten before anything reads it. -/
def overwrittenLoad : CodeUnit :=
  { name := "f", line := 1, records := [
    ⟨2, some (.name "RAX"), "LOAD", [.name "ram", .name "RDI"]⟩,
    ⟨3, some (.name "RAX"), "COPY", [.name "RSI"]⟩,
    ⟨4, none, "STORE", [.name "ram", .name "RDI", .name "RAX"]⟩] }

theorem overwrittenLoad_runs_in_order :
    ∃ b r report, ({} : Machine).lift overwrittenLoad = .ok () b ∧
      (∃ removed g order, b.graph.eliminateDeadCode = .ok removed g ∧ g.InOrder order ∧
        Graph.Thins b.graph.operations (g.code order)) ∧
      run {} {} ⟨[overwrittenLoad]⟩ = .ok r ∧ r.outcomes = [.lifted report] ∧
      report.graph.InOrder report.order := by
  have hok : (({} : Machine).lifted? overwrittenLoad).isSome = true := by decide +kernel
  obtain ⟨b, hb⟩ := Option.isSome_iff_exists.mp hok
  have hl := Machine.lift_of_lifted? hb
  obtain ⟨report, hreport⟩ := exists_lifted (s := {}) none hl rfl
  obtain ⟨r, hr, hout⟩ := run_eq {} {} none ⟨[overwrittenLoad]⟩ rfl
  rw [List.map_singleton, hreport] at hout
  have hlifts := (units_run_in_order {}).1 overwrittenLoad b hl
  have hruns := ((units_run_in_order {}).2 {} ⟨[overwrittenLoad]⟩ r hr).2 0 overwrittenLoad _ rfl
    (by rw [hout]; rfl)
  exact ⟨b, r, report, hl, hlifts.2, hr, hout, (hruns.1 report rfl).1⟩

end DefUse
