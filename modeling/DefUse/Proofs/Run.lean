import DefUse.Run
import DefUse.Proofs.Graph.Passes
import DefUse.Proofs.Lift.Record

namespace DefUse

/-- What a plan of an orderly graph lists is linked. -/
theorem Plan.exists_make {g : Graph} (hg : g.Orderly) (typing : Typing) :
    ∃ p, Plan.make g typing = .ok p ∧ ∃ text, p.text = .ok text := by
  obtain ⟨order, horder⟩ := hg.consistent.schedule_of_arranges hg.arranges
  have harr := hg.consistent.arranges_of_schedule horder
  refine ⟨{ graph := g, order, typing }, ?_, ?_⟩
  · simp only [make, horder, bind, Except.bind]
    rfl
  · exact exists_text hg fun id hid => (harr.mem_iff id).mp hid

/-- Every call that a run makes on the graph is answered. -/
structure Graph.Accepted (g : Graph) : Prop where
  verified : g.verify = .ok ()
  lowered : ∃ typing plan text,
    Typing.infer g = .ok typing ∧ Plan.make g typing = .ok plan ∧ plan.text = .ok text

theorem Graph.Orderly.accepted {g : Graph} (hg : g.Orderly) : g.Accepted := by
  obtain ⟨typing, htyping⟩ := Typing.exists_infer hg
  obtain ⟨plan, hplan, text, htext⟩ := Plan.exists_make hg typing
  exact ⟨hg.consistent.verify_eq, typing, plan, text, htyping, hplan, htext⟩

theorem Graph.Orderly.eliminateDeadCode {g : Graph} (hg : g.Orderly) :
    ∃ removed h, Graph.eliminateDeadCode g = .ok removed h ∧ h.Orderly := by
  obtain ⟨removed, h, hok, hc, hs⟩ := hg.consistent.eliminateDeadCode
  exact ⟨removed, h, hok, hg.shrinks hs hc⟩

namespace Pass
variable {m : Machine} {s : Settings} {g : Graph} {st : Statistics}

theorem ensures_ofExcept {α : Type} {x : Except Refusal α} (h : ∃ a, x = .ok a) :
    Ensures (ofExcept x) st fun a t => x = .ok a ∧ t = st := by
  obtain ⟨a, rfl⟩ := h
  exact ⟨rfl, rfl⟩

theorem ensures_lift (m : Machine) (u : CodeUnit) :
    Ensures (lift m u) st fun g _ => g.Orderly := by
  unfold Ensures lift
  cases hl : m.lift u with
  | ok _ b => exact Machine.orderly_of_lift hl
  | error e b => exact Machine.recoverable_of_lift hl

/-- The check of a consistent graph does nothing. -/
theorem verify_eq (hc : g.Consistent) : verify s g = pure () := by
  unfold verify
  rw [hc.verify_eq]
  split <;> rfl

theorem ensures_clean (hg : g.Orderly) : Ensures (clean s g) st fun x _ => x.1.Orderly := by
  obtain ⟨removed, h, hok, hh⟩ := hg.eliminateDeadCode
  unfold clean
  split
  next =>
    simp only [hok, verify_eq hh.consistent]
    exact hh
  next => exact hg

theorem ensures_type (hg : g.Orderly) : Ensures (type s g) st fun _ _ => True := by
  refine (ensures_ofExcept (Typing.exists_infer hg)).bind ?_
  intro typing _ _
  refine Ensures.bind (P := fun _ _ => True) trivial ?_
  intro _ _ _
  split
  next => rfl
  next => trivial

theorem ensures_report (m : Machine) (s : Settings) (client : Option TaintClient) (u : CodeUnit) :
    Ensures (report m s client u) st fun _ _ => True := by
  refine (ensures_lift m u).bind ?_
  intro g _ hg
  rw [verify_eq hg.consistent]
  refine Ensures.bind (P := fun _ _ => True) trivial ?_
  intro _ _ _
  refine (ensures_clean hg).bind ?_
  rintro ⟨g, removed⟩ _ hg
  refine (ensures_type hg).bind ?_
  intro typing _ _
  obtain ⟨plan, hplan, text, htext⟩ := Plan.exists_make hg typing
  refine (ensures_ofExcept ⟨plan, hplan⟩).bind ?_
  rintro p _ ⟨hp, rfl⟩
  obtain rfl : plan = p := Except.ok.inj (hplan.symm.trans hp)
  rw [htext]
  cases s.printPlan <;> trivial

theorem clean_verify (hg : g.Orderly) (check : Bool) :
    clean { s with verify := check } g = clean s g := by
  obtain ⟨removed, h, hok, hh⟩ := hg.eliminateDeadCode
  unfold clean
  simp only [hok, verify_eq hh.consistent]

/-- Whether the graphs are checked makes no difference to a unit. -/
theorem report_verify (m : Machine) (s : Settings) (client : Option TaintClient) (u : CodeUnit)
    (check : Bool) : report m { s with verify := check } client u = report m s client u := by
  funext st
  simp only [report, bind, EStateM.bind, lift]
  cases hl : m.lift u with
  | error e b => rfl
  | ok _ b =>
    have hg := Machine.orderly_of_lift hl
    simp only [verify_eq hg.consistent, clean_verify hg]
    rfl

end Pass

section Outcomes
variable (m : Machine) (s : Settings) (client : Option TaintClient)

theorem outcomes_foldl (parts : List Results) (r : Results) :
    (parts.foldl Results.append r).outcomes = r.outcomes ++ parts.flatMap (·.outcomes) := by
  induction parts generalizing r with
  | nil => simp
  | cons part rest ih =>
    rw [List.foldl_cons, ih, List.flatMap_cons]
    simp [Results.append]

/-- The results of a unit run alone. -/
def single (u : CodeUnit) : Results :=
  ⟨[(runUnit m s client u).1], (runUnit m s client u).2⟩

theorem runUnits_eq_foldl (units : List CodeUnit) :
    runUnits m s client units = (units.map (single m s client)).foldl Results.append ⟨[], {}⟩ := by
  rw [runUnits, List.foldl_map]
  rfl

theorem runParts_eq_foldl (units : List (List CodeUnit)) :
    runParts m s client units =
      (units.map (runUnits m s client)).foldl Results.append ⟨[], {}⟩ := by
  rw [runParts, List.foldl_map, List.foldl_map]
  rfl

theorem outcomes_runUnits (units : List CodeUnit) :
    (runUnits m s client units).outcomes = units.map fun u => (runUnit m s client u).1 := by
  rw [runUnits_eq_foldl, outcomes_foldl]
  rw [List.nil_append, List.flatMap_map, List.map_eq_flatMap]
  rfl

theorem flatten_parts {α : Type} (size : Nat) (xs : List α) : (parts size xs).flatten = xs := by
  induction xs using parts.induct size with
  | case1 => simp [parts]
  | case2 x rest ih => simp [parts, ih]

theorem outcomes_runParts (units : List (List CodeUnit)) :
    (runParts m s client units).outcomes =
      units.flatten.map fun u => (runUnit m s client u).1 := by
  rw [runParts_eq_foldl, outcomes_foldl, List.nil_append, List.flatMap_map, List.map_flatten]
  simp only [outcomes_runUnits, List.flatMap]

/-- The outcomes of a run are those of its units, in order. -/
theorem run_eq (p : Program) (hc : s.client = .ok client) :
    ∃ r, run m s p = .ok r ∧ r.outcomes = p.units.map fun u => (runUnit m s client u).1 := by
  refine ⟨_, ?_, outcomes_runParts m s client (parts (partSize s.threads p.units.length) p.units)
    |>.trans ?_⟩
  · simp only [run, hc, bind, Except.bind]
    rfl
  · rw [flatten_parts]

theorem runUnit_not_aborted (u : CodeUnit) :
    (∃ report, (runUnit m s client u).1 = .lifted report) ∨
      ∃ e, (runUnit m s client u).1 = .fallback u.name e := by
  have hspec : Ensures (Pass.report m s client u) {} fun _ _ => True :=
    Pass.ensures_report m s client u
  unfold Ensures at hspec
  unfold runUnit
  cases hr : Pass.report m s client u {} with
  | ok report st => exact Or.inl ⟨report, rfl⟩
  | error e st =>
    rw [hr] at hspec
    exact Or.inr ⟨e, by simp only [hspec, if_true]⟩

end Outcomes

/-- No unit of a run is aborted, whatever the program and the settings, as long as the taint client
exists: no call on a graph is refused while a unit is lifted, nor when the graph is checked, cleaned
of dead code, typed, scheduled and listed. Checking the graphs or not gives the same outcomes. -/
theorem run_never_aborts (m : Machine) (s : Settings) (p : Program) {client : Option TaintClient}
    (hc : s.client = .ok client) :
    (∀ u ∈ p.units, match m.lift u with
      | .error e _ => e.isRecoverable = true
      | .ok _ b => b.graph.Accepted ∧
        ∃ removed g, b.graph.eliminateDeadCode = .ok removed g ∧ g.Accepted) ∧
    ∃ r, run m s p = .ok r ∧ r.outcomes.length = p.units.length ∧
      (∀ o ∈ r.outcomes, (∃ report, o = .lifted report) ∨ ∃ name e, o = .fallback name e) ∧
      ∀ check, ∃ r', run m { s with verify := check } p = .ok r' ∧ r'.outcomes = r.outcomes := by
  refine ⟨?_, ?_⟩
  · intro u _
    cases hl : m.lift u with
    | error e b => exact Machine.recoverable_of_lift hl
    | ok _ b =>
      have hg := Machine.orderly_of_lift hl
      obtain ⟨removed, g, hok, hclean⟩ := hg.eliminateDeadCode
      exact ⟨hg.accepted, removed, g, hok, hclean.accepted⟩
  · obtain ⟨r, hr, hout⟩ := run_eq m s client p hc
    refine ⟨r, hr, by rw [hout, List.length_map], ?_, ?_⟩
    · intro o ho
      rw [hout] at ho
      obtain ⟨u, _, rfl⟩ := List.mem_map.mp ho
      rcases runUnit_not_aborted m s client u with h | ⟨e, h⟩
      · exact Or.inl h
      · exact Or.inr ⟨u.name, e, h⟩
    · intro check
      obtain ⟨r', hr', hout'⟩ := run_eq m { s with verify := check } client p hc
      refine ⟨r', hr', ?_⟩
      rw [hout, hout']
      simp only [runUnit, Pass.report_verify]

/-- A load, a store over it and an impure call that reads and writes a register. -/
def loadStoreCall : Program :=
  ⟨[{ name := "f", line := 1, records := [
    ⟨2, some (.name "RAX"), "LOAD", [.name "ram", .name "RDI"]⟩,
    ⟨3, none, "STORE", [.name "ram", .name "RSI", .name "RAX"]⟩,
    ⟨4, some (.name "RAX"), "CALLOTHER", [.userop "syscall", .name "RAX"]⟩] }]⟩

theorem loadStoreCall_never_aborts :
    Settings.client { taint := some "registers" } =
      .ok (some (TaintClient.within "registers" .register)) ∧
    ∃ r, run {} { taint := some "registers" } loadStoreCall = .ok r ∧ r.outcomes.length = 1 ∧
      (∀ o ∈ r.outcomes, (∃ report, o = .lifted report) ∨ ∃ name e, o = .fallback name e) ∧
      ∀ check, ∃ r', run {} { taint := some "registers", verify := check } loadStoreCall = .ok r' ∧
        r'.outcomes = r.outcomes := by
  have hc : Settings.client { taint := some "registers" } =
      .ok (some (TaintClient.within "registers" .register)) := by rfl
  exact ⟨hc, (run_never_aborts {} { taint := some "registers" } loadStoreCall hc).2⟩

end DefUse
