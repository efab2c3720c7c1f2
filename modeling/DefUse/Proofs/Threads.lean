import DefUse.Proofs.Lift.Counting
import DefUse.Proofs.Run

namespace DefUse
namespace Results

theorem append_assoc (a b c : Results) : (a.append b).append c = a.append (b.append c) := by
  simp only [append, List.append_assoc, Statistics.merge_assoc]

theorem append_empty (a : Results) : a.append ⟨[], {}⟩ = a := by
  simp only [append, List.append_nil, Statistics.merge_empty]

theorem foldl_append (rs : List Results) (r : Results) :
    rs.foldl append r = r.append (rs.foldl append ⟨[], {}⟩) := by
  induction rs generalizing r with
  | nil => exact (append_empty r).symm
  | cons first rest ih =>
    rw [List.foldl_cons, List.foldl_cons, ih, ih (append _ first), ← append_assoc, ← append_assoc,
      append_empty]

/-- Putting parts together and then the wholes is putting all together. -/
theorem foldl_append_flatten (parts : List (List Results)) (r : Results) :
    (parts.map fun part => part.foldl append ⟨[], {}⟩).foldl append r =
      parts.flatten.foldl append r := by
  induction parts generalizing r with
  | nil => rfl
  | cons part rest ih =>
    rw [List.map_cons, List.foldl_cons, ih, ← foldl_append, List.flatten_cons, List.foldl_append]

end Results

section Parts
variable (m : Machine) (s : Settings) (client : Option TaintClient)

theorem runParts_eq (units : List (List CodeUnit)) :
    runParts m s client units = runUnits m s client units.flatten := by
  have hparts : units.map (runUnits m s client) =
      (units.map (List.map (single m s client))).map
        fun part => part.foldl Results.append ⟨[], {}⟩ := by
    rw [List.map_map]
    exact List.map_congr_left fun part _ => runUnits_eq_foldl m s client part
  rw [runParts_eq_foldl, hparts, Results.foldl_append_flatten, runUnits_eq_foldl, List.map_flatten]

theorem append_runUnits (r : Results) (units : List CodeUnit) :
    r.append (runUnits m s client units) =
      (units.map (single m s client)).foldl Results.append r := by
  rw [runUnits_eq_foldl, ← Results.foldl_append]

theorem append_runUnits_cons (r : Results) (u : CodeUnit) (rest : List CodeUnit) :
    r.append (runUnits m s client (u :: rest)) =
      (r.append (single m s client u)).append (runUnits m s client rest) := by
  rw [append_runUnits, append_runUnits, List.map_cons, List.foldl_cons]

theorem empty_append_runUnits (units : List CodeUnit) :
    Results.append ⟨[], {}⟩ (runUnits m s client units) = runUnits m s client units := by
  rw [append_runUnits, runUnits_eq_foldl]

/-- A part is empty only when there is nothing to share out. -/
theorem partSize_eq_zero_iff (threads units : Nat) : partSize threads units = 0 ↔ units = 0 := by
  have hpos : 0 < max 1 (min threads (max units 1)) := by omega
  simp only [partSize, Nat.div_eq_zero_iff]
  omega

theorem run_eq_runUnits (p : Program) :
    run m s p = s.client.map fun client => runUnits m s client p.units := by
  simp only [run, bind, Except.bind]
  cases s.client with
  | error e => rfl
  | ok client =>
    have h := runParts_eq m s client (parts (partSize s.threads p.units.length) p.units)
    rw [flatten_parts] at h
    simp only [h, pure, Except.pure, Except.map]

end Parts

namespace Pass

/-- Lifting in a session: each operation is counted as it is emitted, on top of what the session
has counted so far. -/
def liftCounting (m : Machine) (u : CodeUnit) : Pass Graph := fun st =>
  match Lift.codeUnit m u { statistics := st } with
  | .ok _ b => .ok b.graph b.statistics
  | .error e b => .error e b.statistics

theorem lift_eq_counting (m : Machine) (u : CodeUnit) : lift m u = liftCounting m u := by
  funext st
  have h : Lift.codeUnit m u { statistics := st } =
      mapState (Lifting.after st) (m.lift u) := Lift.commutes_codeUnit st m u {}
  simp only [lift, liftCounting, h]
  cases m.lift u <;> rfl

variable (before : Statistics)

theorem commutes_ofExcept {α : Type} (x : Except Refusal α) :
    Commutes before.merge (ofExcept x) := by
  cases x with
  | ok a => exact commutes_pure a
  | error e => exact commutes_throw _

theorem commutes_lift (m : Machine) (u : CodeUnit) : Commutes before.merge (lift m u) := by
  intro st
  simp only [lift]
  cases m.lift u <;> simp only [mapState, Statistics.merge_assoc]

theorem commutes_verify (s : Settings) (g : Graph) : Commutes before.merge (verify s g) := by
  unfold verify
  split
  · exact commutes_ofExcept before _
  · exact commutes_pure ()

theorem commutes_clean (s : Settings) (g : Graph) : Commutes before.merge (clean s g) := by
  unfold clean
  split
  · split
    · refine Commutes.bind (commutes_modify _ fun st => ?_) fun _ => ?_
      · exact (Statistics.merge_recordRemoved before st _).symm
      · exact (commutes_verify before s _).bind fun _ => commutes_pure _
    · exact commutes_throw _
  · exact commutes_pure _

theorem commutes_type (s : Settings) (g : Graph) : Commutes before.merge (type s g) := by
  refine (commutes_ofExcept before _).bind fun typing => ?_
  refine Commutes.bind (commutes_modify _ fun st => ?_) fun _ => ?_
  · exact (Statistics.merge_recordDiagnostics before st _).symm
  · split
    · exact commutes_throw _
    · exact commutes_pure typing

theorem commutes_report (m : Machine) (s : Settings) (client : Option TaintClient) (u : CodeUnit) :
    Commutes before.merge (report m s client u) := by
  refine (commutes_lift before m u).bind fun g => ?_
  refine (commutes_verify before s g).bind fun _ => ?_
  refine (commutes_clean before s g).bind fun ⟨g, removed⟩ => ?_
  refine (commutes_type before s g).bind fun typing => ?_
  refine (commutes_ofExcept before _).bind fun plan => ?_
  cases s.printPlan with
  | false => exact Commutes.bind (commutes_pure none) fun _ => commutes_pure _
  | true =>
    refine Commutes.bind ((commutes_ofExcept before plan.text).bind fun text => ?_) fun _ => ?_
    · exact commutes_pure (some text)
    · exact commutes_pure _

end Pass

section Session
variable (m : Machine) (s : Settings) (client : Option TaintClient)

/-- One unit in a session that has counted `st`: its outcome, and what is counted after it. -/
def countUnit (st : Statistics) (u : CodeUnit) : Outcome × Statistics :=
  match Pass.report m s client u st with
  | .ok report st => (.lifted report, st.recordLifted)
  | .error e st =>
    if e.isRecoverable then (.fallback u.name e, st.recordFallback)
    else (.aborted u.name e, st.recordAborted)

/-- All units in one session, one after the other. -/
def countUnits : Statistics → List CodeUnit → Results
  | st, [] => ⟨[], st⟩
  | st, u :: rest =>
    let (outcome, st) := countUnit m s client st u
    let others := countUnits st rest
    ⟨outcome :: others.outcomes, others.statistics⟩

theorem countUnit_eq (st : Statistics) (u : CodeUnit) :
    countUnit m s client st u =
      ((runUnit m s client u).1, st.merge (runUnit m s client u).2) := by
  have h : Pass.report m s client u st = mapState st.merge (Pass.report m s client u {}) :=
    Pass.commutes_report st m s client u {}
  simp only [countUnit, runUnit, h]
  cases Pass.report m s client u {} with
  | ok report t => rfl
  | error e t =>
    simp only [mapState]
    cases e.isRecoverable <;> rfl

theorem countUnits_eq (st : Statistics) (units : List CodeUnit) :
    countUnits m s client st units = Results.append ⟨[], st⟩ (runUnits m s client units) := by
  induction units generalizing st with
  | nil => rfl
  | cons u rest ih =>
    rw [append_runUnits_cons]
    simp only [countUnits, countUnit_eq, ih]
    rfl

end Session

/-- The number of threads changes nothing in a run: outcomes and statistics are those of one thread,
and they are those of a single session that goes through the units in order and counts every
operation as it is emitted. Each unit has the outcome that it has in a program of its own. -/
theorem run_threads (m : Machine) (s : Settings) (p : Program) (n : Nat) :
    run m { s with threads := n } p = run m { s with threads := 1 } p ∧
    (partSize n p.units.length = 0 ↔ p.units = []) ∧
    (∀ u, Pass.lift m u = Pass.liftCounting m u) ∧
    match s.client with
    | .error e => run m { s with threads := n } p = .error e
    | .ok client =>
      ∃ r, run m { s with threads := n } p = .ok r ∧ r = countUnits m s client {} p.units ∧
        List.Forall₂ (fun u o => ∃ alone,
          run m { s with threads := n } ⟨[u]⟩ = .ok alone ∧ alone.outcomes = [o])
          p.units r.outcomes := by
  have hunits : ∀ k q, run m { s with threads := k } q =
      s.client.map fun client => runUnits m s client q.units :=
    fun k q => run_eq_runUnits m { s with threads := k } q
  refine ⟨by rw [hunits, hunits], ?_, Pass.lift_eq_counting m, ?_⟩
  · rw [partSize_eq_zero_iff, List.length_eq_zero_iff]
  split
  next e hc => rw [hunits, hc]; rfl
  next client hc =>
    have hrun : ∀ q, run m { s with threads := n } q = .ok (runUnits m s client q.units) := by
      intro q
      rw [hunits, hc]
      rfl
    refine ⟨_, hrun p, ?_, ?_⟩
    · rw [countUnits_eq, empty_append_runUnits]
    · rw [outcomes_runUnits, List.forall₂_map_right_iff]
      refine List.forall₂_same.mpr fun u _ => ⟨_, hrun ⟨[u]⟩, ?_⟩
      exact outcomes_runUnits m s client [u]

end DefUse
