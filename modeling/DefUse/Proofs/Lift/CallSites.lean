import DefUse.Proofs.Lift.Checked
import DefUse.Proofs.Snapshot

namespace DefUse

/-- The calls of a graph, in order of creation. -/
def Graph.calls (g : Graph) : List (OpId × Operation) :=
  g.linkedOps.filter (·.2.isCall)

namespace Lift
open Lifting

/-- The calls that are added behind those that are there. -/
theorem Step.calls {P : Operation → Prop} {s t : Lifting} (h : Step P s t) :
    ∃ new, t.graph.calls = s.graph.calls ++ new ∧ ∀ y ∈ new, P y.2 := by
  have hnone (hgraph : t.graph.calls = s.graph.calls) :
      ∃ new, t.graph.calls = s.graph.calls ++ new ∧ ∀ y ∈ new, P y.2 :=
    ⟨[], hgraph.trans (List.append_nil _).symm, by simp⟩
  cases h with
  | create x => exact hnone rfl
  | @append op _ call =>
    refine ⟨[(⟨s.graph.nodes.next⟩, op)].filter (·.2.isCall), ?_, ?_⟩
    · simp only [Graph.calls, Graph.linkedOps_appended, List.filter_append]
    · intro y hy
      obtain ⟨hin, hcall⟩ := List.mem_filter.mp hy
      rw [List.mem_singleton.mp hin] at hcall ⊢
      exact call hcall
  | writeBack l v =>
    apply hnone
    rw [Graph.calls, Graph.linkedOps_appended, List.filter_append]
    exact List.append_nil _
  | learn graph => exact hnone (by rw [graph])

theorem calls_of_steps {P : Operation → Prop} {s t : Lifting} (h : Steps P s t) :
    ∃ new, t.graph.calls = s.graph.calls ++ new ∧ ∀ y ∈ new, P y.2 := by
  induction h with
  | refl => exact ⟨[], (List.append_nil _).symm, by simp⟩
  | tail _ hstep ih =>
    obtain ⟨new, hcalls, hnew⟩ := ih
    obtain ⟨more, hmore, hlast⟩ := hstep.calls
    refine ⟨new ++ more, ?_, List.forall_mem_append.mpr ⟨hnew, hlast⟩⟩
    rw [hmore, hcalls, List.append_assoc]

section Units
variable {α : Type} {P : Operation → Prop} {m : Machine} {s t b : Lifting}

/-- A state in which lifting ends or the unit falls back. -/
def Stops (x : Lift α) (s t : Lifting) : Prop :=
  (∃ a, x s = .ok a t) ∨ ∃ e, e.isRecoverable = true ∧ x s = .error e t

theorem TakesSteps.steps {x : Lift α} (h : TakesSteps P x s) (hx : Stops x s t) : Steps P s t := by
  unfold TakesSteps at h
  rcases hx with ⟨a, hx⟩ | ⟨e, he, hx⟩
  · rw [hx] at h
    exact h
  · rw [hx] at h
    exact h.2 he

/-- A call that a record of a unit adds. -/
structure Added (m : Machine) (rs : List Record) (y : OpId × Operation) (before after : List Record)
    (r : Record) (s t u : Lifting) : Prop where
  place : rs = before ++ r :: after
  runs : records m before {} = .ok () s
  stops : Stops (record m r) s t
  new : y ∉ s.graph.linkedOps
  added : y ∈ t.graph.linkedOps
  call : CallOf m r s y.2 u

theorem records_concat {before : List Record} {r : Record} (h : records m before s = .ok () t)
    (hr : record m r t = .ok () b) : records m (before ++ [r]) s = .ok () b := by
  induction before generalizing s with
  | nil =>
    cases h
    simp only [List.nil_append, records, bind, EStateM.bind, hr]
    rfl
  | cons first rest ih =>
    simp only [records, List.cons_append, bind, EStateM.bind] at h ⊢
    split at h
    next => exact ih h
    next => cases h

/-- A record adds its calls behind those that are there. -/
theorem added_of_record {rs before after : List Record} {r : Record}
    (hplace : rs = before ++ r :: after) (hs : records m before {} = .ok () s)
    (ht : Stops (record m r) s t) {y : OpId × Operation} (hy : y ∈ t.graph.calls) :
    y ∈ s.graph.calls ∨ ∃ u, Added m rs y before after r s t u := by
  obtain ⟨new, hcalls, hnew⟩ := calls_of_steps ((takesSteps_record m r s).steps ht)
  have hin := (List.mem_filter.mp hy).1
  have hsorted := t.graph.pairwise_linkedOps.filter (·.2.isCall)
  rw [show t.graph.linkedOps.filter (·.2.isCall) = s.graph.calls ++ new from hcalls] at hsorted
  rw [hcalls, List.mem_append] at hy
  apply hy.imp_right
  intro hmem
  obtain ⟨u, hcallOf⟩ := hnew y hmem
  refine ⟨u, hplace, hs, ht, ?_, hin, hcallOf⟩
  -- it would come before itself
  intro hold
  obtain ⟨_, _, _, _, _, _, _, _, hop⟩ := hcallOf.call
  have hcall : y ∈ s.graph.calls := List.mem_filter.mpr ⟨hold, by rw [hop]; rfl⟩
  exact Nat.lt_irrefl _ ((List.pairwise_append.mp hsorted).2.2 y hcall y hmem)

theorem added_of_records {rs before rest : List Record} (hplace : rs = before ++ rest)
    (hs : records m before {} = .ok () s) (hb : Stops (records m rest) s b) {y : OpId × Operation}
    (hy : y ∈ b.graph.calls) :
    y ∈ s.graph.calls ∨ ∃ before after r s t u, Added m rs y before after r s t u := by
  induction rest generalizing before s with
  | nil =>
    rcases hb with ⟨_, hb⟩ | ⟨e, _, hb⟩
    · cases hb
      exact Or.inl hy
    · cases hb
  | cons r rest ih =>
    simp only [Stops, records, bind, EStateM.bind] at hb
    cases hr : record m r s with
    | error e t =>
      rw [hr] at hb
      have ht : Stops (record m r) s b := by
        rcases hb with ⟨_, hb⟩ | ⟨e', he, hb⟩
        · cases hb
        · cases hb
          exact Or.inr ⟨_, he, hr⟩
      rcases added_of_record hplace hs ht hy with hold | ⟨u, hadded⟩
      · exact Or.inl hold
      · exact Or.inr ⟨_, _, _, _, _, _, hadded⟩
    | ok _ t =>
      rw [hr] at hb
      have hplace' : rs = (before ++ [r]) ++ rest := by
        rw [hplace, List.append_assoc]
        rfl
      rcases ih hplace' (records_concat hs hr) hb with hold | hadded
      · rcases added_of_record hplace hs (Or.inl ⟨(), hr⟩) hold with hold | ⟨u, hadded⟩
        · exact Or.inl hold
        · exact Or.inr ⟨_, _, _, _, _, _, hadded⟩
      · exact Or.inr hadded

/-- Every call of a unit's graph is one that a record added. -/
theorem added_of_lift {u : CodeUnit} (hb : m.lift u = .ok () b ∨ ∃ e, m.lift u = .error e b)
    {y : OpId × Operation} (hy : y ∈ b.graph.calls) :
    ∃ before after r s t w, Added m u.records y before after r s t w := by
  have hend : Stops (codeUnit m u) {} b := by
    rcases hb with hb | ⟨e, hb⟩
    · exact Or.inl ⟨(), hb⟩
    · exact Or.inr ⟨e, Machine.recoverable_of_lift hb, hb⟩
  have hrecords : ∃ t, Stops (records m u.records) {} t ∧ y ∈ t.graph.calls := by
    simp only [Stops, codeUnit, bind, EStateM.bind] at hend
    cases hr : records m u.records {} with
    | error e t =>
      rw [hr] at hend
      rcases hend with ⟨_, hb⟩ | ⟨e', he, hb⟩
      · cases hb
      · cases hb
        exact ⟨_, Or.inr ⟨_, he, hr⟩, hy⟩
    | ok _ t =>
      rw [hr] at hend
      have hsteps := @takesSteps_settle (fun _ => False) t
      obtain ⟨new, hcalls, hnone⟩ := calls_of_steps (hsteps.steps hend)
      refine ⟨t, Or.inl ⟨(), hr⟩, ?_⟩
      rw [hcalls, List.mem_append] at hy
      exact hy.resolve_right fun hin => hnone y hin
  obtain ⟨t, ht, hcall⟩ := hrecords
  have hstart : records m [] {} = .ok () {} := rfl
  rcases added_of_records (List.nil_append _).symm hstart ht hcall with hempty | hadded
  · cases hempty
  · exact hadded

end Units

theorem Added.nodup_keys {m : Machine} {rs before after : List Record} {y : OpId × Operation}
    {r : Record} {s t u : Lifting} (h : Added m rs y before after r s t u) :
    u.contents.keys.Nodup := by
  obtain ⟨name, args, userop, out, values, _, _, hread, _⟩ := h.call.call
  have hlifts := (ensures_records sound_empty before).of_ok h.runs
  obtain ⟨new, hreach⟩ := hlifts.reaches sound_empty
  have hsteady := steady_of_readAll (hlifts.steady steady_empty) hreach.sound hread
  exact hsteady.1.keyed

/-- Snapshots are exact maps, and that of a call is taken where its arguments have been read. -/
theorem call_snapshots_are_exact :
    (∀ entries : List (Location × ValueId), (Assoc.keys entries).Nodup →
      (Snapshot.ofList entries).Exact entries ∧
        ∀ other, other.Perm entries → Snapshot.ofList other = Snapshot.ofList entries) ∧
    ∀ (m : Machine) (u : CodeUnit) (b : Lifting),
      (m.lift u = .ok () b ∨ ∃ e, m.lift u = .error e b) →
      ∀ id userop out values types state,
        (id, .call userop out values types state) ∈ b.graph.linkedOps →
        ∃ before r after name args s t read, u.records = before ++ r :: after ∧
          records m before {} = .ok () s ∧ Stops (record m r) s t ∧
          (id, .call userop out values types state) ∉ s.graph.linkedOps ∧
          (id, .call userop out values types state) ∈ t.graph.linkedOps ∧
          RecordOpcode.ofMnemonic? r.opcode = some .callOther ∧
          r.operands = .userop name :: args ∧ m.userops.get? name = some userop ∧
          readAll m r.line args s = .ok values read ∧
          (∀ l, state.get? l = read.contents.get? l) ∧
          ∀ entries, entries.Perm read.contents → state = Snapshot.ofList entries := by
  constructor
  · intro entries h
    exact ⟨Snapshot.exact_ofList h, fun other hperm => Snapshot.ofList_congr h hperm⟩
  · intro m u b hb id userop out values types state hcall
    obtain ⟨before, after, r, s, t, read, hadded⟩ :=
      added_of_lift hb (List.mem_filter.mpr ⟨hcall, rfl⟩)
    have hkeys := hadded.nodup_keys
    obtain ⟨name, args, userop', out', values', hargs, huserop, hread, hop⟩ := hadded.call.call
    cases hop
    refine ⟨before, r, after, name, args, s, t, read, hadded.place, hadded.runs, hadded.stops,
      hadded.new, hadded.added, hadded.call.opcode, hargs, huserop, hread,
      Snapshot.get?_ofList hkeys, ?_⟩
    intro entries hperm
    exact (Snapshot.ofList_congr hkeys hperm).symm

/-- Memory is written, and a call follows that may change it. -/
def callAfterWrite : CodeUnit :=
  { name := "f", line := 1, records := [
    ⟨2, some (.varnode "ram" 0x1000 8), "COPY", [.varnode "const" 7 8]⟩,
    ⟨3, none, "CALLOTHER", [.userop "syscall", .name "RDI"]⟩] }

/-- The call still sees the write that is then forgotten. -/
theorem callAfterWrite_sees_write :
    Snapshot.ofList [(⟨.ram, 8, 4⟩, ⟨1⟩), (⟨.register, 0, 8⟩, ⟨0⟩)] =
      Snapshot.ofList [(⟨.register, 0, 8⟩, ⟨0⟩), (⟨.ram, 8, 4⟩, ⟨1⟩)] ∧
    ∃ b id userop out values types state, ({} : Machine).lift callAfterWrite = .ok () b ∧
      (id, .call userop out values types state) ∈ b.graph.linkedOps ∧
      state.get? ⟨.ram, 0x1000, 8⟩ = some ⟨1⟩ ∧ b.contents.get? ⟨.ram, 0x1000, 8⟩ = none := by
  obtain ⟨hmaps, hunits⟩ := call_snapshots_are_exact
  refine ⟨(hmaps _ (by decide)).2 _ (List.Perm.swap ..), ?_⟩
  have hlifted : (({} : Machine).lifted? callAfterWrite).map (fun b =>
      (b.graph.linkedOps.map (·.2.isCall), b.contents.get? ⟨.ram, 0x1000, 8⟩)) =
        some ([false, false, true], none) := by decide +kernel
  obtain ⟨b, hb, heq⟩ := Option.map_eq_some_iff.mp hlifted
  obtain ⟨hcode, hforgotten⟩ := Prod.mk.inj heq
  have hl := Machine.lift_of_lifted? hb
  have hcall : true ∈ b.graph.linkedOps.map (·.2.isCall) := by
    rw [hcode]
    decide
  obtain ⟨⟨id, op⟩, hmem, hcall⟩ := List.mem_map.mp hcall
  cases op with
  | call userop out values types state =>
    obtain ⟨before, r, after, name, args, s, t, read, hplace, hruns, _, _, _, _, hargs, _, hread,
      hget, _⟩ := hunits {} _ b (Or.inl hl) _ _ _ _ _ _ hmem
    refine ⟨b, id, userop, out, values, types, state, hl, hmem, ?_, hforgotten⟩
    rw [hget]
    have hwritten : ((after? (records {} (callAfterWrite.records.take 1)) {}).bind
        (after? (readAll {} 3 [.name "RDI"]))).bind (·.contents.get? ⟨.ram, 0x1000, 8⟩) =
          some ⟨1⟩ := by decide +kernel
    -- only the second record is a call
    rcases before with _ | ⟨first, _ | ⟨second, rest⟩⟩
    · cases hplace
      cases hargs
    · cases hplace
      cases hargs
      simpa [after?, callAfterWrite, hruns, hread] using hwritten
    · simp [callAfterWrite] at hplace
  | _ => cases hcall

end Lift
end DefUse
