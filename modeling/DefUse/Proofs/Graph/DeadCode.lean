import DefUse.Proofs.Graph.Execution
import DefUse.Proofs.Graph.History
import DefUse.Proofs.Graph.Sweep

namespace DefUse

/-- Two runs with the same effects that agree on the values `live`. -/
structure Run.Agrees {α μ : Type} (live : ValueId → Prop) (r s : Run α μ) : Prop where
  env : ∀ v, live v → r.env v = s.env v
  memory : r.memory = s.memory
  log : r.log = s.log

namespace Meaning
variable {α μ : Type} {live : ValueId → Prop} {r s : Run α μ}

/-- An operation on live operands keeps the agreement. -/
theorem agrees_step (m : Meaning α μ) (h : r.Agrees live s) {x : OpId × Operation}
    (hin : ∀ v ∈ x.2.inputs, live v) : (m.step r x).Agrees live (m.step s x) := by
  have hargs : x.2.inputs.map r.env = x.2.inputs.map s.env :=
    List.map_congr_left fun v hv => h.env v (hin v hv)
  refine ⟨?_, ?_, ?_⟩
  · intro v hv
    by_cases hout : x.2.output = some v
    · rw [m.env_step_output r hout, m.env_step_output s hout, hargs, h.memory]
    · rw [m.env_step_of_ne r hout, m.env_step_of_ne s hout]
      exact h.env v hv
  · simp only [step, hargs, h.memory]
  · simp only [step, hargs, h.log]

/-- An operation without effects whose output is not live can be left out. -/
theorem agrees_step_left (m : Meaning α μ) (h : r.Agrees live s) {x : OpId × Operation}
    (heff : x.2.hasEffects = false) (hout : ∀ v, live v → x.2.output ≠ some v) :
    (m.step r x).Agrees live s := by
  obtain ⟨hmemory, hlog⟩ := m.step_of_not_effects r heff
  refine ⟨?_, hmemory.trans h.memory, hlog.trans h.log⟩
  intro v hv
  rw [m.env_step_of_ne r (hout v hv)]
  exact h.env v hv

end Meaning

namespace Graph

theorem code_cons_of_none {g : Graph} {id : OpId} (h : g.linked? id = none) (order : List OpId) :
    g.code (id :: order) = g.code order := by
  simp [code, h]

/-- Operations that are not linked add nothing to the code. -/
theorem code_filter (g : Graph) (order : List OpId) :
    g.code (order.filter fun id => (g.linked? id).isSome) = g.code order := by
  unfold code
  rw [List.filterMap_filter]
  congr 1
  funext id
  cases g.linked? id <;> rfl

theorem Shrinks.needs {g h : Graph} (hs : g.Shrinks h) {id d : OpId} (hn : h.Needs id d) :
    g.Needs id d := by
  obtain ⟨op, hop, ⟨v, hv, x, hx, hd⟩ | ⟨ho, hlt, p, hp, hpo⟩⟩ := hn
  · obtain ⟨y, hy, _, _, hdef⟩ := hs.value hx
    exact ⟨op, hs.linked? hop, Or.inl ⟨v, hv, y, hy, hdef.trans hd⟩⟩
  · exact ⟨op, hs.linked? hop, Or.inr ⟨ho, hlt, p, hs.linked? hp, hpo⟩⟩

theorem Shrinks.feasible {g h : Graph} (hs : g.Shrinks h) (hc : h.Consistent)
    {done kept : Set OpId} (hsub : kept ⊆ done)
    (hkept : ∀ d ∈ done, (h.linked? d).isSome = true → d ∈ kept) {order : List OpId}
    (ho : g.Feasible done order) :
    h.Feasible kept (order.filter fun id => (h.linked? id).isSome) := by
  induction order generalizing done kept with
  | nil => trivial
  | cons id rest ih =>
    obtain ⟨hnew, hneeds, hrest⟩ := ho
    by_cases hid : (h.linked? id).isSome = true
    · rw [List.filter_cons, if_pos hid]
      refine ⟨fun hin => hnew (hsub hin), ?_, ?_⟩
      · intro d hd
        exact hkept d (hneeds d (hs.needs hd)) (hc.linked_of_needs hd)
      · refine ih (Set.insert_subset_insert hsub) ?_ hrest
        intro d hd hl
        rcases hd with rfl | hd
        · exact Set.mem_insert d kept
        · exact Set.mem_insert_of_mem id (hkept d hd hl)
    · rw [List.filter_cons, if_neg hid]
      refine ih (fun d hd => Set.mem_insert_of_mem id (hsub hd)) ?_ hrest
      intro d hd hl
      rcases hd with rfl | hd
      · exact absurd hl hid
      · exact hkept d hd hl

/-- What is left of an arrangement arranges what is left of the graph. -/
theorem Shrinks.arranges {g h : Graph} (hs : g.Shrinks h) (hc : h.Consistent) {order : List OpId}
    (ho : g.Arranges order) : h.Arranges (order.filter fun id => (h.linked? id).isSome) where
  feasible := hs.feasible hc (Set.Subset.refl ∅) (fun d hd _ => hd) ho.feasible
  mem_iff id := by
    rw [List.mem_filter]
    constructor
    · exact fun hid => hid.2
    · intro hid
      obtain ⟨op, hop⟩ := Option.isSome_iff_exists.mp hid
      exact ⟨(ho.mem_iff id).mpr (Option.isSome_of_eq_some (hs.linked? hop)), hid⟩

/-- In the same order, a graph and what is left of it agree on the values left. -/
theorem Shrinks.agrees_run {α μ : Type} {g h : Graph} (hs : g.Shrinks h) (hc : h.Consistent)
    (hg : g.Consistent) (m : Meaning α μ) {order : List OpId}
    (ho : ∀ id ∈ order, (g.linked? id).isSome = true) {r s : Run α μ}
    (hrs : r.Agrees (fun v => (h.value? v).isSome = true) s) :
    (m.run r (g.code order)).Agrees (fun v => (h.value? v).isSome = true)
      (m.run s (h.code order)) := by
  induction order generalizing r s with
  | nil => exact hrs
  | cons id rest ih =>
    have hrest := fun a ha => ho a (List.mem_cons_of_mem id ha)
    obtain ⟨op, hop⟩ := Option.isSome_iff_exists.mp (ho id List.mem_cons_self)
    rw [code_cons hop, Meaning.run_cons]
    rcases hs.node id with hsame | ⟨hgone, op', hop', heff⟩
    · have hop' : h.linked? id = some op := (linked?_congr hsame).trans hop
      rw [code_cons hop', Meaning.run_cons]
      exact ih hrest (m.agrees_step hrs fun v hv => hc.input_live hop' hv)
    · obtain rfl := Option.some.inj (hop.symm.trans hop')
      have hnone : h.linked? id = none := by
        rw [Option.eq_none_iff_forall_ne_some]
        intro p hp
        rw [linked?_eq_some_iff, hgone] at hp
        cases hp
      rw [code_cons_of_none hnone]
      refine ih hrest (m.agrees_step_left hrs heff ?_)
      -- a value left keeps its definer, and the definer is still linked
      intro v hv hout
      obtain ⟨x, hx⟩ := Option.isSome_iff_exists.mp hv
      obtain ⟨y, hy, _, _, hdef⟩ := hs.value hx
      have hdefiner := (hg.definer_iff hy id).mpr ⟨op, hop, hout⟩
      obtain ⟨p, hp, _⟩ := (hc.definer_iff hx id).mp (hdef.symm.trans hdefiner)
      rw [hnone] at hp
      cases hp

/-- A consistent graph with a schedule and what dead code elimination leaves of it perform the same
effects on the same operands, end in the same memory, and agree on every value left. -/
theorem eliminateDeadCode_keeps_meaning {g : Graph} (hc : g.Consistent) {order : List OpId}
    (hg : g.schedule = .ok order) :
    ∃ (removed : Nat) (h : Graph) (order' : List OpId),
      eliminateDeadCode g = .ok removed h ∧ h.schedule = .ok order' ∧
      ∀ {α μ : Type} (m : Meaning α μ) (env : ValueId → α) (memory : μ),
        (m.run ⟨env, memory, []⟩ (g.code order)).Agrees (fun v => (h.value? v).isSome = true)
          (m.run ⟨env, memory, []⟩ (h.code order')) := by
  obtain ⟨removed, h, hok, hh, hs⟩ := hc.eliminateDeadCode
  have harr := hc.arranges_of_schedule hg
  have hleft := hs.arranges hh harr
  obtain ⟨order', hsched⟩ := hh.schedule_of_arranges hleft
  refine ⟨removed, h, order', hok, hsched, ?_⟩
  intro α μ m env memory
  have hagree := hs.agrees_run hh hc m (fun id hid => (harr.mem_iff id).mp hid)
    (r := ⟨env, memory, []⟩) (s := ⟨env, memory, []⟩) ⟨fun _ _ => rfl, rfl, rfl⟩
  -- the schedule of what is left need not be the old one filtered, but it runs the same
  rwa [← code_filter h order, hh.run_eq m hleft (hh.arranges_of_schedule hsched)] at hagree

/-- A store of what is loaded after its copy was created, with a second load that nothing reads. -/
def unreadLoad : Graph :=
  replay [.newEntry ⟨.ram, 16, 8⟩, .newOutput 8, .newOutput 8, .newOutput 8,
    .addLinked (.copy ⟨2⟩ ⟨1⟩), .addLinked (.load ⟨1⟩ .ram ⟨0⟩), .addLinked (.load ⟨3⟩ .ram ⟨0⟩),
    .addLinked (.store .ram ⟨0⟩ ⟨2⟩)] {}

theorem unreadLoad_keeps_meaning :
    unreadLoad.Consistent ∧ unreadLoad.schedule = .ok [⟨1⟩, ⟨0⟩, ⟨2⟩, ⟨3⟩] ∧
      ∃ (removed : Nat) (h : Graph) (order : List OpId),
        eliminateDeadCode unreadLoad = .ok removed h ∧ h.schedule = .ok order ∧
        ∀ {α μ : Type} (m : Meaning α μ) (env : ValueId → α) (memory : μ),
          (m.run ⟨env, memory, []⟩ (unreadLoad.code [⟨1⟩, ⟨0⟩, ⟨2⟩, ⟨3⟩])).Agrees
            (fun v => (h.value? v).isSome = true) (m.run ⟨env, memory, []⟩ (h.code order)) := by
  have hc : unreadLoad.Consistent :=
    replay_consistent_of_nodup _ (by decide) (by decide)
  have hs : unreadLoad.schedule = .ok [⟨1⟩, ⟨0⟩, ⟨2⟩, ⟨3⟩] := by decide +kernel
  exact ⟨hc, hs, eliminateDeadCode_keeps_meaning hc hs⟩

end Graph
end DefUse
