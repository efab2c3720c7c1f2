import DefUse.Proofs.Graph.Execution
import DefUse.Proofs.Graph.Taint

namespace DefUse

/-- Whether what it gives is up to its operands: all operations but loads, which read memory, and
calls with effects. -/
def Operation.isFunctional : Operation → Bool
  | load .. => false
  | call userop .. => userop.isPure
  | _ => true

theorem Operation.isOrdered_of_isFunctional {op : Operation} {v : ValueId}
    (h : op.isFunctional = true) (hout : op.output = some v) : op.isOrdered = false := by
  cases op with
  | load => cases h
  | call userop => simpa [isFunctional, isOrdered, hasEffects] using h
  | copy => rfl
  | binary => rfl
  | unary => rfl
  | store => cases hout
  | branch => cases hout
  | cbranch => cases hout
  | branchInd => cases hout
  | writeback => cases hout

namespace Graph
variable {g : Graph} {client : TaintClient} {α μ : Type}

/-- No linked operation is a load or a call with effects. -/
def IsFunctional (g : Graph) : Prop :=
  ∀ id op, g.linked? id = some op → op.isFunctional = true

/-- The size of the value that an operation defines. -/
def outputSize (g : Graph) (op : Operation) : Nat :=
  match op.output.bind g.value? with
  | none => 0
  | some x => x.size

/-- Operations as functions of their operands and of the size of their output. -/
def meaning (g : Graph) (f : Operation → List α → Nat → α) : Meaning α Unit where
  compute op args := f op args (g.outputSize op)
  fetch op args _ := f op args (g.outputSize op)
  affect op args _ := (f op args (g.outputSize op), ())

/-- What the values are once the operations have run in some order, from what they are before. -/
def evaluate (g : Graph) (f : Operation → List α → Nat → α) (order : List OpId)
    (env : ValueId → α) : ValueId → α :=
  ((g.meaning f).run ⟨env, (), []⟩ (g.code order)).env

/-- Two runs agree on the untainted values that are free or whose definers are done. -/
def AgreesOn (g : Graph) (client : TaintClient) (done : Set OpId) (r s : Run α μ) : Prop :=
  ∀ v x, g.value? v = some x → v ∉ g.tainted client → (∀ d, x.definer = some d → d ∈ done) →
    r.env v = s.env v

/-- One operation. -/
theorem Consistent.agreesOn_step (hc : g.Consistent) (hf : g.IsFunctional) (m : Meaning α μ)
    {done : Set OpId} {r s : Run α μ} (h : g.AgreesOn client done r s) {id : OpId} {op : Operation}
    (hop : g.linked? id = some op) (hneeds : ∀ d, g.Needs id d → d ∈ done) :
    g.AgreesOn client (insert id done) (m.step r (id, op)) (m.step s (id, op)) := by
  intro v x hx huntainted hdone
  by_cases hout : op.output = some v
  · have hdef : x.definer = some id := (hc.definer_iff hx id).mpr ⟨op, hop, hout⟩
    have hordered : op.isOrdered = false := Operation.isOrdered_of_isFunctional (hf id op hop) hout
    have heffects : op.hasEffects = false := Operation.hasEffects_of_not_isOrdered hordered
    have hargs : op.inputs.map r.env = op.inputs.map s.env := by
      apply List.map_congr_left
      intro w hw
      obtain ⟨y, hy⟩ := Option.isSome_iff_exists.mp (hc.input_live hop hw)
      apply h w y hy
      · intro htainted
        apply huntainted
        rw [hc.mem_tainted_iff_definer hx]
        exact Or.inr ⟨id, op, hdef, hop, w, hw, htainted⟩
      · intro d hd
        exact hneeds d ⟨op, hop, Or.inl ⟨w, hw, y, hy, hd⟩⟩
    rw [m.env_step_output r hout, m.env_step_output s hout]
    simp [Meaning.result, heffects, hordered, hargs]
  · rw [m.env_step_of_ne r hout, m.env_step_of_ne s hout]
    apply h v x hx huntainted
    intro d hd
    rcases Set.mem_insert_iff.mp (hdone d hd) with rfl | hin
    · obtain ⟨p, hp, hpv⟩ := (hc.definer_iff hx d).mp hd
      rw [hop] at hp
      rw [Option.some.inj hp] at hout
      exact absurd hpv hout
    · exact hin

/-- All operations of a feasible order. -/
theorem Consistent.agreesOn_run (hc : g.Consistent) (hf : g.IsFunctional) (m : Meaning α μ)
    {done : Set OpId} {order : List OpId} (ho : g.Feasible done order)
    (hlinked : ∀ id ∈ order, (g.linked? id).isSome = true) {r s : Run α μ}
    (h : g.AgreesOn client done r s) :
    g.AgreesOn client {d | d ∈ done ∨ d ∈ order} (m.run r (g.code order))
      (m.run s (g.code order)) := by
  induction order generalizing done r s with
  | nil =>
    intro v x hx huntainted hdone
    exact h v x hx huntainted fun d hd => (hdone d hd).resolve_right List.not_mem_nil
  | cons id rest ih =>
    obtain ⟨_, hneeds, hrest⟩ := ho
    obtain ⟨op, hop⟩ := Option.isSome_iff_exists.mp (hlinked id List.mem_cons_self)
    have hstep := hc.agreesOn_step hf m h hop hneeds
    have hrun := ih hrest (fun a ha => hlinked a (List.mem_cons_of_mem id ha)) hstep
    rw [code_cons hop, Meaning.run_cons, Meaning.run_cons]
    intro v x hx huntainted hdone
    apply hrun v x hx huntainted
    intro d hd
    rcases hdone d hd with hin | hin
    · exact Or.inl (Set.mem_insert_of_mem id hin)
    · rcases List.mem_cons.mp hin with rfl | hin
      · exact Or.inl (Set.mem_insert d done)
      · exact Or.inr hin

/-- Untainted values do not depend on the taint sources. In a consistent graph with a schedule and
without loads and calls with effects, whatever the operations compute from their operands and output
sizes: if two assignments agree on all free values but entry values that the client names, they
lead to the same result for every value that is not tainted. -/
theorem untainted_values_agree {g : Graph} (hc : g.Consistent) {order : List OpId}
    (hs : g.schedule = .ok order) (hf : g.IsFunctional) (client : TaintClient) {α : Type}
    (f : Operation → List α → Nat → α) (first second : ValueId → α)
    (hfree : ∀ v x, g.value? v = some x → x.definer = none →
      (∀ location, x.origin = .entry location → client.isSource location = false) →
        first v = second v) :
    ∀ v, (g.value? v).isSome = true → v ∉ g.tainted client →
      g.evaluate f order first v = g.evaluate f order second v := by
  intro v hlive huntainted
  have harr : g.Arranges order := hc.arranges_of_schedule hs
  have hstart : g.AgreesOn client ∅ (⟨first, (), []⟩ : Run α Unit) ⟨second, (), []⟩ := by
    intro w x hx hw hdone
    have hnone : x.definer = none := by
      rw [Option.eq_none_iff_forall_ne_some]
      exact fun d hd => hdone d hd
    apply hfree w x hx hnone
    intro location ho
    by_contra hsource
    apply hw
    rw [hc.mem_tainted_iff_definer hx, isSource_iff hx]
    exact Or.inl ⟨location, ho, by simpa using hsource⟩
  have hend := hc.agreesOn_run hf (g.meaning f) harr.feasible
    (fun id hid => (harr.mem_iff id).mp hid) hstart
  obtain ⟨x, hx⟩ := Option.isSome_iff_exists.mp hlive
  apply hend v x hx huntainted
  intro d hd
  obtain ⟨op, hop, _⟩ := (hc.definer_iff hx d).mp hd
  exact Or.inr ((harr.mem_iff d).mpr (Option.isSome_of_eq_some hop))

/-- A userop without effects that takes any number of arguments. -/
def mix : Userop :=
  { name := "mix", inputs := [], output := .integer, variadic := true, isPure := true }

/-- A sum of two registers that is stored, and a copy, created before what it copies, of a call on the
second register and a constant. -/
def splitRegisters : Graph :=
  replay [.newEntry ⟨.register, 56, 8⟩, .newEntry ⟨.register, 0, 8⟩, .newConstant 5 8, .newOutput 8,
    .newOutput 8, .newOutput 8, .addLinked (.copy ⟨5⟩ ⟨4⟩),
    .addLinked (.binary .intAdd ⟨3⟩ ⟨0⟩ ⟨1⟩),
    .addLinked (.call mix (some ⟨4⟩) [⟨1⟩, ⟨2⟩, ⟨1⟩] [.any, .any, .any] {}),
    .addLinked (.store .ram ⟨1⟩ ⟨3⟩)] {}

/-- Adding up operands and size. -/
def addUp (_ : Operation) (args : List Nat) (size : Nat) : Nat :=
  args.foldl (· + ·) size

/-- The first register is the source. The sum tells what it holds, and the copy does not. -/
theorem splitRegisters_agree :
    splitRegisters.Consistent ∧ splitRegisters.schedule = .ok [⟨1⟩, ⟨2⟩, ⟨0⟩, ⟨3⟩] ∧
      splitRegisters.IsFunctional ∧
      splitRegisters.evaluate addUp [⟨1⟩, ⟨2⟩, ⟨0⟩, ⟨3⟩] (·.index) ⟨3⟩ ≠
        splitRegisters.evaluate addUp [⟨1⟩, ⟨2⟩, ⟨0⟩, ⟨3⟩]
          (Function.update (·.index) ⟨0⟩ 9) ⟨3⟩ ∧
      splitRegisters.evaluate addUp [⟨1⟩, ⟨2⟩, ⟨0⟩, ⟨3⟩] (·.index) ⟨5⟩ =
        splitRegisters.evaluate addUp [⟨1⟩, ⟨2⟩, ⟨0⟩, ⟨3⟩]
          (Function.update (·.index) ⟨0⟩ 9) ⟨5⟩ := by
  have hc : splitRegisters.Consistent := replay_consistent_of_nodup _ (by decide) (by decide)
  have hs : splitRegisters.schedule = .ok [⟨1⟩, ⟨2⟩, ⟨0⟩, ⟨3⟩] := by decide +kernel
  have hf : splitRegisters.IsFunctional := by
    have hall : ∀ e ∈ splitRegisters.linkedOps, e.2.isFunctional = true := by decide
    exact fun id op hop => hall (id, op) (mem_linkedOps_iff.mpr hop)
  have hclean : ⟨5⟩ ∉ splitRegisters.tainted (.overlapping "first" [⟨.register, 56, 8⟩]) := by
    apply hc.notMem_tainted [⟨1⟩, ⟨2⟩, ⟨4⟩, ⟨5⟩] <;> decide
  refine ⟨hc, hs, hf, by decide, ?_⟩
  apply untainted_values_agree hc hs hf _ addUp _ _ ?_ ⟨5⟩ (by decide) hclean
  intro v x hx _ hsource
  have hne : v ≠ ⟨0⟩ := by
    rintro rfl
    obtain rfl := Option.some.inj hx
    exact absurd (hsource _ rfl) (by decide)
  rw [Function.update_of_ne hne]

end Graph
end DefUse
