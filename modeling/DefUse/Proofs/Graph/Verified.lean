import Mathlib.Data.List.Perm.Subperm
import DefUse.Graph.Consistency
import DefUse.Proofs.Graph.Order

namespace DefUse

theorem forM_eq_ok_iff {ε α : Type} {xs : List α} {f : α → Except ε PUnit} :
    xs.forM f = .ok ⟨⟩ ↔ ∀ x ∈ xs, f x = .ok ⟨⟩ := by
  induction xs with
  | nil => simp [List.forM, pure, Except.pure]
  | cons x rest ih =>
    rw [List.forall_mem_cons, ← ih]
    cases hx : f x with
    | ok u => simp [List.forM, hx, bind, Except.bind]
    | error e => simp [List.forM, hx, bind, Except.bind]

theorem Values.length_reads (id : OpId) (position : Nat) (inputs : List ValueId) (v : ValueId) :
    (reads id position inputs v).length = inputs.count v := by
  induction inputs generalizing position with
  | nil => rfl
  | cons w rest ih =>
    rw [reads, List.count_cons]
    by_cases hw : w = v
    · simp [hw, ih]
    · simp [hw, ih]

namespace Graph
variable {g : Graph}

/-- The operand positions of linked operations that hold a value. -/
def neededUses (g : Graph) (v : ValueId) : List Use :=
  g.linkedOps.flatMap fun e => Values.reads e.1 0 e.2.inputs v

theorem mem_neededUses {v : ValueId} {u : Use} :
    u ∈ g.neededUses v ↔ ∃ op, g.linked? u.op = some op ∧ op.inputs[u.position]? = some v := by
  rw [neededUses, List.mem_flatMap]
  constructor
  · rintro ⟨⟨id, op⟩, hop, hin⟩
    obtain ⟨hid, hat⟩ := Values.mem_reads_zero.mp hin
    refine ⟨op, ?_, hat⟩
    rw [hid]
    exact mem_linkedOps_iff.mp hop
  · rintro ⟨op, hop, hat⟩
    exact ⟨(u.op, op), mem_linkedOps_iff.mpr hop, Values.mem_reads_zero.mpr ⟨rfl, hat⟩⟩

theorem nodup_neededUses (g : Graph) (v : ValueId) : (g.neededUses v).Nodup := by
  rw [neededUses, List.nodup_flatMap]
  refine ⟨fun e _ => Values.nodup_reads .., g.pairwise_linkedOps.imp ?_⟩
  -- uses of different operations differ
  intro a b hlt u hua hub
  have ha := (Values.mem_reads_zero.mp hua).1
  have hb := (Values.mem_reads_zero.mp hub).1
  rw [← ha, ← hb] at hlt
  exact Nat.lt_irrefl _ hlt

theorem length_neededUses (g : Graph) (v : ValueId) : (g.neededUses v).length = g.readCount v := by
  unfold neededUses readCount
  induction g.linkedOps with
  | nil => rfl
  | cons e rest ih => simp [List.flatMap_cons, Values.length_reads, ih]

theorem checkInputs_eq_ok_iff {id : OpId} {position : Nat} {inputs : List ValueId} :
    g.checkInputs id position inputs = .ok () ↔
      ∀ i v, inputs[i]? = some v → ∃ x, g.value? v = some x ∧ ⟨id, position + i⟩ ∈ x.uses := by
  induction inputs generalizing position with
  | nil => simp [checkInputs]
  | cons v rest ih =>
    rw [Values.forall_positions_cons (P := fun p w => ∃ x, g.value? w = some x ∧ ⟨id, p⟩ ∈ x.uses),
      ← ih]
    cases hx : g.value? v with
    | none => simp [checkInputs, value, hx, bind, Except.bind]
    | some x =>
      by_cases hu : ⟨id, position⟩ ∈ x.uses <;>
        simp [checkInputs, value, hx, bind, Except.bind, Value.hasUse, hu]

theorem checkOp_eq_ok_iff {id : OpId} {op : Operation} :
    g.checkOp id op = .ok () ↔ op.Recorded id g.values := by
  have hinputs : g.checkInputs id 0 op.inputs = .ok () ↔
      ∀ i v, op.inputs[i]? = some v → ∃ x, g.value? v = some x ∧ ⟨id, i⟩ ∈ x.uses := by
    rw [checkInputs_eq_ok_iff]
    simp only [Nat.zero_add]
  cases hin : g.checkInputs id 0 op.inputs with
  | error e =>
    rw [hin] at hinputs
    have hnot : ¬op.Recorded id g.values := by
      intro h
      cases hinputs.mpr h.inputs
    simp [checkOp, hin, bind, Except.bind, hnot]
  | ok _ =>
    have hrec := hinputs.mp hin
    have hiff : op.Recorded id g.values ↔
        ∀ v, op.output = some v → ∃ x, g.value? v = some x ∧ x.definer = some id :=
      ⟨fun h => h.output, fun h => ⟨h, hrec⟩⟩
    rw [hiff]
    cases hout : op.output with
    | none => simp [checkOp, hin, hout, bind, Except.bind]
    | some out =>
      cases hx : g.value? out with
      | none => simp [checkOp, hin, hout, value, hx, bind, Except.bind]
      | some x =>
        by_cases hd : x.definer = some id <;>
          simp [checkOp, hin, hout, value, hx, hd, bind, Except.bind]

theorem checkValue_eq_ok_iff {v : ValueId} {x : Value} :
    g.checkValue v x = .ok () ↔ x.uses.length = g.readCount v ∧
      ∀ d, x.definer = some d → ∃ op, g.linked? d = some op ∧ op.output = some v := by
  unfold checkValue
  by_cases hlen : x.uses.length = g.readCount v
  · rw [if_pos hlen]
    cases hd : x.definer with
    | none => simp [hlen]
    | some d =>
      simp only [hlen, linked?_eq_some_iff]
      cases hn : g.node? d with
      | none => simp [hn]
      | some node =>
        obtain ⟨op, linked⟩ := node
        cases linked <;> by_cases hout : op.output = some v <;> simp [hn, hout]
  · simp [hlen]

theorem verify_eq_ok_iff_checks :
    g.verify = .ok () ↔ (∀ id op, g.linked? id = some op → op.Recorded id g.values) ∧
      ∀ v x, g.value? v = some x → x.uses.length = g.readCount v ∧
        ∀ d, x.definer = some d → ∃ op, g.linked? d = some op ∧ op.output = some v := by
  have hops : (g.linkedOps.forM fun e => g.checkOp e.1 e.2) = .ok () ↔
      ∀ id op, g.linked? id = some op → op.Recorded id g.values := by
    rw [forM_eq_ok_iff]
    constructor
    · intro h id op hop
      exact checkOp_eq_ok_iff.mp (h (id, op) (mem_linkedOps_iff.mpr hop))
    · intro h e he
      exact checkOp_eq_ok_iff.mpr (h e.1 e.2 (mem_linkedOps_iff.mp he))
  have hvalues : (g.values.list.forM fun e => g.checkValue e.1 e.2) = .ok () ↔
      ∀ v x, g.value? v = some x → x.uses.length = g.readCount v ∧
        ∀ d, x.definer = some d → ∃ op, g.linked? d = some op ∧ op.output = some v := by
    rw [forM_eq_ok_iff]
    constructor
    · intro h v x hx
      exact checkValue_eq_ok_iff.mp (h (v, x) (Values.mem_list.mpr hx))
    · intro h e he
      exact checkValue_eq_ok_iff.mpr (h e.1 e.2 (Values.mem_list.mp he))
  rw [← hops, ← hvalues]
  unfold verify
  cases hok : (g.linkedOps.forM fun e => g.checkOp e.1 e.2) with
  | error e => simp [bind, Except.bind]
  | ok _ => simp [bind, Except.bind]

/-- The recorded uses of a value are the ones that are needed. -/
theorem Consistent.perm_uses (hc : g.Consistent) {v : ValueId} {x : Value}
    (hx : g.value? v = some x) : x.uses.Perm (g.neededUses v) := by
  refine (List.perm_ext_iff_of_nodup (hc.nodup_uses hx) (g.nodup_neededUses v)).mpr ?_
  intro u
  rw [hc.mem_uses hx, mem_neededUses]

/-- Uses that contain the needed ones and are as many are the needed ones. -/
theorem perm_neededUses {v : ValueId} {x : Value} (hx : g.value? v = some x)
    (hrec : ∀ id op, g.linked? id = some op → op.Recorded id g.values)
    (hlen : x.uses.length = g.readCount v) : x.uses.Perm (g.neededUses v) := by
  have hsub : g.neededUses v ⊆ x.uses := by
    intro u hu
    obtain ⟨op, hop, hat⟩ := mem_neededUses.mp hu
    obtain ⟨y, hy, huse⟩ := (hrec u.op op hop).inputs u.position v hat
    obtain rfl : x = y := Option.some.inj (hx.symm.trans hy)
    exact huse
  have hle : x.uses.length ≤ (g.neededUses v).length := by rw [length_neededUses, hlen]
  exact ((List.subperm_of_subset (g.nodup_neededUses v) hsub).perm_of_length_le hle).symm

theorem verify_eq_ok_iff : g.verify = .ok () ↔ g.Consistent := by
  rw [verify_eq_ok_iff_checks]
  constructor
  · rintro ⟨hrec, hvalues⟩
    have hperm : ∀ {v x}, g.value? v = some x → x.uses.Perm (g.neededUses v) :=
      fun hx => perm_neededUses hx hrec (hvalues _ _ hx).1
    refine ⟨?_, ?_, ?_, ?_, ?_⟩
    · intro v x hx u
      rw [(hperm hx).mem_iff, mem_neededUses]
    · intro v x hx
      exact (hperm hx).nodup_iff.mpr (g.nodup_neededUses v)
    · intro v x hx id
      refine ⟨(hvalues v x hx).2 id, ?_⟩
      rintro ⟨op, hop, hout⟩
      obtain ⟨y, hy, hd⟩ := (hrec id op hop).output v hout
      obtain rfl : x = y := Option.some.inj (hx.symm.trans hy)
      exact hd
    · intro id op v hop hv
      obtain ⟨i, hi⟩ := List.getElem?_of_mem hv
      obtain ⟨x, hx, _⟩ := (hrec id op hop).inputs i v hi
      exact Option.isSome_of_eq_some hx
    · intro id op v hop hv
      obtain ⟨x, hx, _⟩ := (hrec id op hop).output v hv
      exact Option.isSome_of_eq_some hx
  · intro hc
    refine ⟨fun id op hop => hc.recorded hop, fun v x hx => ⟨?_, fun d hd => ?_⟩⟩
    · rw [(hc.perm_uses hx).length_eq, length_neededUses]
    · exact (hc.definer_iff hx d).mp hd

theorem Consistent.verify_eq (hc : g.Consistent) : g.verify = .ok () :=
  verify_eq_ok_iff.mpr hc

/-- Whatever the tables of values and operations are, as long as no value lists a use twice: the check
accepts the graph just when all that linked operations read and define is live, the uses of each
live value are the positions of linked operations that hold it, and its definer is the linked
operation that has it as output. -/
theorem verify_decides_consistency (g : Graph)
    (hnodup : ∀ v x, g.value? v = some x → x.uses.Nodup) :
    g.verify = .ok () ↔
      (∀ id op, g.linked? id = some op →
        (∀ v ∈ op.inputs, (g.value? v).isSome = true) ∧
          ∀ v, op.output = some v → (g.value? v).isSome = true) ∧
      (∀ v x, g.value? v = some x → ∀ u : Use,
        u ∈ x.uses ↔ ∃ op, g.linked? u.op = some op ∧ op.inputs[u.position]? = some v) ∧
      ∀ v x, g.value? v = some x → ∀ id,
        x.definer = some id ↔ ∃ op, g.linked? id = some op ∧ op.output = some v := by
  rw [verify_eq_ok_iff]
  constructor
  · intro hc
    refine ⟨fun id op hop => ⟨fun v hv => hc.input_live hop hv, fun v hv => hc.output_live hop hv⟩,
      fun v x hx => hc.mem_uses hx, fun v x hx => hc.definer_iff hx⟩
  · rintro ⟨hlive, huses, hdefiner⟩
    exact {
      mem_uses := fun hx => huses _ _ hx
      nodup_uses := fun hx => hnodup _ _ hx
      definer_iff := fun hx => hdefiner _ _ hx
      input_live := fun hop hv => (hlive _ _ hop).1 _ hv
      output_live := fun hop hv => (hlive _ _ hop).2 _ hv }

/-- A copy and a branch, each with its use of the constant on record, whether the branch is linked or
not. -/
def branchOnCopied (linked : Bool) : Graph where
  values := ⟨[some { origin := .constant 16, size := 8, uses := [⟨⟨1⟩, 0⟩, ⟨⟨0⟩, 0⟩] },
    some { origin := .output, size := 8, definer := some ⟨0⟩ }], 2⟩
  nodes := ⟨[some ⟨.copy ⟨1⟩ ⟨0⟩, true⟩, some ⟨.branchInd ⟨0⟩, linked⟩], 2⟩

/-- The use by an unlinked branch is found out by its number alone. -/
theorem branchOnCopied_is_decided :
    (∀ linked v x, (branchOnCopied linked).value? v = some x → x.uses.Nodup) ∧
    (branchOnCopied true).verify = .ok () ∧
    (∀ u : Use, u ∈ [(⟨⟨1⟩, 0⟩ : Use), ⟨⟨0⟩, 0⟩] ↔
      ∃ op, (branchOnCopied true).linked? u.op = some op ∧ op.inputs[u.position]? = some ⟨0⟩) ∧
    (branchOnCopied false).verify = .error (.inconsistentUses ⟨0⟩ 2 1) := by
  have hnodup : ∀ linked v x, (branchOnCopied linked).value? v = some x → x.uses.Nodup := by
    intro linked v x hx
    have hall : ∀ e ∈ (branchOnCopied linked).values.list, e.2.uses.Nodup := by
      cases linked <;> decide
    exact hall (v, x) (Values.mem_list.mpr hx)
  have hok : (branchOnCopied true).verify = .ok () := by decide
  have huses := ((verify_decides_consistency _ (hnodup true)).mp hok).2.1 ⟨0⟩ _ rfl
  exact ⟨hnodup, hok, huses, by decide⟩

end Graph
end DefUse
