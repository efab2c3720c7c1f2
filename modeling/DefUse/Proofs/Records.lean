import Mathlib.Data.List.Basic
import Mathlib.Data.List.Nodup
import DefUse.Operation

namespace DefUse

namespace Slots
variable {α : Type}

theorem ext_get? {s t : Slots α} (hn : s.next = t.next) (hl : s.live = t.live)
    (hg : ∀ i, s.get? i = t.get? i) : s = t := by
  obtain ⟨cells, live⟩ := s
  obtain ⟨cells', live'⟩ := t
  have hcells : cells = cells' := by
    apply List.ext_getElem hn
    intro i h₁ h₂
    have h := hg i
    simpa [get?, List.getElem?_eq_getElem h₁, List.getElem?_eq_getElem h₂] using h
  simp only at hl
  rw [hcells, hl]

end Slots

namespace Values

/-- All live values changed, each by its own function. -/
def mapAll (vs : Values) (f : ValueId → Value → Value) : Values :=
  { vs with cells := vs.cells.mapIdx fun i cell => cell.map (f ⟨i⟩) }

@[simp] theorem value?_mapAll (vs : Values) (f : ValueId → Value → Value) (v : ValueId) :
    (vs.mapAll f).value? v = (vs.value? v).map (f v) := by
  simp only [value?, mapAll, Slots.get?, List.getElem?_mapIdx]
  cases h : vs.cells[v.index]? <;> simp

@[simp] theorem next_mapAll (vs : Values) (f : ValueId → Value → Value) :
    (vs.mapAll f).next = vs.next := by
  simp [mapAll, Slots.next]

theorem ext_value? {vs ws : Values} (hn : vs.next = ws.next) (hl : vs.live = ws.live)
    (hv : ∀ v, vs.value? v = ws.value? v) : vs = ws :=
  Slots.ext_get? hn hl fun i => hv ⟨i⟩

theorem mapAll_congr {vs : Values} {f g : ValueId → Value → Value}
    (h : ∀ v x, vs.value? v = some x → f v x = g v x) : vs.mapAll f = vs.mapAll g := by
  refine ext_value? (by simp) rfl ?_
  intro v
  rw [value?_mapAll, value?_mapAll]
  exact Option.map_congr fun x hx => h v x hx

theorem mapAll_mapAll (vs : Values) (f g : ValueId → Value → Value) :
    (vs.mapAll f).mapAll g = vs.mapAll fun v x => g v (f v x) := by
  refine ext_value? (by simp) rfl ?_
  intro v
  simp [Option.map_map, Function.comp_def]

theorem mapAll_self (vs : Values) : (vs.mapAll fun _ x => x) = vs := by
  refine ext_value? (by simp) rfl ?_
  intro v
  simp

theorem modifyValue_eq_mapAll (vs : Values) (v : ValueId) (f : Value → Value) :
    vs.modifyValue v f = vs.mapAll fun w x => if v = w then f x else x := by
  apply ext_value?
  · simp [modifyValue, Slots.next_modify]
  · rfl
  · intro w
    rw [value?_modifyValue, value?_mapAll]
    by_cases h : v = w <;> simp [h]

/-- The operand positions, counted from `position`, at which a value stands. -/
def reads (id : OpId) : (position : Nat) → List ValueId → ValueId → List Use
  | _, [], _ => []
  | position, v :: rest, w =>
    if v = w then ⟨id, position⟩ :: reads id (position + 1) rest w
    else reads id (position + 1) rest w

theorem mem_reads {id : OpId} {position : Nat} {inputs : List ValueId} {w : ValueId} {u : Use} :
    u ∈ reads id position inputs w ↔
      u.op = id ∧ ∃ i, inputs[i]? = some w ∧ u.position = position + i := by
  obtain ⟨op, at'⟩ := u
  induction inputs generalizing position with
  | nil => simp [reads]
  | cons v rest ih =>
    have split : (∃ i, (v :: rest)[i]? = some w ∧ at' = position + i) ↔
        (v = w ∧ at' = position) ∨ ∃ i, rest[i]? = some w ∧ at' = position + 1 + i := by
      constructor
      · rintro ⟨i, hi, he⟩
        cases i with
        | zero => exact Or.inl ⟨by simpa using hi, by simpa using he⟩
        | succ i => exact Or.inr ⟨i, by simpa using hi, by omega⟩
      · rintro (⟨rfl, rfl⟩ | ⟨i, hi, he⟩)
        · exact ⟨0, by simp, by simp⟩
        · exact ⟨i + 1, by simpa using hi, by omega⟩
    rw [split, reads]
    by_cases hv : v = w
    · rw [if_pos hv, List.mem_cons, ih]
      simp only [hv, true_and, Use.mk.injEq]
      tauto
    · rw [if_neg hv, ih]
      simp [hv]

theorem mem_reads_zero {id : OpId} {inputs : List ValueId} {w : ValueId} {u : Use} :
    u ∈ reads id 0 inputs w ↔ u.op = id ∧ inputs[u.position]? = some w := by
  rw [mem_reads]
  simp

theorem nodup_reads (id : OpId) (position : Nat) (inputs : List ValueId) (w : ValueId) :
    (reads id position inputs w).Nodup := by
  induction inputs generalizing position with
  | nil => simp [reads]
  | cons v rest ih =>
    rw [reads]
    split
    · refine List.nodup_cons.mpr ⟨?_, ih _⟩
      intro hm
      obtain ⟨_, i, _, hi⟩ := mem_reads.mp hm
      simp only at hi
      omega
    · exact ih _

theorem forall_positions_cons {P : Nat → ValueId → Prop} {position : Nat} {v : ValueId}
    {rest : List ValueId} :
    (∀ i w, (v :: rest)[i]? = some w → P (position + i) w) ↔
      P position v ∧ ∀ i w, rest[i]? = some w → P (position + 1 + i) w := by
  constructor
  · intro h
    refine ⟨h 0 v rfl, ?_⟩
    intro i w hi
    have h' := h (i + 1) w (by simpa using hi)
    rwa [Nat.add_comm i 1, ← Nat.add_assoc] at h'
  · rintro ⟨hhead, htail⟩ i w hi
    cases i with
    | zero =>
      obtain rfl : v = w := by simpa using hi
      exact hhead
    | succ i =>
      have h' := htail i w (by simpa using hi)
      rwa [Nat.add_assoc, Nat.add_comm 1 i] at h'

theorem addUses_cons_iff {id : OpId} {position : Nat} {v : ValueId} {rest : List ValueId}
    {vs ws : Values} :
    addUses id position (v :: rest) vs = .ok () ws ↔
      (∃ x, vs.value? v = some x ∧ ⟨id, position⟩ ∉ x.uses) ∧
        addUses id (position + 1) rest
          (vs.modifyValue v fun w => { w with uses := w.uses ++ [⟨id, position⟩] }) = .ok () ws := by
  simp only [addUses, bind, EStateM.bind, addUse]
  cases hx : vs.value? v with
  | none => simp
  | some x => by_cases hu : ⟨id, position⟩ ∈ x.uses <;> simp [Value.hasUse, hu]

theorem addUses_iff {id : OpId} {position : Nat} {inputs : List ValueId} {vs ws : Values} :
    addUses id position inputs vs = .ok () ws ↔
      (∀ i v, inputs[i]? = some v → ∃ x, vs.value? v = some x ∧ ⟨id, position + i⟩ ∉ x.uses) ∧
      ws = vs.mapAll fun v x => { x with uses := x.uses ++ reads id position inputs v } := by
  induction inputs generalizing position vs with
  | nil =>
    simp only [addUses, reads, List.append_nil, mapAll_self, List.getElem?_nil, reduceCtorEq,
      false_implies, implies_true, true_and]
    exact ⟨fun h => by cases h; rfl, fun h => by rw [h]; rfl⟩
  | cons v rest ih =>
    have values : (vs.modifyValue v fun w => { w with uses := w.uses ++ [⟨id, position⟩] }).mapAll
          (fun w x => { x with uses := x.uses ++ reads id (position + 1) rest w }) =
        vs.mapAll fun w x => { x with uses := x.uses ++ reads id position (v :: rest) w } := by
      rw [modifyValue_eq_mapAll, mapAll_mapAll]
      apply mapAll_congr
      intro w x _
      by_cases hw : v = w <;> simp [reads, hw]
    -- the use just made is at another position than all that follow
    have later : ∀ i w, (∃ x, (vs.modifyValue v fun w =>
          { w with uses := w.uses ++ [⟨id, position⟩] }).value? w = some x ∧
            ⟨id, position + 1 + i⟩ ∉ x.uses) ↔
        ∃ x, vs.value? w = some x ∧ ⟨id, position + 1 + i⟩ ∉ x.uses := by
      intro i w
      rw [value?_modifyValue]
      have hne : position + 1 + i ≠ position := by omega
      by_cases hw : v = w <;> cases vs.value? w <;> simp [hw, hne]
    rw [addUses_cons_iff, ih, values, forall_positions_cons
      (P := fun p w => ∃ x, vs.value? w = some x ∧ ⟨id, p⟩ ∉ x.uses), and_assoc]
    simp only [later]

theorem removeUses_cons_iff {id : OpId} {position : Nat} {v : ValueId} {rest : List ValueId}
    {vs ws : Values} :
    removeUses id position (v :: rest) vs = .ok () ws ↔
      (∃ x, vs.value? v = some x ∧ ⟨id, position⟩ ∈ x.uses) ∧
        removeUses id (position + 1) rest
          (vs.modifyValue v fun w => { w with uses := w.uses.erase ⟨id, position⟩ }) = .ok () ws := by
  simp only [removeUses, bind, EStateM.bind, removeUse]
  cases hx : vs.value? v with
  | none => simp
  | some x => by_cases hu : ⟨id, position⟩ ∈ x.uses <;> simp [Value.hasUse, hu]

theorem removeUses_iff {id : OpId} {position : Nat} {inputs : List ValueId} {vs ws : Values} :
    removeUses id position inputs vs = .ok () ws ↔
      (∀ i v, inputs[i]? = some v → ∃ x, vs.value? v = some x ∧ ⟨id, position + i⟩ ∈ x.uses) ∧
      ws = vs.mapAll fun v x => { x with uses := x.uses.diff (reads id position inputs v) } := by
  induction inputs generalizing position vs with
  | nil =>
    simp only [removeUses, reads, List.diff_nil, mapAll_self, List.getElem?_nil, reduceCtorEq,
      false_implies, implies_true, true_and]
    exact ⟨fun h => by cases h; rfl, fun h => by rw [h]; rfl⟩
  | cons v rest ih =>
    have values : (vs.modifyValue v fun w => { w with uses := w.uses.erase ⟨id, position⟩ }).mapAll
          (fun w x => { x with uses := x.uses.diff (reads id (position + 1) rest w) }) =
        vs.mapAll fun w x => { x with uses := x.uses.diff (reads id position (v :: rest) w) } := by
      rw [modifyValue_eq_mapAll, mapAll_mapAll]
      apply mapAll_congr
      intro w x _
      by_cases hw : v = w <;> simp [reads, hw, List.diff_cons]
    have later : ∀ i w, (∃ x, (vs.modifyValue v fun w =>
          { w with uses := w.uses.erase ⟨id, position⟩ }).value? w = some x ∧
            ⟨id, position + 1 + i⟩ ∈ x.uses) ↔
        ∃ x, vs.value? w = some x ∧ ⟨id, position + 1 + i⟩ ∈ x.uses := by
      intro i w
      rw [value?_modifyValue]
      have hne : (⟨id, position + 1 + i⟩ : Use) ≠ ⟨id, position⟩ := by simp; omega
      by_cases hw : v = w <;> cases vs.value? w <;> simp [hw, List.mem_erase_of_ne hne]
    rw [removeUses_cons_iff, ih, values, forall_positions_cons
      (P := fun p w => ∃ x, vs.value? w = some x ∧ ⟨id, p⟩ ∈ x.uses), and_assoc]
    simp only [later]

theorem define_iff {v : ValueId} {id : OpId} {vs ws : Values} :
    define v id vs = .ok () ws ↔
      (∃ x, vs.value? v = some x ∧ x.origin = .output ∧ x.definer = none) ∧
      ws = vs.modifyValue v fun x => { x with definer := some id } := by
  unfold define
  cases hx : vs.value? v with
  | none => simp
  | some x =>
    cases ho : x.origin <;> cases hd : x.definer <;> simp [ho, hd, eq_comm]

theorem undefine_iff {v : ValueId} {id : OpId} {vs ws : Values} :
    undefine v id vs = .ok () ws ↔
      (∃ x, vs.value? v = some x ∧ x.definer = some id) ∧
      ws = vs.modifyValue v fun x => { x with definer := none } := by
  unfold undefine
  cases hx : vs.value? v with
  | none => simp
  | some x => by_cases hd : x.definer = some id <;> simp [hd, eq_comm]

end Values

namespace Operation

/-- A value once the operation is linked: its definer if it is the output, and the positions at
which the operation reads it. -/
def record (op : Operation) (id : OpId) (v : ValueId) (x : Value) : Value :=
  { x with
    definer := if op.output = some v then some id else x.definer
    uses := x.uses ++ Values.reads id 0 op.inputs v }

/-- A value once the operation is unlinked again. -/
def unrecord (op : Operation) (id : OpId) (v : ValueId) (x : Value) : Value :=
  { x with
    definer := if op.output = some v then none else x.definer
    uses := x.uses.diff (Values.reads id 0 op.inputs v) }

/-- The records of the operation can be made: its output has no definer yet, and no position is
recorded already. -/
structure Linkable (op : Operation) (id : OpId) (vs : Values) : Prop where
  output : ∀ v, op.output = some v → ∃ x, vs.value? v = some x ∧ x.origin = .output ∧ x.definer = none
  inputs : ∀ i v, op.inputs[i]? = some v → ∃ x, vs.value? v = some x ∧ ⟨id, i⟩ ∉ x.uses

/-- The records of the operation are there. -/
structure Recorded (op : Operation) (id : OpId) (vs : Values) : Prop where
  output : ∀ v, op.output = some v → ∃ x, vs.value? v = some x ∧ x.definer = some id
  inputs : ∀ i v, op.inputs[i]? = some v → ∃ x, vs.value? v = some x ∧ ⟨id, i⟩ ∈ x.uses

theorem link_iff {op : Operation} {id : OpId} {vs ws : Values} :
    op.link id vs = .ok () ws ↔ op.Linkable id vs ∧ ws = vs.mapAll (op.record id) := by
  cases ho : op.output with
  | none =>
    have values : vs.mapAll (op.record id) =
        vs.mapAll fun v x => { x with uses := x.uses ++ Values.reads id 0 op.inputs v } :=
      Values.mapAll_congr fun v x _ => by simp [record, ho]
    have linkable : op.Linkable id vs ↔
        ∀ i v, op.inputs[i]? = some v → ∃ x, vs.value? v = some x ∧ ⟨id, 0 + i⟩ ∉ x.uses := by
      simp only [Nat.zero_add]
      exact ⟨fun h => h.inputs, fun h => ⟨by simp [ho], h⟩⟩
    rw [values, linkable, ← Values.addUses_iff]
    simp only [link, ho]
  | some out =>
    have step : op.link id vs = .ok () ws ↔
        ∃ us, Values.define out id vs = .ok () us ∧ Values.addUses id 0 op.inputs us = .ok () ws := by
      simp only [link, ho, bind, EStateM.bind]
      cases Values.define out id vs <;> simp
    have values : (vs.modifyValue out fun x => { x with definer := some id }).mapAll
          (fun v x => { x with uses := x.uses ++ Values.reads id 0 op.inputs v }) =
        vs.mapAll (op.record id) := by
      rw [Values.modifyValue_eq_mapAll, Values.mapAll_mapAll]
      apply Values.mapAll_congr
      intro v x _
      by_cases hv : out = v <;> simp [record, ho, hv]
    have uses : ∀ i v, (∃ x, (vs.modifyValue out fun x => { x with definer := some id }).value? v =
          some x ∧ ⟨id, 0 + i⟩ ∉ x.uses) ↔ ∃ x, vs.value? v = some x ∧ ⟨id, i⟩ ∉ x.uses := by
      intro i v
      rw [Values.value?_modifyValue]
      by_cases hv : out = v <;> cases vs.value? v <;> simp [hv]
    rw [step]
    simp only [Values.define_iff, Values.addUses_iff]
    constructor
    · rintro ⟨_, ⟨hout, rfl⟩, hin, rfl⟩
      refine ⟨⟨?_, fun i v hi => (uses i v).mp (hin i v hi)⟩, values⟩
      intro v hv
      obtain rfl : out = v := by simpa [ho] using hv
      exact hout
    · rintro ⟨h, rfl⟩
      exact ⟨_, ⟨h.output out ho, rfl⟩, fun i v hi => (uses i v).mpr (h.inputs i v hi), values.symm⟩

theorem unlink_iff {op : Operation} {id : OpId} {vs ws : Values} :
    op.unlink id vs = .ok () ws ↔ op.Recorded id vs ∧ ws = vs.mapAll (op.unrecord id) := by
  cases ho : op.output with
  | none =>
    have values : vs.mapAll (op.unrecord id) =
        vs.mapAll fun v x => { x with uses := x.uses.diff (Values.reads id 0 op.inputs v) } :=
      Values.mapAll_congr fun v x _ => by simp [unrecord, ho]
    have recorded : op.Recorded id vs ↔
        ∀ i v, op.inputs[i]? = some v → ∃ x, vs.value? v = some x ∧ ⟨id, 0 + i⟩ ∈ x.uses := by
      simp only [Nat.zero_add]
      exact ⟨fun h => h.inputs, fun h => ⟨by simp [ho], h⟩⟩
    rw [values, recorded, ← Values.removeUses_iff]
    simp only [unlink, ho]
  | some out =>
    have step : op.unlink id vs = .ok () ws ↔
        ∃ us, Values.undefine out id vs = .ok () us ∧
          Values.removeUses id 0 op.inputs us = .ok () ws := by
      simp only [unlink, ho, bind, EStateM.bind]
      cases Values.undefine out id vs <;> simp
    have values : (vs.modifyValue out fun x => { x with definer := none }).mapAll
          (fun v x => { x with uses := x.uses.diff (Values.reads id 0 op.inputs v) }) =
        vs.mapAll (op.unrecord id) := by
      rw [Values.modifyValue_eq_mapAll, Values.mapAll_mapAll]
      apply Values.mapAll_congr
      intro v x _
      by_cases hv : out = v <;> simp [unrecord, ho, hv]
    have uses : ∀ i v, (∃ x, (vs.modifyValue out fun x => { x with definer := none }).value? v =
          some x ∧ ⟨id, 0 + i⟩ ∈ x.uses) ↔ ∃ x, vs.value? v = some x ∧ ⟨id, i⟩ ∈ x.uses := by
      intro i v
      rw [Values.value?_modifyValue]
      by_cases hv : out = v <;> cases vs.value? v <;> simp [hv]
    rw [step]
    simp only [Values.undefine_iff, Values.removeUses_iff]
    constructor
    · rintro ⟨_, ⟨hout, rfl⟩, hin, rfl⟩
      refine ⟨⟨?_, fun i v hi => (uses i v).mp (hin i v hi)⟩, values⟩
      intro v hv
      obtain rfl : out = v := by simpa [ho] using hv
      exact hout
    · rintro ⟨h, rfl⟩
      exact ⟨_, ⟨h.output out ho, rfl⟩, fun i v hi => (uses i v).mpr (h.inputs i v hi), values.symm⟩

end Operation
end DefUse
