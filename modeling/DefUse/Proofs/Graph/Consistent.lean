import DefUse.Graph.Basic
import DefUse.Proofs.Records

namespace DefUse

namespace Slots
variable {α : Type}

theorem erase_modify (s : Slots α) (i : Nat) (f : α → α) : (s.modify i f).erase i = s.erase i := by
  have hg := get?_modify s i i f
  rw [if_pos rfl] at hg
  cases h : s.get? i with
  | none =>
    rw [h] at hg
    have hsame : s.modify i f = s := by
      apply ext_get? (next_modify s i f) rfl
      intro j
      rw [get?_modify]
      split
      next hj => rw [← hj, h]; rfl
      next => rfl
    rw [hsame]
  | some a =>
    apply ext_get?
    · rw [next_erase, next_erase, next_modify]
    · rw [h] at hg
      simp only [erase, hg, h, Option.map_some]
      rfl
    · intro j
      rw [get?_erase, get?_erase, get?_modify]
      split <;> rfl

end Slots

namespace Graph

/-- The operation of an id, if it is linked. -/
def linked? (g : Graph) (id : OpId) : Option Operation :=
  match g.node? id with
  | some ⟨op, true⟩ => some op
  | _ => none

theorem linked?_eq_some_iff {g : Graph} {id : OpId} {op : Operation} :
    g.linked? id = some op ↔ g.node? id = some ⟨op, true⟩ := by
  unfold linked?
  split
  next node h => rw [h]; simp
  next hn =>
    constructor
    · intro h
      cases h
    · intro h
      exact absurd h (hn op)

theorem linked?_eq_none_of_unlinked {g : Graph} {id : OpId} {op : Operation}
    (h : g.node? id = some ⟨op, false⟩) : g.linked? id = none := by
  simp [linked?, h]

theorem linked?_congr {g h : Graph} {id : OpId} (hn : h.node? id = g.node? id) :
    h.linked? id = g.linked? id := by
  simp only [linked?, hn]

structure Consistent (g : Graph) : Prop where
  /-- The uses of a live value are the positions of linked operations that hold it. -/
  mem_uses : ∀ {v x}, g.value? v = some x → ∀ u : Use,
    u ∈ x.uses ↔ ∃ op, g.linked? u.op = some op ∧ op.inputs[u.position]? = some v
  nodup_uses : ∀ {v x}, g.value? v = some x → x.uses.Nodup
  /-- The definer of a live value is the linked operation that has it as output. -/
  definer_iff : ∀ {v x}, g.value? v = some x → ∀ id,
    x.definer = some id ↔ ∃ op, g.linked? id = some op ∧ op.output = some v
  input_live : ∀ {id op v}, g.linked? id = some op → v ∈ op.inputs → (g.value? v).isSome = true
  output_live : ∀ {id op v}, g.linked? id = some op → op.output = some v → (g.value? v).isSome = true

theorem Consistent.congr {g h : Graph} (hc : g.Consistent) (hv : ∀ v, h.value? v = g.value? v)
    (hl : ∀ id, h.linked? id = g.linked? id) : h.Consistent where
  mem_uses hx u := by
    rw [hv] at hx
    rw [hl]
    exact hc.mem_uses hx u
  nodup_uses hx := hc.nodup_uses (by rwa [hv] at hx)
  definer_iff hx id := by
    rw [hv] at hx
    rw [hl]
    exact hc.definer_iff hx id
  input_live hop hin := by
    rw [hl] at hop
    rw [hv]
    exact hc.input_live hop hin
  output_live hop hout := by
    rw [hl] at hop
    rw [hv]
    exact hc.output_live hop hout

theorem consistent_empty : ({} : Graph).Consistent where
  mem_uses hx := by simp [value?, Values.value?] at hx
  nodup_uses hx := by simp [value?, Values.value?] at hx
  definer_iff hx := by simp [value?, Values.value?] at hx
  input_live hop := by simp [linked?, node?] at hop
  output_live hop := by simp [linked?, node?] at hop

/-- One operation at most defines a value. -/
theorem Consistent.output_inj {g : Graph} (hc : g.Consistent) {a b : OpId} {p q : Operation}
    {v : ValueId} (ha : g.linked? a = some p) (hb : g.linked? b = some q)
    (hp : p.output = some v) (hq : q.output = some v) : a = b := by
  obtain ⟨x, hx⟩ := Option.isSome_iff_exists.mp (hc.output_live ha hp)
  have h₁ := (hc.definer_iff hx a).mpr ⟨p, ha, hp⟩
  have h₂ := (hc.definer_iff hx b).mpr ⟨q, hb, hq⟩
  rw [h₁] at h₂
  exact Option.some.inj h₂

/-- The records of a linked operation are there. -/
theorem Consistent.recorded {g : Graph} (hc : g.Consistent) {id : OpId} {op : Operation}
    (hop : g.linked? id = some op) : op.Recorded id g.values where
  output v hv := by
    obtain ⟨x, hx⟩ := Option.isSome_iff_exists.mp (hc.output_live hop hv)
    exact ⟨x, hx, (hc.definer_iff hx id).mpr ⟨op, hop, hv⟩⟩
  inputs i v hv := by
    obtain ⟨x, hx⟩ := Option.isSome_iff_exists.mp (hc.input_live hop (List.mem_of_getElem? hv))
    exact ⟨x, hx, (hc.mem_uses hx ⟨id, i⟩).mpr ⟨op, hop, hv⟩⟩

theorem value?_create (g : Graph) (x : Value) (v : ValueId) :
    ({ g with values := g.values.push x } : Graph).value? v =
      if v = ⟨g.values.next⟩ then some x else g.value? v := by
  obtain ⟨i⟩ := v
  simp [value?, Values.value?, Slots.get?_push]

theorem Consistent.create {g : Graph} (hc : g.Consistent) {x : Value} (hd : x.definer = none)
    (hu : x.uses = []) : ({ g with values := g.values.push x } : Graph).Consistent := by
  have hold : ∀ {v}, (g.value? v).isSome = true → v ≠ ⟨g.values.next⟩ := by
    intro v hv he
    obtain ⟨y, hy⟩ := Option.isSome_iff_exists.mp hv
    have hlt := Slots.lt_next_of_get? hy
    rw [he] at hlt
    exact Nat.lt_irrefl _ hlt
  have hlive : ∀ {v}, (g.value? v).isSome = true →
      (({ g with values := g.values.push x } : Graph).value? v).isSome = true := by
    intro v hv
    rw [value?_create, if_neg (hold hv)]
    exact hv
  refine ⟨?_, ?_, ?_, fun hop hin => hlive (hc.input_live hop hin),
    fun hop hout => hlive (hc.output_live hop hout)⟩
  · intro v y hy u
    rw [value?_create] at hy
    split at hy
    next he =>
      obtain rfl := Option.some.inj hy
      rw [hu]
      refine ⟨fun h => by simp at h, ?_⟩
      rintro ⟨op, hop, hin⟩
      exact absurd he (hold (hc.input_live hop (List.mem_of_getElem? hin)))
    next => exact hc.mem_uses hy u
  · intro v y hy
    rw [value?_create] at hy
    split at hy
    next =>
      obtain rfl := Option.some.inj hy
      rw [hu]
      exact List.nodup_nil
    next => exact hc.nodup_uses hy
  · intro v y hy id
    rw [value?_create] at hy
    split at hy
    next he =>
      obtain rfl := Option.some.inj hy
      rw [hd]
      refine ⟨fun h => by simp at h, ?_⟩
      rintro ⟨op, hop, hout⟩
      exact absurd he (hold (hc.output_live hop hout))
    next => exact hc.definer_iff hy id

theorem node?_add (g : Graph) (node : Node) (id : OpId) :
    ({ g with nodes := g.nodes.push node } : Graph).node? id =
      if id = ⟨g.nodes.next⟩ then some node else g.node? id := by
  obtain ⟨i⟩ := id
  simp [node?, Slots.get?_push]

theorem node?_next (g : Graph) : g.node? ⟨g.nodes.next⟩ = none := by
  cases h : g.node? ⟨g.nodes.next⟩ with
  | none => rfl
  | some node => exact absurd (Slots.lt_next_of_get? h) (Nat.lt_irrefl _)

theorem Consistent.add {g : Graph} (hc : g.Consistent) (op : Operation) :
    ({ g with nodes := g.nodes.push { op } } : Graph).Consistent := by
  refine hc.congr (fun _ => rfl) ?_
  intro id
  have hn := node?_add g { op } id
  split at hn
  next he =>
    rw [linked?_eq_none_of_unlinked hn, he]
    simp only [linked?, node?_next]
  next => exact linked?_congr hn

theorem link_iff {g h : Graph} {id : OpId} :
    link id g = .ok () h ↔ ∃ op, g.node? id = some ⟨op, false⟩ ∧ op.Linkable id g.values ∧
      h = ({ g with values := g.values.mapAll (op.record id) } : Graph).setLinked id true := by
  unfold link
  cases hn : g.node? id with
  | none => simp
  | some node =>
    obtain ⟨op, linked⟩ := node
    cases linked with
    | true => simp
    | false =>
      cases hr : op.link id g.values with
      | ok _ values =>
        obtain ⟨hable, rfl⟩ := Operation.link_iff.mp hr
        simp [hr, hable, eq_comm]
      | error e values =>
        have hnot : ¬op.Linkable id g.values := by
          intro hable
          have hok := Operation.link_iff.mpr ⟨hable, rfl⟩
          rw [hr] at hok
          cases hok
        simp [hr, hnot]

theorem unlink_iff {g h : Graph} {id : OpId} :
    unlink id g = .ok () h ↔ ∃ op, g.node? id = some ⟨op, true⟩ ∧ op.Recorded id g.values ∧
      h = ({ g with values := g.values.mapAll (op.unrecord id) } : Graph).setLinked id false := by
  unfold unlink
  cases hn : g.node? id with
  | none => simp
  | some node =>
    obtain ⟨op, linked⟩ := node
    cases linked with
    | false => simp
    | true =>
      cases hr : op.unlink id g.values with
      | ok _ values =>
        obtain ⟨hrec, rfl⟩ := Operation.unlink_iff.mp hr
        simp [hr, hrec, eq_comm]
      | error e values =>
        have hnot : ¬op.Recorded id g.values := by
          intro hrec
          have hok := Operation.unlink_iff.mpr ⟨hrec, rfl⟩
          rw [hr] at hok
          cases hok
        simp [hr, hnot]

/-- In a consistent graph an unlink that begins is done. -/
theorem Consistent.unlink_error_iff {g h : Graph} {id : OpId} {e : Refusal} (hc : g.Consistent) :
    Graph.unlink id g = .error e h ↔ h = g ∧ (
      (g.node? id = none ∧ e = .unknownOp id) ∨
      ∃ op, g.node? id = some ⟨op, false⟩ ∧ e = .notLinked id) := by
  unfold Graph.unlink
  cases hn : g.node? id with
  | none => simp [and_comm, eq_comm (b := h), eq_comm (b := e)]
  | some node =>
    obtain ⟨op, linked⟩ := node
    cases linked with
    | false => simp [and_comm, eq_comm (b := h), eq_comm (b := e)]
    | true =>
      have hrec := hc.recorded (linked?_eq_some_iff.mpr hn)
      simp [Operation.unlink_iff.mpr ⟨hrec, rfl⟩]

theorem linked?_setLinked_true {g : Graph} {id : OpId} {node : Node} (hn : g.node? id = some node)
    (other : OpId) :
    (g.setLinked id true).linked? other = if id = other then some node.op else g.linked? other := by
  have h := node?_setLinked g id other true
  split
  next he =>
    subst he
    rw [if_pos rfl, hn] at h
    exact linked?_eq_some_iff.mpr h
  next he =>
    rw [if_neg he] at h
    exact linked?_congr h

theorem linked?_setLinked_false (g : Graph) (id other : OpId) :
    (g.setLinked id false).linked? other = if id = other then none else g.linked? other := by
  have h := node?_setLinked g id other false
  split
  next he =>
    subst he
    rw [if_pos rfl] at h
    cases hn : g.node? id with
    | none =>
      rw [hn] at h
      simp only [linked?, h, Option.map_none]
    | some node =>
      rw [hn] at h
      exact linked?_eq_none_of_unlinked h
  next he =>
    rw [if_neg he] at h
    exact linked?_congr h

/-- The graph with all values changed at once and one operation linked or unlinked. -/
theorem value?_mapAll_setLinked (g : Graph) (f : ValueId → Value → Value) (id : OpId) (linked : Bool)
    (v : ValueId) :
    (({ g with values := g.values.mapAll f } : Graph).setLinked id linked).value? v =
      (g.value? v).map (f v) :=
  Values.value?_mapAll g.values f v

theorem Consistent.link {g h : Graph} {id : OpId} (hc : g.Consistent) (hok : link id g = .ok () h) :
    h.Consistent := by
  obtain ⟨op, hn, hable, rfl⟩ := link_iff.mp hok
  have hnone := linked?_eq_none_of_unlinked hn
  have hlinked := fun other => linked?_setLinked_true
    (g := { g with values := g.values.mapAll (op.record id) }) hn other
  have hvalue := value?_mapAll_setLinked g (op.record id) id true
  have hlive : ∀ {v}, (g.value? v).isSome = true →
      ((({ g with values := g.values.mapAll (op.record id) } : Graph).setLinked id true).value?
        v).isSome = true := by
    intro v hv
    rw [hvalue, Option.isSome_map]
    exact hv
  refine ⟨?_, ?_, ?_, ?_, ?_⟩
  · intro v y hy u
    rw [hvalue] at hy
    obtain ⟨x, hx, rfl⟩ := Option.map_eq_some_iff.mp hy
    simp only [Operation.record, List.mem_append, hc.mem_uses hx, Values.mem_reads_zero, hlinked]
    by_cases he : id = u.op
    · rw [if_pos he, ← he, hnone]
      simp
    · rw [if_neg he]
      simp only [Ne.symm he, false_and, or_false]
      rfl
  · intro v y hy
    rw [hvalue] at hy
    obtain ⟨x, hx, rfl⟩ := Option.map_eq_some_iff.mp hy
    refine List.nodup_append.mpr ⟨hc.nodup_uses hx, Values.nodup_reads .., ?_⟩
    intro u hu w hw he
    subst he
    obtain ⟨p, hp, _⟩ := (hc.mem_uses hx u).mp hu
    rw [(Values.mem_reads_zero.mp hw).1, hnone] at hp
    cases hp
  · intro v y hy other
    rw [hvalue] at hy
    obtain ⟨x, hx, rfl⟩ := Option.map_eq_some_iff.mp hy
    rw [hlinked]
    by_cases hv : op.output = some v
    · obtain ⟨x', hx', _, hfree⟩ := hable.output v hv
      obtain rfl : x = x' := Option.some.inj (hx.symm.trans hx')
      simp only [Operation.record, if_pos hv, Option.some.injEq]
      by_cases he : id = other
      · simp [he, hv]
      · rw [if_neg he]
        have hd := hc.definer_iff hx other
        rw [hfree] at hd
        refine ⟨fun h => absurd h he, fun h => ?_⟩
        cases hd.mpr h
    · simp only [Operation.record, if_neg hv]
      by_cases he : id = other
      · subst he
        rw [if_pos rfl, hc.definer_iff hx, hnone]
        simp [hv]
      · rw [if_neg he]
        exact hc.definer_iff hx other
  · intro other p v hp hv
    rw [hlinked] at hp
    split at hp
    next =>
      obtain rfl := Option.some.inj hp
      obtain ⟨i, hi⟩ := List.getElem?_of_mem hv
      obtain ⟨x, hx, _⟩ := hable.inputs i v hi
      exact hlive (Option.isSome_of_eq_some hx)
    next => exact hlive (hc.input_live hp hv)
  · intro other p v hp hv
    rw [hlinked] at hp
    split at hp
    next =>
      obtain rfl := Option.some.inj hp
      obtain ⟨x, hx, _⟩ := hable.output v hv
      exact hlive (Option.isSome_of_eq_some hx)
    next => exact hlive (hc.output_live hp hv)

theorem Consistent.unlink {g h : Graph} {id : OpId} (hc : g.Consistent)
    (hok : unlink id g = .ok () h) : h.Consistent := by
  obtain ⟨op, hn, _, rfl⟩ := unlink_iff.mp hok
  have hop := linked?_eq_some_iff.mpr hn
  have hlinked := linked?_setLinked_false { g with values := g.values.mapAll (op.unrecord id) } id
  have hvalue := value?_mapAll_setLinked g (op.unrecord id) id false
  have hlive : ∀ {v}, (g.value? v).isSome = true →
      ((({ g with values := g.values.mapAll (op.unrecord id) } : Graph).setLinked id false).value?
        v).isSome = true := by
    intro v hv
    rw [hvalue, Option.isSome_map]
    exact hv
  refine ⟨?_, ?_, ?_, ?_, ?_⟩
  · intro v y hy u
    rw [hvalue] at hy
    obtain ⟨x, hx, rfl⟩ := Option.map_eq_some_iff.mp hy
    simp only [Operation.unrecord, (hc.nodup_uses hx).mem_sdiff_iff, hc.mem_uses hx,
      Values.mem_reads_zero, hlinked]
    by_cases he : id = u.op
    · rw [if_pos he, ← he, hop]
      simp
    · rw [if_neg he]
      simp only [Ne.symm he, false_and, not_false_eq_true, and_true]
      rfl
  · intro v y hy
    rw [hvalue] at hy
    obtain ⟨x, hx, rfl⟩ := Option.map_eq_some_iff.mp hy
    exact (hc.nodup_uses hx).diff
  · intro v y hy other
    rw [hvalue] at hy
    obtain ⟨x, hx, rfl⟩ := Option.map_eq_some_iff.mp hy
    have hd := hc.definer_iff hx
    rw [hlinked]
    by_cases he : id = other
    · subst he
      rw [if_pos rfl]
      simp only [Operation.unrecord, reduceCtorEq, false_and, exists_false, iff_false]
      split
      next => simp
      next hv =>
        rw [hd, hop]
        simp [hv]
    · rw [if_neg he]
      by_cases hv : op.output = some v
      · simp only [Operation.unrecord, if_pos hv]
        refine ⟨fun h => by simp at h, ?_⟩
        rintro ⟨p, hp, hpv⟩
        exact absurd (hc.output_inj hop hp hv hpv) he
      · simp only [Operation.unrecord, if_neg hv]
        exact hd other
  · intro other p v hp hv
    rw [hlinked] at hp
    split at hp
    next => cases hp
    next => exact hlive (hc.input_live hp hv)
  · intro other p v hp hv
    rw [hlinked] at hp
    split at hp
    next => cases hp
    next => exact hlive (hc.output_live hp hv)

theorem node?_erase (g : Graph) (id other : OpId) :
    ({ g with nodes := g.nodes.erase id.index } : Graph).node? other =
      if id = other then none else g.node? other := by
  obtain ⟨i⟩ := id
  obtain ⟨j⟩ := other
  simp [node?, Slots.get?_erase]

theorem Consistent.eraseUnlinked {g : Graph} {id : OpId} (hc : g.Consistent)
    (hn : g.linked? id = none) : ({ g with nodes := g.nodes.erase id.index } : Graph).Consistent := by
  refine hc.congr (fun _ => rfl) ?_
  intro other
  have h := node?_erase g id other
  split at h
  next he =>
    rw [← he, hn]
    rw [← he] at h
    simp only [linked?, h]
  next => exact linked?_congr h

theorem value?_release (g : Graph) (v w : ValueId) :
    ({ g with values := g.values.release v } : Graph).value? w =
      if v = w then none else g.value? w :=
  Values.value?_release g.values v w

/-- A value that no linked operation reads or defines can go. -/
theorem Consistent.release {g : Graph} {v : ValueId} (hc : g.Consistent)
    (hin : ∀ id op, g.linked? id = some op → v ∉ op.inputs)
    (hout : ∀ id op, g.linked? id = some op → op.output ≠ some v) :
    ({ g with values := g.values.release v } : Graph).Consistent := by
  have hold : ∀ {w x}, ({ g with values := g.values.release v } : Graph).value? w = some x →
      g.value? w = some x := by
    intro w x hx
    rw [value?_release] at hx
    split at hx
    next => cases hx
    next => exact hx
  have hlive : ∀ {w}, v ≠ w → (g.value? w).isSome = true →
      (({ g with values := g.values.release v } : Graph).value? w).isSome = true := by
    intro w hne hw
    rw [value?_release, if_neg hne]
    exact hw
  exact {
    mem_uses := fun hx => hc.mem_uses (hold hx)
    nodup_uses := fun hx => hc.nodup_uses (hold hx)
    definer_iff := fun hx => hc.definer_iff (hold hx)
    input_live := fun hop hw => hlive (fun he => hin _ _ hop (he ▸ hw)) (hc.input_live hop hw)
    output_live := fun hop hw => hlive (fun he => hout _ _ hop (he ▸ hw)) (hc.output_live hop hw) }

/-- A value without uses is in no linked operation's inputs. -/
theorem Consistent.notMem_inputs {g : Graph} (hc : g.Consistent) {v : ValueId}
    (hu : g.values.isUsed v = false) {id : OpId} {op : Operation} (hop : g.linked? id = some op) :
    v ∉ op.inputs := by
  intro hv
  obtain ⟨x, hx⟩ := Option.isSome_iff_exists.mp (hc.input_live hop hv)
  obtain ⟨i, hi⟩ := List.getElem?_of_mem hv
  have hmem := (hc.mem_uses hx ⟨id, i⟩).mpr ⟨op, hop, hi⟩
  have hx' : g.values.value? v = some x := hx
  simp only [Values.isUsed, hx', Value.isUsed, Bool.not_eq_false', List.isEmpty_iff] at hu
  rw [hu] at hmem
  simp at hmem

theorem detach_iff {g h : Graph} {id : OpId} {op : Operation} :
    detach id g = .ok op h ↔ g.node? id = some ⟨op, false⟩ ∧
      (∀ v, op.output = some v → g.values.isUsed v = false) ∧
      h = ⟨op.output.elim g.values g.values.release, g.nodes.erase id.index⟩ := by
  unfold detach
  cases hn : g.node? id with
  | none => simp
  | some node =>
    obtain ⟨op', linked⟩ := node
    cases linked with
    | true => simp
    | false =>
      by_cases he : op' = op
      · subst he
        cases ho : op'.output with
        | none => simp [ho, eq_comm (b := h)]
        | some out => cases hu : g.values.isUsed out <;> simp [ho, hu, eq_comm (b := h)]
      · cases ho : op'.output with
        | none => simp [ho, he]
        | some out => cases hu : g.values.isUsed out <;> simp [ho, hu, he]

theorem node?_of_detach {g h : Graph} {id : OpId} {op : Operation} (hok : detach id g = .ok op h)
    (other : OpId) : h.node? other = if id = other then none else g.node? other := by
  obtain ⟨_, _, rfl⟩ := detach_iff.mp hok
  exact node?_erase g id other

theorem value?_of_detach {g h : Graph} {id : OpId} {op : Operation} (hok : detach id g = .ok op h)
    (v : ValueId) : h.value? v = if op.output = some v then none else g.value? v := by
  obtain ⟨_, _, rfl⟩ := detach_iff.mp hok
  cases ho : op.output with
  | none => rfl
  | some out =>
    simp only [Option.some.injEq]
    exact Values.value?_release g.values out v

theorem detach_error_iff {g h : Graph} {id : OpId} {e : Refusal} :
    detach id g = .error e h ↔ h = g ∧ (
      (g.node? id = none ∧ e = .unknownOp id) ∨
      (∃ op, g.node? id = some ⟨op, true⟩ ∧ e = .stillLinked id) ∨
      ∃ op v, g.node? id = some ⟨op, false⟩ ∧ op.output = some v ∧ g.values.isUsed v = true ∧
        e = .notRemovable id outputUsedReason) := by
  unfold detach
  cases hn : g.node? id with
  | none => simp [and_comm, eq_comm (b := h), eq_comm (b := e)]
  | some node =>
    obtain ⟨op, linked⟩ := node
    cases linked with
    | true => simp [and_comm, eq_comm (b := h), eq_comm (b := e)]
    | false =>
      cases ho : op.output with
      | none => simp [ho]
      | some out => cases hu : g.values.isUsed out <;>
          simp [ho, hu, and_comm, eq_comm (b := h), eq_comm (b := e)]

/-- Detaching keeps a graph consistent unless the output is another operation's. -/
theorem Consistent.detach {g h : Graph} {id : OpId} {op : Operation} (hc : g.Consistent)
    (hok : detach id g = .ok op h)
    (hown : ∀ v, op.output = some v → ∀ other p, g.linked? other = some p → p.output ≠ some v) :
    h.Consistent := by
  obtain ⟨hn, hunused, rfl⟩ := detach_iff.mp hok
  have hc' := hc.eraseUnlinked (linked?_eq_none_of_unlinked hn)
  cases ho : op.output with
  | none => exact hc'
  | some out =>
    refine hc'.release (v := out) ?_ ?_
    · intro other p hp
      exact hc'.notMem_inputs (hunused out ho) hp
    · intro other p hp
      have hp' := linked?_eq_some_iff.mp hp
      rw [node?_erase] at hp'
      split at hp'
      next => cases hp'
      next => exact hown out ho other p (linked?_eq_some_iff.mpr hp')

/-- The graph once a linked operation is unlinked and detached. -/
def without (g : Graph) (id : OpId) (op : Operation) : Graph where
  values := op.output.elim (g.values.mapAll (op.unrecord id))
    (g.values.mapAll (op.unrecord id)).release
  nodes := g.nodes.erase id.index

theorem node?_without (g : Graph) (id other : OpId) (op : Operation) :
    (g.without id op).node? other = if id = other then none else g.node? other :=
  node?_erase g id other

theorem value?_without (g : Graph) (id : OpId) (op : Operation) (v : ValueId) :
    (g.without id op).value? v =
      if op.output = some v then none else (g.value? v).map (op.unrecord id v) := by
  unfold without value?
  cases ho : op.output with
  | none => simp
  | some out => simp [Values.value?_release]

theorem isRemovable_iff {op : Operation} {vs : Values} :
    op.isRemovable vs = true ↔
      op.hasEffects = false ∧ ∀ v, op.output = some v → vs.isUsed v = false := by
  unfold Operation.isRemovable
  cases ho : op.output <;> simp

/-- In a consistent graph nothing stands in the way of a removal. -/
theorem Consistent.remove_eq {g : Graph} {id : OpId} {op : Operation} (hc : g.Consistent)
    (hop : g.linked? id = some op) (hr : op.isRemovable g.values = true) :
    remove id g = .ok op (g.without id op) := by
  have hn := linked?_eq_some_iff.mp hop
  have hunlink : Graph.unlink id g = .ok () _ := unlink_iff.mpr ⟨op, hn, hc.recorded hop, rfl⟩
  have hdetach : Graph.detach id
      (({ g with values := g.values.mapAll (op.unrecord id) } : Graph).setLinked id false) =
        .ok op (g.without id op) := by
    refine detach_iff.mpr ⟨?_, ?_, ?_⟩
    · have h := node?_setLinked { g with values := g.values.mapAll (op.unrecord id) } id id false
      rw [if_pos rfl] at h
      rw [h]
      show (g.node? id).map _ = _
      rw [hn]
      rfl
    · intro v hv
      have hunused := (isRemovable_iff.mp hr).2 v hv
      show (g.values.mapAll (op.unrecord id)).isUsed v = false
      unfold Values.isUsed at hunused ⊢
      rw [Values.value?_mapAll]
      cases hx : g.values.value? v with
      | none => rfl
      | some x =>
        rw [hx] at hunused
        simp only [Value.isUsed, Bool.not_eq_false', List.isEmpty_iff] at hunused
        simp [Value.isUsed, Operation.unrecord, hunused]
    · simp only [Graph.without, setLinked, Slots.erase_modify]
  simp only [remove, hn, hr, if_true, hunlink, hdetach]

theorem Consistent.remove_iff {g h : Graph} {id : OpId} {op : Operation} (hc : g.Consistent) :
    remove id g = .ok op h ↔
      g.linked? id = some op ∧ op.isRemovable g.values = true ∧ h = g.without id op := by
  rw [linked?_eq_some_iff]
  cases hn : g.node? id with
  | none => simp [remove, hn]
  | some node =>
    obtain ⟨p, linked⟩ := node
    cases linked with
    | false => simp [remove, hn]
    | true =>
      cases hr : p.isRemovable g.values with
      | false =>
        simp only [remove, hn, hr, if_true, Bool.false_eq_true, if_false, reduceCtorEq, false_iff]
        rintro ⟨he, hrem, _⟩
        cases he
        rw [hr] at hrem
        cases hrem
      | true =>
        rw [hc.remove_eq (linked?_eq_some_iff.mpr hn) hr]
        constructor
        · intro he
          cases he
          exact ⟨rfl, hr, rfl⟩
        · rintro ⟨he, _, rfl⟩
          cases he
          rfl

theorem Consistent.remove_error_iff {g h : Graph} {id : OpId} {e : Refusal} (hc : g.Consistent) :
    remove id g = .error e h ↔ h = g ∧ (
      (g.node? id = none ∧ e = .unknownOp id) ∨
      (∃ op, g.node? id = some ⟨op, false⟩ ∧ e = .notLinked id) ∨
      ∃ op, g.node? id = some ⟨op, true⟩ ∧ op.isRemovable g.values = false ∧
        e = .notRemovable id (if op.hasEffects then effectsReason else outputUsedReason)) := by
  cases hn : g.node? id with
  | none => simp [remove, hn, and_comm, eq_comm (b := h), eq_comm (b := e)]
  | some node =>
    obtain ⟨op, linked⟩ := node
    cases linked with
    | false => simp [remove, hn, and_comm, eq_comm (b := h), eq_comm (b := e)]
    | true =>
      cases hr : op.isRemovable g.values with
      | true => simp [hc.remove_eq (linked?_eq_some_iff.mpr hn) hr, hr]
      | false => simp [remove, hn, hr, and_comm, eq_comm (b := h), eq_comm (b := e)]

theorem Consistent.without {g : Graph} {id : OpId} {op : Operation} (hc : g.Consistent)
    (hop : g.linked? id = some op) (hr : op.isRemovable g.values = true) :
    (g.without id op).Consistent := by
  have hn := linked?_eq_some_iff.mp hop
  have hunlink : Graph.unlink id g = .ok () _ := unlink_iff.mpr ⟨op, hn, hc.recorded hop, rfl⟩
  have hremove := hc.remove_eq hop hr
  simp only [remove, hn, hr, if_true, hunlink] at hremove
  refine (hc.unlink hunlink).detach hremove ?_
  intro v hv other p hp hpv
  rw [linked?_setLinked_false] at hp
  split at hp
  next => cases hp
  next he => exact he (hc.output_inj hop hp hv hpv)

end Graph
end DefUse
