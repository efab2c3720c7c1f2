import Mathlib.Data.Finset.Insert
import Mathlib.Data.Finset.Card
import Mathlib.Order.Bounds.Basic
import DefUse.Proofs.Graph.History

namespace DefUse

theorem filter_uses_eq_nil_iff {uses : List Use} {R : Finset OpId} :
    (uses.filter fun u => u.op ∉ R) = [] ↔ ∀ u ∈ uses, u.op ∈ R := by
  simp only [List.filter_eq_nil_iff, decide_eq_true_eq, not_not]

namespace Value

/-- Whether a value goes when the operations of `R` are removed: an output with its definer, a
constant or an entry value with the last operation that reads it. -/
def goesWith (x : Value) (R : Finset OpId) : Bool :=
  match x.definer with
  | some d => decide (d ∈ R)
  | none => decide (x.origin ≠ .output) && x.isUsed && x.uses.all fun u => decide (u.op ∈ R)

/-- What is left of a value when the operations of `R` are removed. -/
def less (x : Value) (R : Finset OpId) : Option Value :=
  if x.goesWith R then none else some { x with uses := x.uses.filter fun u => u.op ∉ R }

/-- A constant or an entry value that nothing reads. -/
def isSpent (x : Value) : Bool :=
  x.isFree && !x.isUsed && decide (x.origin ≠ .output)

theorem goesWith_mono {x : Value} {R S : Finset OpId} (hsub : R ⊆ S) (h : x.goesWith R = true) :
    x.goesWith S = true := by
  unfold goesWith at h ⊢
  cases hd : x.definer with
  | some d =>
    simp only [hd, decide_eq_true_eq] at h ⊢
    exact hsub h
  | none =>
    simp only [hd, Bool.and_eq_true, List.all_eq_true, decide_eq_true_eq] at h ⊢
    exact ⟨h.1, fun u hu => hsub (h.2 u hu)⟩

theorem goesWith_of_free {x : Value} {R : Finset OpId} (hd : x.definer = none) :
    x.goesWith R = true ↔ x.origin ≠ .output ∧ x.uses ≠ [] ∧ ∀ u ∈ x.uses, u.op ∈ R := by
  simp [goesWith, hd, isUsed, and_assoc]

/-- One operation more takes a value along when it reads it and nothing else does any more. -/
theorem goesWith_insert {x : Value} {R : Finset OpId} {id : OpId} (hstays : x.goesWith R = false)
    (hid : x.definer ≠ some id) :
    x.goesWith (insert id R) = true ↔ (∃ u ∈ x.uses, u.op ∉ R ∧ u.op = id) ∧
      isSpent { x with uses := x.uses.filter fun u => u.op ∉ insert id R } = true := by
  rcases Option.eq_none_or_eq_some x.definer with hd | ⟨d, hd⟩
  · have hspent : isSpent { x with uses := x.uses.filter fun u => u.op ∉ insert id R } = true ↔
        (∀ u ∈ x.uses, u.op ∈ insert id R) ∧ x.origin ≠ .output := by
      simp only [isSpent, isFree, hd, Option.isNone_none, isUsed, Bool.not_not, Bool.true_and,
        Bool.and_eq_true, List.isEmpty_iff, filter_uses_eq_nil_iff, decide_eq_true_eq]
    have hnot : ¬(x.origin ≠ .output ∧ x.uses ≠ [] ∧ ∀ u ∈ x.uses, u.op ∈ R) := by
      rw [← goesWith_of_free hd, hstays]
      exact Bool.false_ne_true
    rw [goesWith_of_free hd, hspent]
    constructor
    · rintro ⟨ho, hne, hall⟩
      refine ⟨?_, hall, ho⟩
      by_contra hno
      refine hnot ⟨ho, hne, fun u hu => ?_⟩
      by_contra hR
      exact hno ⟨u, hu, hR, (Finset.mem_insert.mp (hall u hu)).resolve_right hR⟩
    · rintro ⟨⟨u, hu, _⟩, hall, ho⟩
      exact ⟨ho, List.ne_nil_of_mem hu, hall⟩
  · have hne : d ≠ id := fun he => hid (by rw [hd, he])
    have hd' : d ∉ R := by simpa [goesWith, hd] using hstays
    simp [goesWith, isSpent, isFree, hd, hne, hd']

theorem less_empty (x : Value) : x.less ∅ = some x := by
  have hstays : x.goesWith ∅ = false := by
    unfold goesWith isUsed
    cases x.definer <;> cases x.uses <;> simp
  simp [less, hstays]

end Value

namespace Graph

/-- `R` holds linked operations only, and every operation without effects whose output is read by
operations of `R` only. -/
structure TakesDead (g : Graph) (R : Set OpId) : Prop where
  linked : ∀ id ∈ R, (g.linked? id).isSome = true
  closed : ∀ {id op}, g.linked? id = some op → op.hasEffects = false →
    (∀ v x, op.output = some v → g.value? v = some x → ∀ u ∈ x.uses, u.op ∈ R) → id ∈ R

/-- `h` is `g` with the operations of `R` removed, and all else unchanged. -/
structure Pruned (g : Graph) (R : Finset OpId) (h : Graph) : Prop where
  node : ∀ id, h.node? id = if id ∈ R then none else g.node? id
  value : ∀ v, h.value? v = (g.value? v).bind (·.less R)

/-- No linked operation can be removed. -/
def IsSwept (g : Graph) : Prop :=
  ∀ id op, g.linked? id = some op → op.isRemovable g.values = false

theorem pruned_empty (g : Graph) : g.Pruned ∅ g where
  node id := by simp
  value v := by simp [Value.less_empty]

theorem Pruned.linked? {g h : Graph} {R : Finset OpId} (hp : g.Pruned R h) {id : OpId}
    {op : Operation} : h.linked? id = some op ↔ id ∉ R ∧ g.linked? id = some op := by
  rw [linked?_eq_some_iff, linked?_eq_some_iff, hp.node]
  split <;> simp_all

theorem Pruned.value?_eq_some_iff {g h : Graph} {R : Finset OpId} (hp : g.Pruned R h) {v : ValueId}
    {y : Value} : h.value? v = some y ↔ ∃ x, g.value? v = some x ∧ x.goesWith R = false ∧
      y = { x with uses := x.uses.filter fun u => u.op ∉ R } := by
  rw [hp.value, Option.bind_eq_some_iff]
  refine exists_congr fun x => and_congr_right fun _ => ?_
  unfold Value.less
  cases x.goesWith R <;> simp [eq_comm]

/-- Without an operation a value has the uses of the others. -/
theorem Consistent.diff_reads {g : Graph} (hc : g.Consistent) {id : OpId} {op : Operation}
    (hop : g.linked? id = some op) {v : ValueId} {x : Value} (hx : g.value? v = some x) :
    x.uses.diff (Values.reads id 0 op.inputs v) = x.uses.filter fun u => u.op ≠ id := by
  rw [(hc.nodup_uses hx).sdiff_eq_filter]
  refine List.filter_congr fun u hu => ?_
  obtain ⟨p, hp, hin⟩ := (hc.mem_uses hx u).mp hu
  rw [decide_eq_decide, not_iff_not, Values.mem_reads_zero]
  constructor
  · exact fun h => h.1
  · intro hid
    rw [hid, hop] at hp
    obtain rfl := Option.some.inj hp
    exact ⟨hid, hin⟩

theorem Consistent.mem_inputs_iff {g : Graph} (hc : g.Consistent) {id : OpId} {op : Operation}
    (hop : g.linked? id = some op) {v : ValueId} {x : Value} (hx : g.value? v = some x) :
    v ∈ op.inputs ↔ ∃ u ∈ x.uses, u.op = id := by
  constructor
  · intro hv
    obtain ⟨i, hi⟩ := List.getElem?_of_mem hv
    exact ⟨⟨id, i⟩, (hc.mem_uses hx _).mpr ⟨op, hop, hi⟩, rfl⟩
  · rintro ⟨u, hu, rfl⟩
    obtain ⟨p, hp, hin⟩ := (hc.mem_uses hx u).mp hu
    rw [hop] at hp
    obtain rfl := Option.some.inj hp
    exact List.mem_of_getElem? hin

theorem value?_settleInputs (inputs : List ValueId) (work : List OpId) (g : Graph) (v : ValueId) :
    (settleInputs inputs work g).2.value? v =
      (g.value? v).filter fun x => !(decide (v ∈ inputs) && x.isSpent) := by
  induction inputs, work, g using settleInputs.induct with
  | case1 work g =>
    simp only [settleInputs]
    cases g.value? v <;> simp [Option.filter_some]
  | case2 w rest work g hx ih =>
    simp only [settleInputs, hx, ih]
    by_cases hv : v = w
    · simp [hv, hx]
    · simp [hv]
  | case3 w rest work g x hx definer hd ih =>
    have hstays : x.isSpent = false := by simp [Value.isSpent, Value.isFree, hd]
    simp only [settleInputs, hx, hd, ih]
    by_cases hv : v = w
    · simp [hv, hx, Option.filter_some, hstays]
    · simp [hv]
  | case4 w rest work g x hx hd hkeep ih =>
    have hstays : x.isSpent = false := by
      cases hu : x.isUsed <;> simp_all [Value.isSpent]
    simp only [settleInputs, hx, hd, hkeep, if_true, ih]
    by_cases hv : v = w
    · simp [hv, hx, Option.filter_some, hstays]
    · simp [hv]
  | case5 w rest work g x hx hd hdrop ih =>
    have hspent : x.isSpent = true := by
      simp only [Bool.or_eq_true, not_or, Bool.not_eq_true, decide_eq_true_eq] at hdrop
      simp [Value.isSpent, Value.isFree, hd, hdrop]
    simp only [settleInputs, hx, hd, if_neg hdrop, ih, value?_release]
    by_cases hv : v = w
    · simp [hv, hx, Option.filter_some, hspent]
    · simp [hv, Ne.symm hv]

theorem mem_settleInputs (inputs : List ValueId) (work : List OpId) (g : Graph) (id : OpId) :
    id ∈ (settleInputs inputs work g).1 ↔
      id ∈ work ∨ ∃ v ∈ inputs, ∃ x, g.value? v = some x ∧ x.definer = some id := by
  induction inputs, work, g using settleInputs.induct with
  | case1 work g => simp [settleInputs]
  | case2 w rest work g hx ih => simp [settleInputs, hx, ih]
  | case3 w rest work g x hx definer hd ih =>
    simp only [settleInputs, hx, hd, ih, List.mem_cons, exists_eq_or_imp, Option.some.injEq,
      exists_eq_left']
    tauto
  | case4 w rest work g x hx hd hkeep ih => simp [settleInputs, hx, hd, hkeep, ih]
  | case5 w rest work g x hx hd hdrop ih =>
    simp only [settleInputs, hx, hd, if_neg hdrop, ih, value?_release]
    have hdefined : ∀ v,
        (∃ y, (if w = v then none else g.value? v) = some y ∧ y.definer = some id) ↔
          ∃ y, g.value? v = some y ∧ y.definer = some id := by
      intro v
      by_cases hv : w = v
      · simp [← hv, hx, hd]
      · simp [hv]
    simp only [hdefined]
    simp [hx, hd]

/-- After a removal and what follows on its inputs, one operation more is gone. -/
theorem Pruned.remove {g h : Graph} {R : Finset OpId} (hg : g.Consistent) (hh : h.Consistent)
    (hp : g.Pruned R h) {id : OpId} {op : Operation} (hop : h.linked? id = some op)
    (work : List OpId) :
    g.Pruned (insert id R) (settleInputs op.inputs work (h.without id op)).2 where
  node other := by
    have hsame : (settleInputs op.inputs work (h.without id op)).2.node? other =
        (h.without id op).node? other := by
      simp only [node?, nodes_settleInputs]
    rw [hsame, node?_without, hp.node]
    by_cases he : id = other
    · simp [he]
    · simp [he, Ne.symm he]
  value v := by
    have hopg : g.linked? id = some op := (hp.linked?.mp hop).2
    rw [value?_settleInputs, value?_without]
    cases hx : g.value? v with
    | none =>
      have hnone : h.value? v = none := by rw [hp.value, hx]; rfl
      simp [hnone]
    | some x =>
      have hdefiner : x.definer = some id ↔ op.output = some v := by
        rw [hg.definer_iff hx, hopg]
        simp
      rw [hp.value, hx, Option.bind_some, Option.bind_some]
      cases hgoes : x.goesWith R with
      | true =>
        have hgoes' := Value.goesWith_mono (Finset.subset_insert id R) hgoes
        simp [Value.less, hgoes, hgoes']
      | false =>
        have hy : h.value? v = some { x with uses := x.uses.filter fun u => u.op ∉ R } := by
          rw [hp.value, hx, Option.bind_some, Value.less, hgoes]
          rfl
        by_cases hout : op.output = some v
        · have hgoes' : x.goesWith (insert id R) = true := by
            simp [Value.goesWith, hdefiner.mpr hout]
          simp [hout, Value.less, hgoes']
        · -- what was left of the value loses the uses of the operation
          have hrest : op.unrecord id v { x with uses := x.uses.filter fun u => u.op ∉ R } =
              { x with uses := x.uses.filter fun u => u.op ∉ insert id R } := by
            have hdiff := hh.diff_reads hop hy
            simp only [Operation.unrecord, if_neg hout, hdiff, List.filter_filter]
            simp [not_or]
          have hread : v ∈ op.inputs ↔ ∃ u ∈ x.uses, u.op ∉ R ∧ u.op = id := by
            rw [hh.mem_inputs_iff hop hy]
            simp [and_assoc]
          have hinsert := Value.goesWith_insert hgoes (fun he => hout (hdefiner.mp he))
          simp only [Value.less, hgoes, Bool.false_eq_true, if_false, Option.map_some, if_neg hout,
            hrest, Option.filter_some]
          have hsame : (decide (v ∈ op.inputs) && Value.isSpent { x with
              uses := x.uses.filter fun u => u.op ∉ insert id R }) = x.goesWith (insert id R) := by
            rw [Bool.eq_iff_iff, hinsert, Bool.and_eq_true, decide_eq_true_eq, hread]
          rw [hsame]
          cases x.goesWith (insert id R) <;> rfl

/-- What holds between two turns of the sweep: the operations of `R` are gone, all of them dead, and
what can be removed now is on the stack. -/
structure Sweeping (g : Graph) (R : Finset OpId) (work : List OpId) (h : Graph) : Prop where
  consistent : h.Consistent
  pruned : g.Pruned R h
  linked : ∀ id ∈ R, (g.linked? id).isSome = true
  dead : ∀ S : Set OpId, g.TakesDead S → ∀ id ∈ R, id ∈ S
  waiting : ∀ {id op}, h.linked? id = some op → op.isRemovable h.values = true → id ∈ work

/-- An operation that cannot be removed now is dropped from the stack. -/
theorem Sweeping.skip {g h : Graph} {R : Finset OpId} {id : OpId} {work : List OpId}
    (hs : g.Sweeping R (id :: work) h)
    (hstays : ∀ op, h.linked? id = some op → op.isRemovable h.values = false) :
    g.Sweeping R work h where
  consistent := hs.consistent
  pruned := hs.pruned
  linked := hs.linked
  dead := hs.dead
  waiting {other op} hop hr := by
    rcases List.mem_cons.mp (hs.waiting hop hr) with rfl | hin
    · rw [hstays op hop] at hr
      cases hr
    · exact hin

theorem isUsed_eq_false_iff {g : Graph} {v : ValueId} {x : Value} (hx : g.value? v = some x) :
    g.values.isUsed v = false ↔ x.uses = [] := by
  have hx' : g.values.value? v = some x := hx
  simp [Values.isUsed, hx', Value.isUsed]

/-- An operation that can be removed is dead. -/
theorem Sweeping.dead_of_isRemovable {g h : Graph} {R : Finset OpId} {work : List OpId}
    (hs : g.Sweeping R work h) {id : OpId} {op : Operation} (hop : h.linked? id = some op)
    (hr : op.isRemovable h.values = true) {S : Set OpId} (hS : g.TakesDead S) : id ∈ S := by
  obtain ⟨heff, hunused⟩ := isRemovable_iff.mp hr
  refine hS.closed (hs.pruned.linked?.mp hop).2 heff ?_
  intro v x hv hx u hu
  obtain ⟨y, hy⟩ := Option.isSome_iff_exists.mp (hs.consistent.output_live hop hv)
  have hnil := (isUsed_eq_false_iff hy).mp (hunused v hv)
  obtain ⟨x', hx', _, rfl⟩ := hs.pruned.value?_eq_some_iff.mp hy
  obtain rfl : x = x' := Option.some.inj (hx.symm.trans hx')
  exact hs.dead S hS u.op (filter_uses_eq_nil_iff.mp hnil u hu)

/-- What a removal makes removable is the definer of an input. -/
theorem Sweeping.waiting_of_remove {g h : Graph} {R : Finset OpId} {id : OpId} {work : List OpId}
    (hs : g.Sweeping R (id :: work) h) {op : Operation} (hop : h.linked? id = some op)
    {k : Graph} (hk : k.Consistent) (hp : g.Pruned (insert id R) k) {other : OpId} {p : Operation}
    (hother : k.linked? other = some p) (hr : p.isRemovable k.values = true) :
    other ∈ (settleInputs op.inputs work (h.without id op)).1 := by
  obtain ⟨hnew, hog⟩ := hp.linked?.mp hother
  have hne : other ≠ id := fun he => hnew (he ▸ Finset.mem_insert_self id R)
  have hoh : h.linked? other = some p :=
    hs.pruned.linked?.mpr ⟨fun hin => hnew (Finset.mem_insert_of_mem hin), hog⟩
  rw [mem_settleInputs]
  cases hr' : p.isRemovable h.values with
  | true => exact Or.inl ((List.mem_cons.mp (hs.waiting hoh hr')).resolve_left hne)
  | false =>
    obtain ⟨heff, hunused⟩ := isRemovable_iff.mp hr
    -- its output was read before, and no longer is
    have hused : ∃ w, p.output = some w ∧ h.values.isUsed w = true := by
      by_contra hno
      have hrem : p.isRemovable h.values = true := isRemovable_iff.mpr ⟨heff, fun w hw => by
        cases hu : h.values.isUsed w with
        | false => rfl
        | true => exact absurd ⟨w, hw, hu⟩ hno⟩
      rw [hr'] at hrem
      cases hrem
    obtain ⟨w, hw, hu⟩ := hused
    obtain ⟨z, hz⟩ := Option.isSome_iff_exists.mp (hk.output_live hother hw)
    obtain ⟨y, hy⟩ := Option.isSome_iff_exists.mp (hs.consistent.output_live hoh hw)
    have hnil := (isUsed_eq_false_iff hz).mp (hunused w hw)
    obtain ⟨x, hx, _, rfl⟩ := hp.value?_eq_some_iff.mp hz
    obtain ⟨x', hx', _, hyx⟩ := hs.pruned.value?_eq_some_iff.mp hy
    obtain rfl : x = x' := Option.some.inj (hx.symm.trans hx')
    have hsome : y.uses ≠ [] := fun he => by
      rw [(isUsed_eq_false_iff hy).mpr he] at hu
      cases hu
    obtain ⟨u, huy⟩ := List.exists_mem_of_ne_nil _ hsome
    have hid : u.op = id := by
      rw [hyx, List.mem_filter, decide_eq_true_eq] at huy
      exact (Finset.mem_insert.mp (filter_uses_eq_nil_iff.mp hnil u huy.1)).resolve_right huy.2
    have hread : w ∈ op.inputs := (hs.consistent.mem_inputs_iff hop hy).mpr ⟨u, huy, hid⟩
    have hout : op.output ≠ some w := fun ho => hne (hs.consistent.output_inj hoh hop hw ho)
    refine Or.inr ⟨w, hread, op.unrecord id w y, ?_, ?_⟩
    · rw [value?_without, if_neg hout, hy]
      rfl
    · simp only [Operation.unrecord, if_neg hout]
      exact (hs.consistent.definer_iff hy other).mpr ⟨p, hoh, hw⟩

theorem Sweeping.remove {g h : Graph} (hg : g.Consistent) {R : Finset OpId} {id : OpId}
    {work : List OpId} (hs : g.Sweeping R (id :: work) h) {op : Operation}
    (hop : h.linked? id = some op) (hr : op.isRemovable h.values = true) :
    g.Sweeping (insert id R) (settleInputs op.inputs work (h.without id op)).1
      (settleInputs op.inputs work (h.without id op)).2 := by
  have hcons := (settleInputs_keeps (hs.consistent.without hop hr) op.inputs work).1
  have hpruned := hs.pruned.remove hg hs.consistent hop work
  refine ⟨hcons, hpruned, ?_, ?_, hs.waiting_of_remove hop hcons hpruned⟩
  · intro other hin
    rcases Finset.mem_insert.mp hin with rfl | hin
    · exact Option.isSome_of_eq_some (hs.pruned.linked?.mp hop).2
    · exact hs.linked other hin
  · intro S hS other hin
    rcases Finset.mem_insert.mp hin with rfl | hin
    · exact hs.dead_of_isRemovable hop hr hS
    · exact hs.dead S hS other hin

/-- The sweep goes on until its stack is empty, and counts what it removes. -/
theorem Sweeping.sweep {g h : Graph} (hg : g.Consistent) {R : Finset OpId} {work : List OpId}
    (hs : g.Sweeping R work h) :
    ∃ (R' : Finset OpId) (k : Graph), sweep work R.card h = .ok R'.card k ∧ g.Sweeping R' [] k := by
  generalize hn : R.card = n
  induction work, n, h, hs.consistent using sweep_induct generalizing R with
  | done n h => exact ⟨R, h, by rw [Graph.sweep, hn], hs⟩
  | skip id work n h _ hstays ih =>
    rw [sweep_cons_of_not_isRemovable hstays]
    exact ih (hs.skip hstays) hn
  | remove id op work n h hc hop hr ih =>
    rw [hc.sweep_cons_of_isRemovable hop hr]
    refine ih (hs.remove hg hop hr) ?_
    rw [Finset.card_insert_of_notMem (hs.pruned.linked?.mp hop).1, hn]

/-- Where nothing can be removed the sweep changes nothing. -/
theorem IsSwept.sweep {g : Graph} (hs : g.IsSwept) (work : List OpId) (removed : Nat) :
    Graph.sweep work removed g = .ok removed g := by
  induction work with
  | nil => rw [Graph.sweep]
  | cons id rest ih =>
    rw [sweep_cons_of_not_isRemovable (hs id)]
    exact ih

/-- With an empty stack, all dead operations are gone. -/
theorem Sweeping.isSwept {g h : Graph} {R : Finset OpId} (hs : g.Sweeping R [] h) : h.IsSwept := by
  intro id op hop
  cases hr : op.isRemovable h.values with
  | false => rfl
  | true => cases hs.waiting hop hr

theorem Sweeping.takesDead {g h : Graph} {R : Finset OpId} (hs : g.Sweeping R [] h) :
    g.TakesDead R where
  linked id hid := hs.linked id hid
  closed {id op} hop heff huses := by
    by_contra hnot
    have hoh : h.linked? id = some op := hs.pruned.linked?.mpr ⟨hnot, hop⟩
    have hrem : op.isRemovable h.values = true := by
      refine isRemovable_iff.mpr ⟨heff, fun v hv => ?_⟩
      obtain ⟨y, hy⟩ := Option.isSome_iff_exists.mp (hs.consistent.output_live hoh hv)
      rw [isUsed_eq_false_iff hy]
      obtain ⟨x, hx, _, rfl⟩ := hs.pruned.value?_eq_some_iff.mp hy
      exact filter_uses_eq_nil_iff.mpr (huses v x hv hx)
    rw [hs.isSwept id op hoh] at hrem
    cases hrem

/-- Dead code elimination starts with every operation on its stack. -/
theorem Consistent.exists_sweeping {g : Graph} (hc : g.Consistent) :
    ∃ (R : Finset OpId) (h : Graph), Graph.eliminateDeadCode g = .ok R.card h ∧
      g.Sweeping R [] h := by
  have hstart : g.Sweeping ∅ (g.linkedOps.map (·.1)).reverse g := by
    refine ⟨hc, pruned_empty g, by simp, by simp, ?_⟩
    intro id op hop _
    rw [List.mem_reverse, List.mem_map]
    exact ⟨(id, op), mem_linkedOps.mpr (linked?_eq_some_iff.mp hop), rfl⟩
  exact hstart.sweep hc

/-- Dead code elimination of a consistent graph answers, and removes exactly the dead operations,
the least set that has every operation without effects whose output only the set reads. -/
theorem eliminateDeadCode_removes_dead {g : Graph} (hc : g.Consistent) :
    ∃ (R : Finset OpId) (h : Graph), eliminateDeadCode g = .ok R.card h ∧
      IsLeast {S : Set OpId | g.TakesDead S} R ∧ g.Pruned R h ∧ h.IsSwept ∧
      eliminateDeadCode h = .ok 0 h := by
  obtain ⟨R, h, hok, hend⟩ := hc.exists_sweeping
  exact ⟨R, h, hok, ⟨hend.takesDead, fun S hS id hid => hend.dead S hS id hid⟩, hend.pruned,
    hend.isSwept, hend.isSwept.sweep _ 0⟩

/-- A copy of a sum that nothing reads, two copies that read each other, an operation that is not
linked, and a store that reads what the sum reads. -/
def circularCopies : Graph :=
  replay [.newConstant 4 8, .newConstant 5 8, .newOutput 8, .newOutput 8, .newOutput 8,
    .newOutput 8, .newOutput 8, .addLinked (.copy ⟨3⟩ ⟨2⟩), .addLinked (.binary .intAdd ⟨2⟩ ⟨0⟩ ⟨1⟩),
    .addLinked (.copy ⟨4⟩ ⟨5⟩), .addLinked (.copy ⟨5⟩ ⟨4⟩), .add (.copy ⟨6⟩ ⟨1⟩),
    .addLinked (.store .ram ⟨0⟩ ⟨0⟩)] {}

theorem circularCopies_removes_dead :
    circularCopies.Consistent ∧
      ∃ (R : Finset OpId) (h : Graph), eliminateDeadCode circularCopies = .ok R.card h ∧
        IsLeast {S : Set OpId | circularCopies.TakesDead S} R ∧ circularCopies.Pruned R h ∧
        h.IsSwept ∧ eliminateDeadCode h = .ok 0 h := by
  have hc : circularCopies.Consistent := replay_consistent_of_nodup _ (by decide) (by decide)
  exact ⟨hc, eliminateDeadCode_removes_dead hc⟩

end Graph
end DefUse
