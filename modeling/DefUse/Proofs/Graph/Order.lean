import Mathlib.Data.Set.Insert
import DefUse.Proofs.Graph.Arrange
import DefUse.Proofs.Graph.Consistent

namespace DefUse

theorem Slots.pairwise_entries {α : Type} (s : Slots α) : s.entries.Pairwise fun a b => a.1 < b.1 := by
  have hidx : s.cells.zipIdx.Pairwise fun a b => a.2 < b.2 := by
    rw [← List.pairwise_map (f := Prod.snd) (R := fun i j => i < j), List.zipIdx_map_snd]
    exact List.pairwise_lt_range'
  refine List.Pairwise.filterMap _ ?_ hidx
  rintro ⟨cell, i⟩ ⟨cell', j⟩ hij ⟨i', a⟩ ha ⟨j', b⟩ hb
  obtain ⟨c, _, hc⟩ := Option.map_eq_some_iff.mp ha
  obtain ⟨c', _, hc'⟩ := Option.map_eq_some_iff.mp hb
  cases hc
  cases hc'
  exact hij

namespace Graph

theorem pairwise_linkedOps (g : Graph) : g.linkedOps.Pairwise fun a b => a.1.index < b.1.index := by
  have hnodes : g.nodeList.Pairwise fun a b => a.1.index < b.1.index :=
    List.pairwise_map.mpr g.nodes.pairwise_entries
  refine List.Pairwise.filterMap _ ?_ hnodes
  rintro ⟨id, node⟩ ⟨id', node'⟩ hlt ⟨a, p⟩ ha ⟨b, q⟩ hb
  simp only [Option.ite_none_right_eq_some, Option.some.injEq, Prod.mk.injEq] at ha hb
  rw [← ha.2.1, ← hb.2.1]
  exact hlt

/-- Entries for the linked operations are in order of creation. -/
theorem pairwise_of_ids {g : Graph} {entries : List (OpId × List OpId)}
    (hids : entries.map Prod.fst = g.linkedOps.map Prod.fst) :
    entries.Pairwise fun a b => a.1.index < b.1.index := by
  have hsorted : (g.linkedOps.map Prod.fst).Pairwise fun a b => a.index < b.index :=
    List.pairwise_map.mpr g.pairwise_linkedOps
  rw [← hids] at hsorted
  exact (List.pairwise_map (R := fun a b : OpId => a.index < b.index)).mp hsorted

theorem mem_linkedOps_iff {g : Graph} {id : OpId} {op : Operation} :
    (id, op) ∈ g.linkedOps ↔ g.linked? id = some op := by
  rw [mem_linkedOps, linked?_eq_some_iff]

theorem isSome_linked?_iff {g : Graph} {id : OpId} :
    (g.linked? id).isSome = true ↔ id ∈ g.linkedOps.map Prod.fst := by
  rw [List.mem_map]
  constructor
  · intro h
    obtain ⟨op, hop⟩ := Option.isSome_iff_exists.mp h
    exact ⟨(id, op), mem_linkedOps_iff.mpr hop, rfl⟩
  · rintro ⟨⟨_, op⟩, hop, rfl⟩
    exact Option.isSome_of_eq_some (mem_linkedOps_iff.mp hop)

/-- `d` has to be done before `id` can run. -/
def Needs (g : Graph) (id d : OpId) : Prop :=
  ∃ op, g.linked? id = some op ∧
    ((∃ v ∈ op.inputs, ∃ x, g.value? v = some x ∧ x.definer = some d) ∨
      (op.isOrdered = true ∧ d.index < id.index ∧ ∃ p, g.linked? d = some p ∧ p.isOrdered = true))

/-- `d` is the last load or operation with effects created before `id`. -/
structure IsPrevious (g : Graph) (d id : OpId) : Prop where
  ordered : ∃ p, g.linked? d = some p ∧ p.isOrdered = true
  before : d.index < id.index
  last : ∀ {k q}, g.linked? k = some q → q.isOrdered = true → k.index < id.index → k.index ≤ d.index

/-- `id` waits for `d` itself: `d` defines one of its inputs, or is the previous ordered operation and
it is ordered, too. -/
def DependsOn (g : Graph) (id d : OpId) : Prop :=
  ∃ op, g.linked? id = some op ∧
    ((∃ v ∈ op.inputs, ∃ x, g.value? v = some x ∧ x.definer = some d) ∨
      (op.isOrdered = true ∧ g.IsPrevious d id))

/-- Each operation is new and has all it needs behind it when its turn comes. -/
def Feasible (g : Graph) : (done : Set OpId) → List OpId → Prop
  | _, [] => True
  | done, id :: rest => id ∉ done ∧ (∀ d, g.Needs id d → d ∈ done) ∧ g.Feasible (insert id done) rest

/-- A feasible order of all linked operations. -/
structure Arranges (g : Graph) (order : List OpId) : Prop where
  feasible : g.Feasible ∅ order
  mem_iff : ∀ id, id ∈ order ↔ (g.linked? id).isSome = true

theorem Feasible.notMem_done {g : Graph} {done : Set OpId} {order : List OpId}
    (h : g.Feasible done order) {id : OpId} (hid : id ∈ order) : id ∉ done := by
  induction order generalizing done with
  | nil => cases hid
  | cons a rest ih =>
    obtain ⟨ha, _, hrest⟩ := h
    rcases List.mem_cons.mp hid with rfl | hid
    · exact ha
    · exact fun hd => ih hrest hid (Set.mem_insert_of_mem a hd)

theorem Feasible.nodup {g : Graph} {done : Set OpId} {order : List OpId}
    (h : g.Feasible done order) : order.Nodup := by
  induction order generalizing done with
  | nil => exact List.nodup_nil
  | cons a rest ih =>
    obtain ⟨_, _, hrest⟩ := h
    refine List.nodup_cons.mpr ⟨?_, ih hrest⟩
    intro hmem
    exact hrest.notMem_done hmem (Set.mem_insert a done)

/-- What an operation needs stands before it. -/
theorem Feasible.needs_before {g : Graph} {done : Set OpId} {before rest : List OpId} {id d : OpId}
    (h : g.Feasible done (before ++ id :: rest)) (hd : g.Needs id d) : d ∈ done ∨ d ∈ before := by
  induction before generalizing done with
  | nil => exact Or.inl (h.2.1 d hd)
  | cons a before ih =>
    rcases ih h.2.2 with hin | hin
    · rcases hin with rfl | hin
      · exact Or.inr List.mem_cons_self
      · exact Or.inl hin
    · exact Or.inr (List.mem_cons_of_mem a hin)

/-- Only linked operations are needed in a consistent graph. -/
theorem Consistent.linked_of_needs {g : Graph} (hc : g.Consistent) {id d : OpId}
    (h : g.Needs id d) : (g.linked? d).isSome = true := by
  obtain ⟨op, hop, ⟨v, _, x, hx, hd⟩ | ⟨_, _, p, hp, _⟩⟩ := h
  · obtain ⟨p, hp, _⟩ := (hc.definer_iff hx d).mp hd
    exact Option.isSome_of_eq_some hp
  · exact Option.isSome_of_eq_some hp

theorem definers_eq {g : Graph} {inputs : List ValueId}
    (hlive : ∀ v ∈ inputs, (g.value? v).isSome = true) :
    ∃ defs, g.definers inputs = .ok defs ∧
      ∀ d, d ∈ defs ↔ ∃ v ∈ inputs, ∃ x, g.value? v = some x ∧ x.definer = some d := by
  have hmap : ∃ xs, inputs.mapM g.value = .ok xs ∧
      ∀ x, x ∈ xs ↔ ∃ v ∈ inputs, g.value? v = some x := by
    induction inputs with
    | nil => exact ⟨[], rfl, by simp⟩
    | cons v rest ih =>
      obtain ⟨x, hx⟩ := Option.isSome_iff_exists.mp (hlive v List.mem_cons_self)
      obtain ⟨xs, hxs, hmem⟩ := ih fun w hw => hlive w (List.mem_cons_of_mem v hw)
      refine ⟨x :: xs, ?_, ?_⟩
      · have hval : g.value v = .ok x := by simp only [value, hx]
        rw [List.mapM_cons, hval, hxs]
        rfl
      · intro y
        rw [List.mem_cons, hmem]
        simp [hx, eq_comm (a := y)]
  obtain ⟨xs, hxs, hmem⟩ := hmap
  refine ⟨xs.filterMap (·.definer), ?_, ?_⟩
  · simp only [definers, hxs]
    rfl
  · intro d
    simp only [List.mem_filterMap, hmem]
    constructor
    · rintro ⟨x, ⟨v, hv, hx⟩, hd⟩
      exact ⟨v, hv, x, hx, hd⟩
    · rintro ⟨v, hv, x, hx, hd⟩
      exact ⟨x, ⟨v, hv, hx⟩, hd⟩

/-- `last` is the last ordered operation of a list in order of creation. -/
structure LastOrdered (last : Option OpId) (ops : List (OpId × Operation)) : Prop where
  mem : ∀ {d}, last = some d → ∃ p, (d, p) ∈ ops ∧ p.isOrdered = true
  le : ∀ {d p}, (d, p) ∈ ops → p.isOrdered = true → ∃ l, last = some l ∧ d.index ≤ l.index

theorem LastOrdered.append {last : Option OpId} {ops : List (OpId × Operation)}
    (h : LastOrdered last ops) {id : OpId} {op : Operation}
    (hlt : ∀ e ∈ ops, e.1.index < id.index) :
    LastOrdered (if op.isOrdered then some id else last) (ops ++ [(id, op)]) := by
  split
  next ho =>
    refine ⟨fun hd => ⟨op, ?_, ho⟩, fun {d p} hd hp => ⟨id, rfl, ?_⟩⟩
    · obtain rfl := Option.some.inj hd
      simp
    · rcases List.mem_append.mp hd with hd | hd
      · exact Nat.le_of_lt (hlt _ hd)
      · obtain ⟨rfl, rfl⟩ : d = id ∧ p = op := by simpa using hd
        exact Nat.le_refl _
  next ho =>
    refine ⟨fun hd => ?_, fun {d p} hd hp => ?_⟩
    · obtain ⟨p, hp, hpo⟩ := h.mem hd
      exact ⟨p, List.mem_append_left _ hp, hpo⟩
    · rcases List.mem_append.mp hd with hd | hd
      · exact h.le hd hp
      · obtain ⟨rfl, rfl⟩ : d = id ∧ p = op := by simpa using hd
        exact absurd hp ho

/-- An entry names what its operation waits for, and so all it needs, directly or through what it
names. -/
structure Entry (g : Graph) (e : OpId × List OpId) : Prop where
  depends : ∀ d, d ∈ e.2 ↔ g.DependsOn e.1 d
  sound : ∀ d ∈ e.2, g.Needs e.1 d
  complete : ∀ d, g.Needs e.1 d → d ∈ e.2 ∨ ∃ p ∈ e.2, g.Needs p d

theorem entry_of_split {g : Graph} {before rest : List (OpId × Operation)} {id : OpId}
    {op : Operation} (hsplit : g.linkedOps = before ++ (id, op) :: rest) {last : Option OpId}
    (hlast : LastOrdered last before) {defs : List OpId}
    (hmem : ∀ d, d ∈ defs ↔ ∃ v ∈ op.inputs, ∃ x, g.value? v = some x ∧ x.definer = some d) :
    g.Entry (id, defs ++ if op.isOrdered then last.toList else []) := by
  have hop : g.linked? id = some op := mem_linkedOps_iff.mp (by rw [hsplit]; simp)
  have hsorted := g.pairwise_linkedOps
  rw [hsplit, List.pairwise_append, List.pairwise_cons] at hsorted
  -- the linked operations created before this one are those listed before it
  have hbefore {d : OpId} {p : Operation} (hp : g.linked? d = some p) (hd : d.index < id.index) :
      (d, p) ∈ before := by
    have hall := mem_linkedOps_iff.mpr hp
    rw [hsplit, List.mem_append, List.mem_cons] at hall
    rcases hall with hin | heq | hin
    · exact hin
    · cases heq
      exact absurd hd (Nat.lt_irrefl _)
    · exact absurd hd (Nat.lt_asymm (hsorted.2.1.1 _ hin))
  have hneeds (l : OpId) (hl : last = some l) : ∃ p, g.linked? l = some p ∧
      p.isOrdered = true ∧ l.index < id.index := by
    obtain ⟨p, hp, hpo⟩ := hlast.mem hl
    refine ⟨p, mem_linkedOps_iff.mp ?_, hpo, hsorted.2.2 _ hp _ List.mem_cons_self⟩
    rw [hsplit]
    exact List.mem_append_left _ hp
  have hprevious (d : OpId) : last = some d ↔ g.IsPrevious d id := by
    constructor
    · intro hd
      obtain ⟨p, hp, hpo, hdi⟩ := hneeds d hd
      refine ⟨⟨p, hp, hpo⟩, hdi, fun hk hko hki => ?_⟩
      obtain ⟨l, hl, hle⟩ := hlast.le (hbefore hk hki) hko
      rw [hd] at hl
      rwa [Option.some.inj hl]
    · rintro ⟨⟨p, hp, hpo⟩, hdi, hmax⟩
      obtain ⟨l, hl, hle⟩ := hlast.le (hbefore hp hdi) hpo
      obtain ⟨q, hq, hqo, hli⟩ := hneeds l hl
      have heq : l.index = d.index := Nat.le_antisymm (hmax hq hqo hli) hle
      obtain ⟨li⟩ := l
      obtain ⟨di⟩ := d
      simp only at heq
      rw [hl, heq]
  refine ⟨?_, ?_, ?_⟩
  · intro d
    simp only [List.mem_append, hmem]
    constructor
    · rintro (hd | hd)
      · exact ⟨op, hop, Or.inl hd⟩
      · split at hd
        next ho => exact ⟨op, hop, Or.inr ⟨ho, (hprevious d).mp (by simpa using hd)⟩⟩
        next => cases hd
    · rintro ⟨op', hop', hd⟩
      obtain rfl := Option.some.inj (hop.symm.trans hop')
      rcases hd with hd | ⟨ho, hd⟩
      · exact Or.inl hd
      · exact Or.inr (by simp [ho, (hprevious d).mpr hd])
  · intro d hd
    rcases List.mem_append.mp hd with hd | hd
    · exact ⟨op, hop, Or.inl ((hmem d).mp hd)⟩
    · split at hd
      next ho =>
        obtain ⟨p, hp, hpo, hdi⟩ := hneeds d (by simpa using hd)
        exact ⟨op, hop, Or.inr ⟨ho, hdi, p, hp, hpo⟩⟩
      next => cases hd
  · rintro d ⟨op', hop', hd⟩
    obtain rfl := Option.some.inj (hop.symm.trans hop')
    rcases hd with hd | ⟨ho, hdi, p, hp, hpo⟩
    · exact Or.inl (List.mem_append_left _ ((hmem d).mpr hd))
    · obtain ⟨l, hl, hle⟩ := hlast.le (hbefore hp hdi) hpo
      have hmeml : l ∈ defs ++ if op.isOrdered then last.toList else [] := by simp [ho, hl]
      rcases Nat.lt_or_eq_of_le hle with hdl | heq
      · obtain ⟨q, hq, hqo, _⟩ := hneeds l hl
        exact Or.inr ⟨l, hmeml, q, hq, Or.inr ⟨hqo, hdl, p, hp, hpo⟩⟩
      · obtain ⟨di⟩ := d
        obtain ⟨li⟩ := l
        simp only at heq
        rw [heq]
        exact Or.inl hmeml

theorem waits_eq {g : Graph} (hc : g.Consistent) (before ops : List (OpId × Operation))
    (hsplit : g.linkedOps = before ++ ops) {last : Option OpId} (hlast : LastOrdered last before) :
    ∃ entries, g.waits last ops = .ok entries ∧ entries.map Prod.fst = ops.map Prod.fst ∧
      ∀ e ∈ entries, g.Entry e := by
  induction ops generalizing before last with
  | nil => exact ⟨[], rfl, rfl, by simp⟩
  | cons first rest ih =>
    obtain ⟨id, op⟩ := first
    have hop : g.linked? id = some op := mem_linkedOps_iff.mp (by rw [hsplit]; simp)
    have hsorted := g.pairwise_linkedOps
    rw [hsplit, List.pairwise_append] at hsorted
    obtain ⟨entries, hok, hids, hentries⟩ := ih (before ++ [(id, op)])
      (by rw [hsplit, List.append_assoc]; rfl)
      (hlast.append fun e he => hsorted.2.2 e he _ List.mem_cons_self)
    obtain ⟨defs, hdefs, hmem⟩ := definers_eq (g := g) fun v hv => hc.input_live hop hv
    refine ⟨(id, defs ++ if op.isOrdered then last.toList else []) :: entries, ?_, by simp [hids], ?_⟩
    · cases ho : op.isOrdered <;>
        simp only [ho, Bool.false_eq_true, if_false, if_true] at hok <;>
        simp only [waits, hdefs, ho, Bool.false_eq_true, if_false, if_true] <;>
        simp [bind, Except.bind, hok, pure, Except.pure]
    · intro e he
      rcases List.mem_cons.mp he with rfl | he
      · exact entry_of_split hsplit hlast hmem
      · exact hentries e he

/-- From operations done, with all they need, the rest is taken in a feasible order; what is left is
not ready. -/
theorem arrange_eq {g : Graph} (done : List OpId) (left : List (OpId × List OpId))
    (hentries : ∀ e ∈ left, g.Entry e) (hnew : ∀ e ∈ left, e.1 ∉ done)
    (hnodup : (left.map Prod.fst).Nodup) (hclosed : ∀ p ∈ done, ∀ d, g.Needs p d → d ∈ done) :
    ∃ taken stuck, arrange done left = (done.reverse ++ taken, stuck) ∧
      g.Feasible {id | id ∈ done} taken ∧ (taken ++ stuck.map Prod.fst).Perm (left.map Prod.fst) ∧
      ∀ e ∈ stuck, e ∈ left ∧ isReady (taken.reverse ++ done) e = false := by
  induction done, left using arrange.induct with
  | case1 done left hnone =>
    refine ⟨[], left, by rw [arrange_of_none hnone, List.append_nil], trivial, List.Perm.refl _, ?_⟩
    · intro e he
      have h := List.find?_eq_none.mp hnone e he
      exact ⟨he, by simpa using h⟩
  | case2 done left entry hfind ih =>
    obtain ⟨hready, before, after, hleft, _, herase⟩ := split_of_find? hfind
    have hmem : entry ∈ left := List.mem_of_find?_eq_some hfind
    have hsub : ∀ e ∈ before ++ after, e ∈ left := by
      intro e he
      rw [hleft]
      rcases List.mem_append.mp he with he | he
      · exact List.mem_append_left _ he
      · exact List.mem_append_right _ (List.mem_cons_of_mem _ he)
    have hperm : (entry.1 :: (before ++ after).map Prod.fst).Perm (left.map Prod.fst) := by
      rw [hleft]
      simp only [List.map_append, List.map_cons]
      exact List.perm_middle.symm
    have hnodup' := hperm.nodup_iff.mpr hnodup
    rw [List.nodup_cons] at hnodup'
    -- all that the entry names is done, and so is all that those need
    have hneeds : ∀ d, g.Needs entry.1 d → d ∈ done := by
      intro d hd
      have hall : ∀ p ∈ entry.2, p ∈ done := by simpa [isReady] using hready
      rcases (hentries entry hmem).complete d hd with hin | ⟨p, hp, hpd⟩
      · exact hall d hin
      · exact hclosed p (hall p hp) d hpd
    rw [herase] at ih
    obtain ⟨taken, stuck, hok, hfeas, hpermT, hstuck⟩ := ih
      (fun e he => hentries e (hsub e he))
      (by
        intro e he hd
        rcases List.mem_cons.mp hd with heq | hd
        · exact hnodup'.1 (heq ▸ List.mem_map_of_mem he)
        · exact hnew e (hsub e he) hd)
      hnodup'.2
      (by
        intro p hp d hd
        rcases List.mem_cons.mp hp with rfl | hp
        · exact List.mem_cons_of_mem _ (hneeds d hd)
        · exact List.mem_cons_of_mem _ (hclosed p hp d hd))
    refine ⟨entry.1 :: taken, stuck, ?_, ⟨hnew entry hmem, hneeds, ?_⟩, ?_, ?_⟩
    · rw [arrange_of_some hfind, herase, hok, List.reverse_cons, List.append_assoc]
      rfl
    · have hset : (insert entry.1 {id | id ∈ done} : Set OpId) = {id | id ∈ entry.1 :: done} := by
        ext x
        simp
      rw [hset]
      exact hfeas
    · exact (hpermT.cons entry.1).trans hperm
    · intro e he
      obtain ⟨hin, hnot⟩ := hstuck e he
      refine ⟨hsub e hin, ?_⟩
      rw [List.reverse_cons, List.append_assoc]
      exact hnot

/-- Where there is a feasible order of all linked operations, nothing is left over. -/
theorem stuck_eq_nil {g : Graph} (hc : g.Consistent) {order taken : List OpId}
    {stuck : List (OpId × List OpId)} (ho : g.Arranges order)
    (hentries : ∀ e ∈ stuck, g.Entry e)
    (hall : ∀ id, (g.linked? id).isSome = true ↔ id ∈ taken ∨ id ∈ stuck.map Prod.fst)
    (hstuck : ∀ e ∈ stuck, isReady taken.reverse e = false) : stuck = [] := by
  by_contra hne
  obtain ⟨e, he⟩ := List.exists_mem_of_ne_nil stuck hne
  have hmem : e.1 ∈ order := (ho.mem_iff e.1).mpr
    ((hall e.1).mpr (Or.inr (List.mem_map_of_mem he)))
  -- the first operation of the order that is left over
  have hfirst : (order.find? fun id => decide (id ∈ stuck.map Prod.fst)).isSome = true := by
    rw [List.find?_isSome]
    exact ⟨e.1, hmem, by simpa using List.mem_map_of_mem (f := Prod.fst) he⟩
  obtain ⟨id, hid⟩ := Option.isSome_iff_exists.mp hfirst
  obtain ⟨hidStuck, before, after, hsplit, hbefore⟩ := List.find?_eq_some_iff_append.mp hid
  obtain ⟨e', he', rfl⟩ := List.mem_map.mp (of_decide_eq_true hidStuck)
  have hready : isReady taken.reverse e' = true := by
    simp only [isReady, List.all_eq_true]
    intro d hd
    have hneed := (hentries e' he').sound d hd
    have hfeas := ho.feasible
    rw [hsplit] at hfeas
    have hin : d ∈ before := (hfeas.needs_before hneed).resolve_left (Set.notMem_empty d)
    have hnot : d ∉ stuck.map Prod.fst := by simpa using hbefore d hin
    have htaken := ((hall d).mp (hc.linked_of_needs hneed)).resolve_right hnot
    simpa using htaken
  rw [hstuck e' he'] at hready
  cases hready

/-- What the schedule starts from, what it takes and what it leaves over. -/
structure Arranged (g : Graph) (entries : List (OpId × List OpId)) (taken : List OpId)
    (stuck : List (OpId × List OpId)) : Prop where
  waits : g.waits none g.linkedOps = .ok entries
  ids : entries.map Prod.fst = g.linkedOps.map Prod.fst
  entry : ∀ e ∈ entries, g.Entry e
  arrange : arrange [] entries = (taken, stuck)
  feasible : g.Feasible ∅ taken
  perm : (taken ++ stuck.map Prod.fst).Perm (g.linkedOps.map Prod.fst)
  stuck : ∀ e ∈ stuck, e ∈ entries ∧ isReady taken.reverse e = false

theorem Consistent.arranged {g : Graph} (hc : g.Consistent) :
    ∃ entries taken stuck, g.Arranged entries taken stuck := by
  have hlast : LastOrdered none [] := ⟨fun h => (by cases h), fun h => (by cases h)⟩
  obtain ⟨entries, hok, hids, hentries⟩ := waits_eq hc [] g.linkedOps rfl hlast
  obtain ⟨taken, stuck, harr, hfeas, hperm, hstuck⟩ := arrange_eq [] entries hentries (by simp)
    (Progress.nodup_keys (pairwise_of_ids hids)) (by simp)
  rw [List.reverse_nil, List.nil_append] at harr
  have hempty : ({id | id ∈ ([] : List OpId)} : Set OpId) = ∅ := by
    ext x
    simp
  rw [hempty] at hfeas
  rw [hids] at hperm
  refine ⟨entries, taken, stuck, hok, hids, hentries, harr, hfeas, hperm, fun e he => ?_⟩
  obtain ⟨hin, hnot⟩ := hstuck e he
  exact ⟨hin, by simpa using hnot⟩

theorem Arranged.schedule {g : Graph} {entries stuck : List (OpId × List OpId)}
    {taken : List OpId} : g.Arranged entries taken stuck → g.schedule = match stuck with
      | [] => .ok taken
      | (id, _) :: _ => .error (.cycle id) := by
  intro h
  rw [schedule_of_waits h.waits (pairwise_of_ids h.ids), h.arrange]
  cases stuck <;> rfl

/-- The schedule takes operations in a feasible order; it is refused when some are left over. -/
theorem Consistent.schedule_eq {g : Graph} (hc : g.Consistent) :
    ∃ (taken : List OpId) (stuck : List (OpId × List OpId)), g.Feasible ∅ taken ∧
      (∀ id, (g.linked? id).isSome = true ↔ id ∈ taken ∨ id ∈ stuck.map Prod.fst) ∧
      (∀ e ∈ stuck, g.Entry e ∧ isReady taken.reverse e = false) ∧
      g.schedule = match stuck with
        | [] => .ok taken
        | (id, _) :: _ => .error (.cycle id) := by
  obtain ⟨entries, taken, stuck, h⟩ := hc.arranged
  refine ⟨taken, stuck, h.feasible, ?_, ?_, h.schedule⟩
  · intro id
    rw [← List.mem_append, h.perm.mem_iff]
    exact isSome_linked?_iff
  · intro e he
    obtain ⟨hin, hnot⟩ := h.stuck e he
    exact ⟨h.entry e hin, hnot⟩

theorem Consistent.arranges_of_schedule {g : Graph} (hc : g.Consistent) {order : List OpId}
    (h : g.schedule = .ok order) : g.Arranges order := by
  obtain ⟨taken, stuck, hfeas, hall, _, heq⟩ := hc.schedule_eq
  rw [h] at heq
  cases stuck with
  | nil =>
    cases heq
    exact ⟨hfeas, fun id => by rw [hall]; simp⟩
  | cons e rest => cases heq

theorem Consistent.schedule_of_arranges {g : Graph} (hc : g.Consistent) {order : List OpId}
    (h : g.Arranges order) : ∃ order', g.schedule = .ok order' := by
  obtain ⟨taken, stuck, _, hall, hstuck, heq⟩ := hc.schedule_eq
  have hnil : stuck = [] := stuck_eq_nil hc h (fun e he => (hstuck e he).1) hall
    fun e he => (hstuck e he).2
  rw [hnil] at heq
  exact ⟨taken, heq⟩

end Graph
end DefUse
