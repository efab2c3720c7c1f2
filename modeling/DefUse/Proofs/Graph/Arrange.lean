import Mathlib.Data.List.Nodup
import DefUse.Graph.Schedule

namespace DefUse

theorem nodup_eraseDups {α : Type} [BEq α] [LawfulBEq α] (l : List α) : l.eraseDups.Nodup := by
  cases l with
  | nil => simp
  | cons a rest =>
    rw [List.eraseDups_cons, List.nodup_cons, List.mem_eraseDups]
    exact ⟨by simp, nodup_eraseDups _⟩
termination_by l.length
decreasing_by
  subst_vars
  exact Nat.lt_succ_of_le (List.length_filter_le ..)

namespace Assoc
variable {κ α : Type} [DecidableEq κ]

theorem get?_eq_some_of_mem {m : Assoc κ α} (hkeys : (m.map Prod.fst).Nodup) {k : κ} {a : α}
    (hm : (k, a) ∈ m) : m.get? k = some a := by
  induction m with
  | nil => cases hm
  | cons e rest ih =>
    obtain ⟨j, b⟩ := e
    rw [List.map_cons, List.nodup_cons] at hkeys
    rcases List.mem_cons.mp hm with he | hm
    · cases he
      simp [get?]
    · have hne : j ≠ k := fun he => hkeys.1 (List.mem_map.mpr ⟨(k, a), hm, he.symm⟩)
      simpa [get?, hne] using ih hkeys.2 hm

theorem keys_put {m : Assoc κ α} {k : κ} {b : α} (h : m.get? k = some b) (a : α) :
    (m.put k a).map Prod.fst = m.map Prod.fst := by
  induction m with
  | nil => simp [get?] at h
  | cons e rest ih =>
    obtain ⟨j, c⟩ := e
    by_cases hj : j = k
    · simp [put, hj]
    · have hrest : Assoc.get? rest k = some b := by simpa [get?, hj] using h
      simp [put, hj, ih hrest]

/-- A map is known from its keys, in order, and what it answers on them. -/
theorem eq_map_of_get? {β : Type} {m : Assoc κ α} {entries : List (κ × β)} {f : κ × β → α}
    (hids : m.map Prod.fst = entries.map Prod.fst) (hkeys : (entries.map Prod.fst).Nodup)
    (hget : ∀ e ∈ entries, m.get? e.1 = some (f e)) : m = entries.map fun e => (e.1, f e) := by
  induction entries generalizing m with
  | nil => simpa using hids
  | cons e rest ih =>
    obtain ⟨⟨j, b⟩, tail, rfl, hj, htail⟩ := List.map_eq_cons_iff.mp hids
    obtain rfl : j = e.1 := hj
    rw [List.map_cons, List.nodup_cons] at hkeys
    have hb : b = f e := by simpa [get?] using hget e List.mem_cons_self
    have hrest : tail = rest.map fun e => (e.1, f e) := by
      refine ih htail hkeys.2 fun d hd => ?_
      have hne : e.1 ≠ d.1 := fun he => hkeys.1 (List.mem_map.mpr ⟨d, hd, he.symm⟩)
      simpa [get?, hne] using hget d (List.mem_cons_of_mem _ hd)
    rw [List.map_cons, hb, hrest]

end Assoc

namespace Graph

/-- Whether all that an operation waits for is done. -/
def isReady (done : List OpId) (entry : OpId × List OpId) : Bool :=
  entry.2.all done.contains

/-- Takes the first ready operation again and again; what is left at the end waits for ever. -/
def arrange (done : List OpId) (left : List (OpId × List OpId)) :
    List OpId × List (OpId × List OpId) :=
  match _h : left.find? (isReady done) with
  | none => (done.reverse, left)
  | some entry => arrange (entry.1 :: done) (left.eraseP (isReady done))
termination_by left.length
decreasing_by
  have hm := List.mem_of_find?_eq_some _h
  have hp := List.length_eraseP_of_mem hm (List.find?_some _h)
  have := List.length_pos_of_mem hm
  omega

theorem arrange_of_none {done : List OpId} {left : List (OpId × List OpId)}
    (h : left.find? (isReady done) = none) : arrange done left = (done.reverse, left) := by
  rw [arrange]
  split
  next => rfl
  next e he =>
    rw [h] at he
    cases he

theorem arrange_of_some {done : List OpId} {left : List (OpId × List OpId)}
    {entry : OpId × List OpId} (h : left.find? (isReady done) = some entry) :
    arrange done left = arrange (entry.1 :: done) (left.eraseP (isReady done)) := by
  rw [arrange]
  split
  next hnone =>
    rw [h] at hnone
    cases hnone
  next e he =>
    rw [h] at he
    rw [Option.some.inj he]

/-- The first entry that is ready, and what is left without it. -/
theorem split_of_find? {done : List OpId} {left : List (OpId × List OpId)}
    {entry : OpId × List OpId} (h : left.find? (isReady done) = some entry) :
    isReady done entry = true ∧ ∃ before after, left = before ++ entry :: after ∧
      (∀ e ∈ before, isReady done e = false) ∧ left.eraseP (isReady done) = before ++ after := by
  obtain ⟨hready, before, after, hleft, hbefore⟩ := List.find?_eq_some_iff_append.mp h
  have hnot : ∀ e ∈ before, isReady done e = false := fun e he => by simpa using hbefore e he
  refine ⟨hready, before, after, hleft, hnot, ?_⟩
  rw [hleft, List.eraseP_append_right _ fun e he => by simp [hnot e he],
    List.eraseP_cons_of_pos hready]

/-- How many of those that an operation waits for are not done. -/
def waiting (done : List OpId) (entry : OpId × List OpId) : Nat :=
  (entry.2.eraseDups.filter fun d => !done.contains d).length

theorem isReady_iff {done : List OpId} {entry : OpId × List OpId} :
    isReady done entry = true ↔ waiting done entry = 0 := by
  simp [isReady, waiting, List.mem_eraseDups]

theorem isReady_cons {done : List OpId} {entry : OpId × List OpId} (h : isReady done entry = true)
    (id : OpId) : isReady (id :: done) entry = true := by
  simp only [isReady, List.all_eq_true, List.contains_eq_mem, decide_eq_true_eq] at h ⊢
  exact fun d hd => List.mem_cons_of_mem _ (h d hd)

theorem waiting_cons {done : List OpId} {id : OpId} (hid : id ∉ done) (entry : OpId × List OpId) :
    waiting done entry = waiting (id :: done) entry + if id ∈ entry.2 then 1 else 0 := by
  have hnodup : (entry.2.eraseDups.filter fun d => !done.contains d).Nodup :=
    (nodup_eraseDups _).filter _
  have herase : (entry.2.eraseDups.filter fun d => !(id :: done).contains d) =
      (entry.2.eraseDups.filter fun d => !done.contains d).erase id := by
    rw [hnodup.erase_eq_filter, List.filter_filter]
    refine List.filter_congr fun d _ => ?_
    rw [Bool.eq_iff_iff]
    simp
  have hmem : id ∈ (entry.2.eraseDups.filter fun d => !done.contains d) ↔ id ∈ entry.2 := by
    simp [List.mem_eraseDups, hid]
  simp only [waiting, herase]
  split
  next hin =>
    rw [List.length_erase_of_mem (hmem.mpr hin)]
    have := List.length_pos_of_mem (hmem.mpr hin)
    omega
  next hout => rw [List.erase_of_not_mem fun h => hout (hmem.mp h), Nat.add_zero]

namespace Progress

theorem mem_enqueue {id other : OpId} {ready : List OpId} :
    other ∈ enqueue id ready ↔ other = id ∨ other ∈ ready := by
  induction ready with
  | nil => simp [enqueue]
  | cons first rest ih =>
    simp only [enqueue]
    split
    · simp only [List.mem_cons, ih]
      tauto
    · simp

theorem pairwise_enqueue {id : OpId} {ready : List OpId} (hid : id ∉ ready)
    (hsorted : ready.Pairwise fun a b => a.index < b.index) :
    (enqueue id ready).Pairwise fun a b => a.index < b.index := by
  induction ready with
  | nil => simp [enqueue]
  | cons first rest ih =>
    obtain ⟨hfirst, hrest⟩ := List.pairwise_cons.mp hsorted
    rw [List.mem_cons, not_or] at hid
    simp only [enqueue]
    split
    next hlt =>
      refine List.pairwise_cons.mpr ⟨fun other hin => ?_, ih hid.2 hrest⟩
      rcases mem_enqueue.mp hin with rfl | hin
      · exact hlt
      · exact hfirst other hin
    next hge =>
      have hlt : id.index < first.index := by
        have hne : id.index ≠ first.index := fun he => hid.1 (by
          cases id
          cases first
          simpa using he)
        omega
      refine List.pairwise_cons.mpr ⟨fun other hin => ?_, hsorted⟩
      rcases List.mem_cons.mp hin with rfl | hin
      · exact hlt
      · exact Nat.lt_trans hlt (hfirst other hin)

/-- `t` is `s` with the operations of `ids` counted down. -/
structure CountedDown (ids : List OpId) (s t : Progress) : Prop where
  order : t.order = s.order
  keys : t.pending.map Prod.fst = s.pending.map Prod.fst
  count : ∀ id, t.pending.get? id =
    if id ∈ ids then (s.pending.get? id).map (· - 1) else s.pending.get? id
  mem_ready : ∀ id, id ∈ t.ready ↔ id ∈ s.ready ∨ (id ∈ ids ∧ s.pending.get? id = some 1)
  sorted : (s.ready.Pairwise fun a b => a.index < b.index) → (∀ id ∈ ids, id ∉ s.ready) →
    t.ready.Pairwise fun a b => a.index < b.index

theorem countedDown (s : Progress) (id : OpId) : CountedDown [id] s (s.countDown id) := by
  unfold countDown
  split
  next n hn =>
    refine ⟨rfl, Assoc.keys_put hn n, ?_, ?_, ?_⟩
    · intro other
      simp only [Assoc.get?_put, List.mem_singleton, eq_comm (a := other)]
      split
      next he => rw [← he, hn]; rfl
      next => rfl
    · intro other
      by_cases h0 : n = 0
      · simp only [h0, if_true, mem_enqueue, List.mem_singleton]
        subst h0
        constructor
        · rintro (rfl | hin)
          · exact Or.inr ⟨rfl, hn⟩
          · exact Or.inl hin
        · rintro (hin | ⟨he, _⟩)
          · exact Or.inr hin
          · exact Or.inl he
      · simp only [h0, if_false, List.mem_singleton]
        refine ⟨Or.inl, ?_⟩
        rintro (hin | ⟨rfl, h1⟩)
        · exact hin
        · rw [hn] at h1
          simp [h0] at h1
    · intro hsorted hnew
      split
      · exact pairwise_enqueue (hnew id (by simp)) hsorted
      · exact hsorted
  next hzero =>
    have hsame : s.pending.get? id = none ∨ s.pending.get? id = some 0 := by
      cases hn : s.pending.get? id with
      | none => exact Or.inl rfl
      | some n =>
        cases n with
        | zero => exact Or.inr rfl
        | succ n => exact absurd hn (hzero n)
    refine ⟨rfl, rfl, ?_, ?_, fun hsorted _ => hsorted⟩
    · intro other
      split
      next he => rcases hsame with h | h <;> rw [List.mem_singleton.mp he, h] <;> rfl
      next => rfl
    · intro other
      refine ⟨Or.inl, ?_⟩
      rintro (hin | ⟨he, h1⟩)
      · exact hin
      · rw [List.mem_singleton.mp he] at h1
        rcases hsame with h | h <;> rw [h] at h1 <;> cases h1

theorem countedDown_foldl {ids : List OpId} (hnodup : ids.Nodup) (s : Progress) :
    CountedDown ids s (ids.foldl countDown s) := by
  induction ids generalizing s with
  | nil => exact ⟨rfl, rfl, by simp, by simp, fun hsorted _ => hsorted⟩
  | cons id rest ih =>
    obtain ⟨hid, hrest⟩ := List.nodup_cons.mp hnodup
    have hone := countedDown s id
    have hmore := ih hrest (s.countDown id)
    -- the rest of the ids differ from the first, so their counts are still the old ones
    have hcount : ∀ other ∈ rest, (s.countDown id).pending.get? other = s.pending.get? other := by
      intro other hin
      have hne : other ≠ id := fun he => hid (he ▸ hin)
      rw [hone.count, if_neg (by simpa using hne)]
    refine ⟨hmore.order.trans hone.order, hmore.keys.trans hone.keys, ?_, ?_, ?_⟩
    · intro other
      rw [List.foldl_cons, hmore.count]
      by_cases hin : other ∈ rest
      · simp [hin, hcount other hin]
      · rw [if_neg hin, hone.count]
        simp [hin]
    · intro other
      rw [List.foldl_cons, hmore.mem_ready, hone.mem_ready]
      by_cases hin : other ∈ rest
      · have hne : other ≠ id := fun he => hid (he ▸ hin)
        simp [hin, hne, hcount other hin]
      · simp [hin]
    · intro hsorted hnew
      refine hmore.sorted (hone.sorted hsorted fun other hin => ?_) fun other hin => ?_
      · rw [List.mem_singleton.mp hin]
        exact hnew id List.mem_cons_self
      · rw [hone.mem_ready]
        rintro (hold | ⟨he, _⟩)
        · exact hnew other (List.mem_cons_of_mem _ hin) hold
        · exact hid (List.mem_singleton.mp he ▸ hin)

/-- The operations of `entries` that are not done. -/
abbrev left (entries : List (OpId × List OpId)) (done : List OpId) : List (OpId × List OpId) :=
  entries.filter fun e => !done.contains e.1

/-- The state of the scheduler when `done` are taken: each operation has a count of those it waits
for that are not done, and those without any are queued. -/
structure Tracks (entries : List (OpId × List OpId)) (done : List OpId) (s : Progress) : Prop where
  order : s.order = done
  keys : s.pending.map Prod.fst = entries.map Prod.fst
  count : ∀ e ∈ entries, s.pending.get? e.1 = some (waiting done e)
  sorted : s.ready.Pairwise fun a b => a.index < b.index
  mem_ready : ∀ id, id ∈ s.ready ↔
    id ∉ done ∧ ∃ e ∈ entries, e.1 = id ∧ isReady done e = true
  closed : ∀ e ∈ entries, e.1 ∈ done → isReady done e = true
  total : done.length + (left entries done).length = entries.length

section
variable {entries : List (OpId × List OpId)}

theorem nodup_keys (hsorted : entries.Pairwise fun a b => a.1.index < b.1.index) :
    (entries.map Prod.fst).Nodup := by
  refine List.pairwise_map.mpr (hsorted.imp fun {a b} hlt he => ?_)
  rw [he] at hlt
  exact Nat.lt_irrefl _ hlt

theorem eq_of_key (hkeys : (entries.map Prod.fst).Nodup) {d e : OpId × List OpId} (hd : d ∈ entries)
    (he : e ∈ entries) (hde : d.1 = e.1) : d = e :=
  List.inj_on_of_nodup_map hkeys hd he hde

theorem mem_dependents {id other : OpId} :
    other ∈ dependents entries id ↔ ∃ e ∈ entries, e.1 = other ∧ id ∈ e.2 := by
  simp only [dependents, List.mem_map, List.mem_filter, List.contains_eq_mem, decide_eq_true_eq]
  constructor
  · rintro ⟨e, ⟨he, hin⟩, hid⟩
    exact ⟨e, he, hid, hin⟩
  · rintro ⟨e, he, hid, hin⟩
    exact ⟨e, ⟨he, hin⟩, hid⟩

theorem nodup_dependents (hkeys : (entries.map Prod.fst).Nodup) (id : OpId) :
    (dependents entries id).Nodup :=
  (List.filter_sublist.map _).nodup hkeys

theorem tracks_start (hsorted : entries.Pairwise fun a b => a.1.index < b.1.index) :
    Tracks entries [] (start entries) := by
  have hwaiting (e : OpId × List OpId) : waiting [] e = e.2.eraseDups.length := by simp [waiting]
  have hids : (start entries).pending.map Prod.fst = entries.map Prod.fst := by simp [start]
  refine ⟨rfl, hids, ?_, ?_, ?_, by simp, by simp⟩
  · intro e he
    refine Assoc.get?_eq_some_of_mem (hids ▸ nodup_keys hsorted) ?_
    rw [hwaiting]
    exact List.mem_map_of_mem (f := fun e => (e.1, e.2.eraseDups.length)) he
  · rw [start, List.pairwise_map]
    refine List.Pairwise.filter _ ?_
    exact List.pairwise_map.mpr hsorted
  · intro id
    simp [start, isReady_iff, hwaiting]

/-- Once an operation is taken, those before and after it are left. -/
theorem left_split (hsorted : entries.Pairwise fun a b => a.1.index < b.1.index) {done : List OpId}
    {e : OpId × List OpId} (he : e ∈ entries) (hnew : e.1 ∉ done) :
    ∃ before after, left entries done = before ++ e :: after ∧
      left entries (e.1 :: done) = before ++ after ∧ ∀ d ∈ before, d.1.index < e.1.index := by
  have hmem : e ∈ left entries done := List.mem_filter.mpr ⟨he, by simpa using hnew⟩
  obtain ⟨before, after, hsplit⟩ := List.append_of_mem hmem
  have hpair : (left entries done).Pairwise fun a b => a.1.index < b.1.index := hsorted.filter _
  rw [hsplit, List.pairwise_append, List.pairwise_cons] at hpair
  obtain ⟨_, ⟨hafter, _⟩, hbefore⟩ := hpair
  refine ⟨before, after, hsplit, ?_, fun d hd => hbefore d hd e List.mem_cons_self⟩
  have hrest : left entries (e.1 :: done) = (left entries done).filter fun d => d.1 ≠ e.1 := by
    rw [List.filter_filter]
    refine List.filter_congr fun d _ => ?_
    rw [Bool.eq_iff_iff]
    simp
  have hkeep (part : List (OpId × List OpId)) (hne : ∀ d ∈ part, d.1.index ≠ e.1.index) :
      (part.filter fun d => d.1 ≠ e.1) = part := by
    refine List.filter_eq_self.mpr fun d hd => ?_
    exact decide_eq_true fun heq => hne d hd (by rw [heq])
  rw [hrest, hsplit, List.filter_append, List.filter_cons,
    hkeep before fun d hd => Nat.ne_of_lt (hbefore d hd e List.mem_cons_self),
    hkeep after fun d hd => Nat.ne_of_gt (hafter d hd)]
  simp

/-- Taking the first operation of the queue. -/
theorem Tracks.take {done : List OpId} {s : Progress} (h : Tracks entries done s)
    (hsorted : entries.Pairwise fun a b => a.1.index < b.1.index) {id : OpId} {ready : List OpId}
    (hready : s.ready = id :: ready) :
    Tracks entries (id :: done) ((dependents entries id).foldl countDown (s.take id ready)) := by
  have hkeys := nodup_keys hsorted
  obtain ⟨hnew, e, he, rfl, hzero⟩ := (h.mem_ready id).mp (by rw [hready]; exact List.mem_cons_self)
  have hdown := countedDown_foldl (nodup_dependents hkeys e.1) (s.take e.1 ready)
  have hqueue := h.sorted
  rw [hready, List.pairwise_cons] at hqueue
  -- an operation is counted down when it waits for the one taken
  have hwaits {d : OpId × List OpId} (hd : d ∈ entries) :
      d.1 ∈ dependents entries e.1 ↔ e.1 ∈ d.2 := by
    rw [mem_dependents]
    refine ⟨?_, fun hin => ⟨d, hd, rfl, hin⟩⟩
    rintro ⟨d', hd', hid, hin⟩
    rwa [← eq_of_key hkeys hd' hd hid]
  have hcount {d : OpId × List OpId} (hd : d ∈ entries) :
      (s.take e.1 ready).pending.get? d.1 = some (waiting done d) := h.count d hd
  refine ⟨?_, hdown.keys.trans h.keys, ?_, ?_, ?_, ?_, ?_⟩
  · rw [hdown.order]
    simp [Progress.take, h.order]
  · intro d hd
    have hstep := waiting_cons hnew d
    rw [hdown.count, hcount hd]
    by_cases hin : e.1 ∈ d.2
    · rw [if_pos hin] at hstep
      rw [if_pos ((hwaits hd).mpr hin), Option.map_some, hstep, Nat.add_sub_cancel]
    · rw [if_neg hin] at hstep
      rw [if_neg fun hdep => hin ((hwaits hd).mp hdep), hstep, Nat.add_zero]
  · refine hdown.sorted hqueue.2 fun other hdep hin => ?_
    -- what is queued waits for nothing, so not for the one taken
    obtain ⟨d, hd, rfl, hdin⟩ := mem_dependents.mp hdep
    have hmem : d.1 ∈ s.ready := by
      rw [hready]
      exact List.mem_cons_of_mem _ hin
    obtain ⟨_, d', hd', hid, hnone⟩ := (h.mem_ready d.1).mp hmem
    rw [eq_of_key hkeys hd' hd hid, isReady_iff, waiting_cons hnew, if_pos hdin] at hnone
    omega
  · intro other
    rw [hdown.mem_ready]
    constructor
    · rintro (hin | ⟨hdep, hone⟩)
      · have hmem : other ∈ s.ready := by
          rw [hready]
          exact List.mem_cons_of_mem _ hin
        obtain ⟨hdone, d, hd, hid, hnone⟩ := (h.mem_ready other).mp hmem
        have hne : other ≠ e.1 := by
          rintro rfl
          exact Nat.lt_irrefl _ (hqueue.1 _ hin)
        exact ⟨by simp [hne, hdone], d, hd, hid, isReady_cons hnone _⟩
      · obtain ⟨d, hd, rfl, hdin⟩ := mem_dependents.mp hdep
        have hwone : waiting done d = 1 := Option.some.inj ((hcount hd).symm.trans hone)
        have hpos : isReady done d ≠ true := by
          rw [Ne, isReady_iff, hwone]
          exact Nat.one_ne_zero
        refine ⟨?_, d, hd, rfl, ?_⟩
        · rw [List.mem_cons]
          rintro (heq | hdone)
          · exact hpos (eq_of_key hkeys hd he heq ▸ hzero)
          · exact hpos (h.closed d hd hdone)
        · rw [isReady_iff]
          have hstep := waiting_cons hnew d
          rw [if_pos hdin] at hstep
          omega
    · rintro ⟨hnot, d, hd, rfl, hnone⟩
      rw [List.mem_cons, not_or] at hnot
      have hstep := waiting_cons hnew d
      rw [isReady_iff.mp hnone] at hstep
      by_cases hin : e.1 ∈ d.2
      · rw [if_pos hin] at hstep
        exact Or.inr ⟨(hwaits hd).mpr hin, by rw [hcount hd, hstep]⟩
      · rw [if_neg hin] at hstep
        have hmem := (h.mem_ready d.1).mpr ⟨hnot.2, d, hd, rfl, isReady_iff.mpr hstep⟩
        rw [hready] at hmem
        exact Or.inl ((List.mem_cons.mp hmem).resolve_left hnot.1)
  · intro d hd hdone
    rcases List.mem_cons.mp hdone with heq | hdone
    · rw [eq_of_key hkeys hd he heq]
      exact isReady_cons hzero _
    · exact isReady_cons (h.closed d hd hdone) _
  · obtain ⟨before, after, hleft, hrest, _⟩ := left_split hsorted he hnew
    have htotal := h.total
    rw [hleft] at htotal
    rw [hrest]
    simp only [List.length_append, List.length_cons] at htotal ⊢
    omega

/-- Counts are only counted down while something is left to count. -/
theorem Tracks.count_pos {done : List OpId} {s : Progress} (h : Tracks entries done s)
    (hkeys : (entries.map Prod.fst).Nodup) {id : OpId} {ready : List OpId}
    (hready : s.ready = id :: ready) {before after : List OpId} {other : OpId}
    (hsplit : dependents entries id = before ++ other :: after) :
    (before.foldl countDown (s.take id ready)).pending.get? other ≠ some 0 := by
  have hnodup := nodup_dependents hkeys id
  rw [hsplit, List.nodup_append] at hnodup
  have hnot : other ∉ before := fun hin => hnodup.2.2 other hin other List.mem_cons_self rfl
  obtain ⟨hnew, _⟩ := (h.mem_ready id).mp (by rw [hready]; exact List.mem_cons_self)
  have hother := List.mem_append_right before (List.mem_cons_self (a := other) (l := after))
  obtain ⟨e, he, rfl, hin⟩ := mem_dependents.mp (hsplit ▸ hother)
  have hcount : (s.take id ready).pending.get? e.1 = some (waiting done e) := h.count e he
  rw [(countedDown_foldl hnodup.1 (s.take id ready)).count, if_neg hnot, hcount,
    waiting_cons hnew, if_pos hin]
  simp

/-- The first operation of the queue is the first one left that is ready. -/
theorem Tracks.arrange_take {done : List OpId} {s : Progress} (h : Tracks entries done s)
    (hsorted : entries.Pairwise fun a b => a.1.index < b.1.index) {id : OpId} {ready : List OpId}
    (hready : s.ready = id :: ready) :
    arrange done (left entries done) = arrange (id :: done) (left entries (id :: done)) := by
  obtain ⟨hnew, e, he, rfl, hzero⟩ := (h.mem_ready id).mp (by rw [hready]; exact List.mem_cons_self)
  obtain ⟨before, after, hleft, hrest, hbefore⟩ := left_split hsorted he hnew
  have hqueue := h.sorted
  rw [hready, List.pairwise_cons] at hqueue
  have hnot : ∀ d ∈ before, isReady done d ≠ true := by
    intro d hd hnone
    have hdleft : d ∈ left entries done := by
      rw [hleft]
      exact List.mem_append_left _ hd
    obtain ⟨hdin, hdnew⟩ := List.mem_filter.mp hdleft
    have hmem := (h.mem_ready d.1).mpr ⟨by simpa using hdnew, d, hdin, rfl, hnone⟩
    rw [hready] at hmem
    have hlt := hbefore d hd
    rcases List.mem_cons.mp hmem with heq | hin
    · rw [heq] at hlt
      exact Nat.lt_irrefl _ hlt
    · exact Nat.lt_asymm hlt (hqueue.1 _ hin)
  have hfind : (left entries done).find? (isReady done) = some e :=
    List.find?_eq_some_iff_append.mpr ⟨hzero, before, after, hleft, fun d hd => by simpa using hnot d hd⟩
  rw [arrange_of_some hfind, hrest, hleft, List.eraseP_append_right _ hnot,
    List.eraseP_cons_of_pos hzero]

theorem Tracks.drain {done : List OpId} {s : Progress} (h : Tracks entries done s)
    (hsorted : entries.Pairwise fun a b => a.1.index < b.1.index) :
    ∃ done', Tracks entries done' (s.drain entries) ∧ (s.drain entries).ready = [] ∧
      arrange done (left entries done) = (done'.reverse, left entries done') := by
  induction s using drain.induct entries generalizing done with
  | case1 s hstep =>
    have hempty : s.ready = [] := by
      unfold step at hstep
      split at hstep
      next hr => exact hr
      next => cases hstep
    have hlast : s.drain entries = s := by
      rw [Progress.drain]
      split
      next => rfl
      next t ht =>
        rw [hstep] at ht
        cases ht
    refine ⟨done, by rwa [hlast], by rw [hlast, hempty], ?_⟩
    refine arrange_of_none (List.find?_eq_none.mpr fun e he hnone => ?_)
    obtain ⟨hin, hnew⟩ := List.mem_filter.mp he
    have hmem := (h.mem_ready e.1).mpr ⟨by simpa using hnew, e, hin, rfl, hnone⟩
    rw [hempty] at hmem
    cases hmem
  | case2 s t hstep ih =>
    have hnext : s.drain entries = t.drain entries := by
      rw [Progress.drain]
      split
      next hnone =>
        rw [hstep] at hnone
        cases hnone
      next t' ht =>
        rw [hstep] at ht
        rw [Option.some.inj ht]
    unfold step at hstep
    split at hstep
    next => cases hstep
    next id ready hready =>
      obtain rfl := Option.some.inj hstep
      rw [hnext, h.arrange_take hsorted hready]
      exact ih (h.take hsorted hready)

/-- When nothing is ready any more, the first operation left is the first that still waits. -/
theorem Tracks.stuck?_eq {done : List OpId} {s : Progress} (h : Tracks entries done s)
    (hkeys : (entries.map Prod.fst).Nodup) (hempty : s.ready = []) :
    s.stuck? = (left entries done).head?.map Prod.fst := by
  have hpending := Assoc.eq_map_of_get? h.keys hkeys h.count
  have hwaits : ∀ e ∈ entries, decide (0 < waiting done e) = !done.contains e.1 := by
    intro e he
    rw [Bool.eq_iff_iff, decide_eq_true_eq, Nat.pos_iff_ne_zero, Ne, ← isReady_iff]
    simp only [List.contains_eq_mem, Bool.not_eq_true', decide_eq_false_iff_not]
    refine not_congr ⟨fun hnone => ?_, h.closed e he⟩
    by_contra hdone
    have hmem := (h.mem_ready e.1).mpr ⟨hdone, e, he, rfl, hnone⟩
    rw [hempty] at hmem
    cases hmem
  have hsame : left entries done = entries.filter fun e => decide (0 < waiting done e) :=
    List.filter_congr fun e he => (hwaits e he).symm
  rw [stuck?, hpending, hsame, List.head?_filter, List.find?_map, Option.map_map]
  rfl

end
end Progress

/-- The schedule is what taking the first ready operation gives. -/
theorem schedule_of_waits {g : Graph} {entries : List (OpId × List OpId)}
    (hok : g.waits none g.linkedOps = .ok entries)
    (hsorted : entries.Pairwise fun a b => a.1.index < b.1.index) :
    g.schedule = match arrange [] entries with
      | (order, []) => .ok order
      | (_, (stuck, _) :: _) => .error (.cycle stuck) := by
  obtain ⟨done, htracks, hempty, harr⟩ := (Progress.tracks_start hsorted).drain hsorted
  have hall : Progress.left entries [] = entries := by simp [Progress.left]
  have hlength : ((Progress.start entries).drain entries).pending.length = entries.length := by
    rw [← List.length_map (f := Prod.fst), htracks.keys, List.length_map]
  have htotal := htracks.total
  have hstuck := htracks.stuck?_eq (Progress.nodup_keys hsorted) hempty
  rw [hall] at harr
  simp only [schedule, hok, bind, Except.bind, harr, htracks.order, hlength, hstuck]
  cases hleft : Progress.left entries done with
  | nil =>
    rw [hleft] at htotal
    simp at htotal
    simp [htotal]
  | cons e rest =>
    rw [hleft, List.length_cons] at htotal
    rw [if_neg (by omega)]
    rfl

end Graph
end DefUse
