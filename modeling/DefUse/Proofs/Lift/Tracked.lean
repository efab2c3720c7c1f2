import DefUse.Proofs.Lift.Pending
import DefUse.Proofs.Overlap

namespace DefUse
namespace Lifting

/-- The locations that are pending, touched and held, in step. -/
structure Tracked (s : Lifting) : Prop where
  nodup : s.pending.Nodup
  observable : ∀ p ∈ s.pending, p.space = .register ∨ p.space = .ram
  apart : ∀ p ∈ s.pending, ∀ q ∈ s.pending, p ≠ q → p.overlaps q = false
  known : ∀ p ∈ s.pending, p ∈ s.touched ∧ ∃ v, s.contents.get? p = some v
  /-- Where values are held under two locations that overlap, both were only read. -/
  unwritten : ∀ {a b v w}, s.contents.get? a = some v → s.contents.get? b = some w → a ≠ b →
    a.overlaps b = true → a ∉ s.touched ∧ b ∉ s.touched
  written : ∀ {a b v}, s.contents.get? a = some v → b ∈ s.touched → a.overlaps b = true →
    a ∈ s.touched
  live : ∀ {l v}, s.contents.get? l = some v → ∃ x, s.graph.value? v = some x ∧ x.size = l.size

/-- What every step of lifting keeps. A touched location that holds no value lost it to a write that
overlaps it, so it cannot be read again. -/
structure Steady (s : Lifting) : Prop where
  nodup : s.pending.Nodup
  observable : ∀ p ∈ s.pending, p.space.isObservable = true
  known : ∀ p ∈ s.pending, p ∈ s.touched ∧ ∃ v, s.contents.get? p = some v
  keyed : s.contents.keys.Nodup
  held : ∀ {l v}, s.contents.get? l = some v → ∃ origin, s.graph.kind? v = some (origin, l.size)
  separate : ∀ {a b v w}, s.contents.get? a = some v → s.contents.get? b = some w →
    a ∈ s.touched → a.overlaps b = true → a = b
  written : ∀ {a b v}, s.contents.get? a = some v → b ∈ s.touched → a.overlaps b = true →
    a ∈ s.touched
  lost : ∀ {l}, l ∈ s.touched → s.contents.get? l = none → ∃ k ∈ s.touched, k.overlaps l = true

section Steady
variable {s t : Lifting}

theorem steady_empty : ({} : Lifting).Steady where
  nodup := List.nodup_nil
  observable p hp := by cases hp
  known p hp := by cases hp
  keyed := List.nodup_nil
  held h := by cases h
  separate h := by cases h
  written h := by cases h
  lost h := by cases h

theorem Steady.tracked (h : s.Steady) : s.Tracked where
  nodup := h.nodup
  observable p hp := by
    have hobs := h.observable p hp
    cases hspace : p.space with
    | register => exact Or.inl rfl
    | ram => exact Or.inr rfl
    | const =>
      rw [hspace] at hobs
      cases hobs
    | unique =>
      rw [hspace] at hobs
      cases hobs
  apart p hp q hq hne := by
    obtain ⟨htouched, v, hv⟩ := h.known p hp
    obtain ⟨_, w, hw⟩ := h.known q hq
    rw [Bool.eq_false_iff]
    intro hover
    exact hne (h.separate hv hw htouched hover)
  known := h.known
  unwritten {a b v w} ha hb hne hover := by
    constructor
    · intro hin
      exact hne (h.separate ha hb hin hover)
    · intro hin
      rw [Location.overlaps_comm] at hover
      exact hne (h.separate hb ha hin hover).symm
  written := h.written
  live hv := by
    obtain ⟨origin, hkind⟩ := h.held hv
    obtain ⟨x, hx, he⟩ := Option.map_eq_some_iff.mp hkind
    exact ⟨x, hx, congrArg Prod.snd he⟩

/-- Locations may cease to be pending, and values and operations be added. -/
theorem Steady.of_settles {gone : List Location} (h : s.Steady) (hst : Settles gone s t)
    (hkinds : ∀ {v k}, s.graph.kind? v = some k → t.graph.kind? v = some k) : t.Steady where
  nodup := hst.pending ▸ h.nodup.filter _
  observable p hp := by
    rw [hst.pending] at hp
    exact h.observable p (List.mem_filter.mp hp).1
  known p hp := by
    rw [hst.pending] at hp
    rw [hst.touched, hst.contents]
    exact h.known p (List.mem_filter.mp hp).1
  keyed := hst.contents ▸ h.keyed
  held hv := by
    rw [hst.contents] at hv
    obtain ⟨origin, hkind⟩ := h.held hv
    exact ⟨origin, hkinds hkind⟩
  separate := by
    rw [hst.contents, hst.touched]
    exact h.separate
  written := by
    rw [hst.contents, hst.touched]
    exact h.written
  lost := by
    rw [hst.contents, hst.touched]
    exact h.lost

theorem Steady.note (h : s.Steady) {l : Location} {v : ValueId} {origin : Origin}
    (hv : s.graph.kind? v = some (origin, l.size)) (hunheld : s.contents.get? l = none)
    (hclear : ∀ p ∈ s.touched, p.overlaps l = false) : (s.note l v).Steady := by
  have hnew : l ∉ s.touched := by
    intro hl
    obtain ⟨k, hk, hover⟩ := h.lost hl hunheld
    rw [hclear k hk] at hover
    cases hover
  have hget (k : Location) :
      (s.note l v).contents.get? k = if l = k then some v else s.contents.get? k :=
    Assoc.get?_put ..
  refine ⟨h.nodup, h.observable, ?_, Assoc.nodup_keys_put h.keyed l v, ?_, ?_, ?_, ?_⟩
  · intro p hp
    obtain ⟨htouched, w, hw⟩ := h.known p hp
    refine ⟨htouched, w, ?_⟩
    have hne : l ≠ p := by
      intro he
      exact hnew (he ▸ htouched)
    rw [hget, if_neg hne]
    exact hw
  · intro k w hw
    rw [hget] at hw
    split at hw
    next he =>
      obtain rfl := Option.some.inj hw
      exact he ▸ ⟨origin, hv⟩
    next => exact h.held hw
  · intro a b x y ha hb hin hover
    have hal : l ≠ a := by
      intro he
      exact hnew (he ▸ hin)
    rw [hget, if_neg hal] at ha
    by_cases hbl : l = b
    · rw [← hbl, hclear a hin] at hover
      cases hover
    · rw [hget, if_neg hbl] at hb
      exact h.separate ha hb hin hover
  · intro a b x ha hin hover
    by_cases hal : l = a
    · rw [← hal, Location.overlaps_comm, hclear b hin] at hover
      cases hover
    · rw [hget, if_neg hal] at ha
      exact h.written ha hin hover
  · intro k hk hnone
    rw [hget] at hnone
    split at hnone
    next => cases hnone
    next => exact h.lost hk hnone

theorem Steady.forget (h : s.Steady) {space : Space} (hclear : ∀ p ∈ s.pending, p.space ≠ space) :
    (s.forget space).Steady := by
  have held {a : Location} {v : ValueId} (ha : (s.forget space).contents.get? a = some v) :
      a.space ≠ space ∧ s.contents.get? a = some v := by
    rw [get?_forget] at ha
    split at ha
    next => cases ha
    next hne => exact ⟨hne, ha⟩
  refine ⟨h.nodup, h.observable, ?_, ?_, ?_, ?_, ?_, ?_⟩
  · intro p hp
    obtain ⟨htouched, hheld⟩ := h.known p hp
    refine ⟨mem_touched_forget.mpr ⟨htouched, hclear p hp⟩, ?_⟩
    rw [get?_forget, if_neg (hclear p hp)]
    exact hheld
  · exact h.keyed.sublist (List.filter_sublist.map Prod.fst)
  · intro l v hv
    exact h.held (held hv).2
  · intro a b v w ha hb hin hover
    exact h.separate (held ha).2 (held hb).2 (mem_touched_forget.mp hin).1 hover
  · intro a b v ha hin hover
    have hwritten := h.written (held ha).2 (mem_touched_forget.mp hin).1 hover
    exact mem_touched_forget.mpr ⟨hwritten, (held ha).1⟩
  · intro l hl hnone
    obtain ⟨hin, hne⟩ := mem_touched_forget.mp hl
    rw [get?_forget, if_neg hne] at hnone
    obtain ⟨k, hk, hover⟩ := h.lost hin hnone
    -- what overlaps it is in its space, which stays
    have hspace := Location.space_eq_of_overlaps hover
    exact ⟨k, mem_touched_forget.mpr ⟨hk, hspace ▸ hne⟩, hover⟩

theorem Steady.hold (h : s.Steady) {l : Location} {v : ValueId} {origin : Origin}
    (hv : s.graph.kind? v = some (origin, l.size))
    (hclear : ∀ p ∈ s.pending, p ≠ l → p.overlaps l = false) : (s.hold l v).Steady := by
  have held {a : Location} {x : ValueId} (ha : (s.hold l v).contents.get? a = some x) (hne : a ≠ l) :
      a.overlaps l = false ∧ s.contents.get? a = some x := by
    rw [get?_hold, if_neg (Ne.symm hne)] at ha
    split at ha
    next => cases ha
    next hover => exact ⟨Bool.eq_false_iff.mpr hover, ha⟩
  refine ⟨nodup_pending_hold h.nodup l v, ?_, ?_, ?_, ?_, ?_, ?_, ?_⟩
  · intro p hp
    rcases mem_pending_hold.mp hp with hp | ⟨rfl, hobs⟩
    · exact h.observable p hp
    · exact hobs
  · intro p hp
    by_cases hpl : p = l
    · refine ⟨mem_touched_hold.mpr (Or.inr hpl), v, ?_⟩
      rw [get?_hold, if_pos hpl.symm]
    · have hin : p ∈ s.pending := by
        rcases mem_pending_hold.mp hp with hin | hlast
        · exact hin
        · exact absurd hlast.1 hpl
      obtain ⟨htouched, w, hw⟩ := h.known p hin
      refine ⟨mem_touched_hold.mpr (Or.inl htouched), w, ?_⟩
      rw [get?_hold, if_neg (Ne.symm hpl), hclear p hin hpl]
      exact hw
  · exact Assoc.nodup_keys_put (h.keyed.sublist (List.filter_sublist.map Prod.fst)) l v
  · intro k w hw
    by_cases hkl : k = l
    · rw [get?_hold, if_pos hkl.symm] at hw
      obtain rfl := Option.some.inj hw
      rw [hkl]
      exact ⟨origin, hv⟩
    · exact h.held (held hw hkl).2
  · intro a b x y ha hb hin hover
    by_cases hal : a = l
    · by_cases hbl : b = l
      · rw [hal, hbl]
      · rw [hal, Location.overlaps_comm, (held hb hbl).1] at hover
        cases hover
    · by_cases hbl : b = l
      · rw [hbl, (held ha hal).1] at hover
        cases hover
      · have hin : a ∈ s.touched := (mem_touched_hold.mp hin).resolve_right hal
        exact h.separate (held ha hal).2 (held hb hbl).2 hin hover
  · intro a b x ha hin hover
    by_cases hal : a = l
    · exact mem_touched_hold.mpr (Or.inr hal)
    · rcases mem_touched_hold.mp hin with hin | rfl
      · exact mem_touched_hold.mpr (Or.inl (h.written (held ha hal).2 hin hover))
      · rw [(held ha hal).1] at hover
        cases hover
  · intro k hk hnone
    rw [get?_hold] at hnone
    split at hnone
    next => cases hnone
    next hne =>
      have hin : k ∈ s.touched := (mem_touched_hold.mp hk).resolve_right (Ne.symm hne)
      by_cases hover : k.overlaps l = true
      · rw [Location.overlaps_comm] at hover
        exact ⟨l, mem_touched_hold.mpr (Or.inr rfl), hover⟩
      · rw [if_neg hover] at hnone
        obtain ⟨w, hw, hlost⟩ := h.lost hin hnone
        exact ⟨w, mem_touched_hold.mpr (Or.inl hw), hlost⟩

end Steady
end Lifting

namespace Lift
open Lifting

section Steps
variable {m : Machine} {r : Record} {s t : Lifting}

theorem Appends.steady {op : Operation} (h : Appends op s t) (hs : s.Steady) : t.Steady := by
  obtain ⟨id, hreach⟩ := h.reaches
  exact hs.of_settles h.alike.settles hreach.grows.kind

theorem Emits.steady {size : Nat} {op : ValueId → Operation} {out : ValueId}
    (h : Emits size op s out t) (hs : s.Steady) : t.Steady := by
  obtain ⟨id, hreach⟩ := h.reaches
  exact hs.of_settles h.alike.settles hreach.grows.kind

theorem Finds.alike {l : Location} {v : ValueId} (h : Finds l s v t) : s.Alike t := by
  cases h with
  | entry _ creates => exact creates.alike
  | load _ offset u fixes emits => exact fixes.alike.trans emits.alike

theorem Fetches.steady {l : Location} {v : ValueId} (h : Fetches l s v t) (hs : s.Steady) :
    t.Steady := by
  cases h with
  | constant _ fixes => exact hs.of_settles fixes.alike.settles fixes.reaches.grows.kind
  | known _ _ same => exact same ▸ hs
  | unknown _ unheld untouched u finds note =>
    obtain ⟨new, hreach⟩ := finds.reaches
    obtain ⟨origin, hkind⟩ := finds.kind
    have hfound := hs.of_settles finds.alike.settles hreach.grows.kind
    rw [← finds.alike.contents] at unheld
    rw [← finds.alike.touched] at untouched
    rw [note]
    exact hfound.note hkind unheld untouched

theorem Reads.steady {line : Nat} {operand : Operand} {v : ValueId}
    (h : Reads m line operand s v t) (hs : s.Steady) : t.Steady := by
  obtain ⟨l, _, hf⟩ := h
  exact hf.steady hs

theorem ReadsAll.steady {line : Nat} {operands : List Operand} {vs : List ValueId}
    (h : ReadsAll m line operands s vs t) (hs : s.Steady) : t.Steady := by
  induction h with
  | nil => exact hs
  | cons first _ ih => exact ih (first.steady hs)

theorem WriteBacks.kinds {ls : List Location} (h : WriteBacks ls s t) (v : ValueId) :
    t.graph.kind? v = s.graph.kind? v := by
  induction h with
  | nil => rfl
  | cons first _ ih => exact ih.trans (first.kinds v)

theorem WriteBacks.steady {ls : List Location} (h : WriteBacks ls s t) (hs : s.Steady) :
    t.Steady := by
  refine hs.of_settles h.settles ?_
  intro v k hk
  exact (h.kinds v).trans hk

theorem Assigns.steady {l : Location} {v : ValueId} {origin : Origin} (h : Assigns l v s t)
    (hs : s.Steady) (hv : s.graph.kind? v = some (origin, l.size)) : t.Steady := by
  obtain ⟨u, hw, rfl⟩ := h.before
  exact (hw.steady hs).hold ((hw.kinds v).trans hv) hw.overlaps_of_pending

theorem steady_after {a : Action} (hs : s.Steady)
    (hclear : ∀ {space}, a.forgets = some space → ∀ p ∈ s.pending, p.space ≠ space) :
    (a.after s).Steady := by
  unfold Action.after
  cases hspace : a.forgets with
  | none => exact hs
  | some space => exact hs.forget (hclear hspace)

theorem Acts.steady {a : Action} {values : List ValueId} (h : Acts a s t)
    (ha : Suits m r values a) (hs : s.Steady) : t.Steady := by
  cases h with
  | perform _ settled appends after =>
    rw [after]
    exact steady_after (appends.steady (settled.steady hs))
      (ha.clear settled.settles appends.alike.pending)
  | define _ settled emits assigns =>
    have hafter := steady_after (emits.steady (settled.steady hs))
      (ha.clear settled.settles emits.alike.pending)
    have hkind := emits.kind
    rw [← graph_after a] at hkind
    exact assigns.steady hafter hkind

/-- A record keeps what is known in step. -/
theorem Lifts.steady (h : Lifts m r s t) (hs : s.Steady) : t.Steady := by
  obtain ⟨reads, asks, acts⟩ := h
  exact acts.steady asks.suits (reads.steady hs)

/-- So it is in step after every row of records. -/
theorem LiftsAll.steady {rs : List Record} (h : LiftsAll m rs s t) (hs : s.Steady) : t.Steady := by
  induction h with
  | nil => exact hs
  | cons _ first _ ih => exact ih (first.steady hs)

end Steps
end Lift
end DefUse
