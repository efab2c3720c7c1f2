import Mathlib.Data.List.Perm.Basic
import DefUse.Proofs.Lift.Steps

namespace DefUse

/-- What a record means for pending writes. -/
inductive Mark where
  | write (l : Location)
  /-- A load or store names the space. -/
  | access (space : Space)
  /-- A branch or an impure call. -/
  | barrier
deriving DecidableEq

/-- Whether a pending write of `l` ends there. -/
def Mark.ends (l : Location) : Mark → Bool
  | write k => k = l || k.overlaps l
  | access space => space = l.space
  | barrier => true

/-- A mark, with the operation that its record became. -/
structure Moment where
  mark : Mark
  id : OpId
  op : Operation
deriving DecidableEq

/-- Whether the first moment that ends a pending write of `l` writes `l` again. -/
def superseded (l : Location) (moments : List Moment) : Bool :=
  match moments.find? (·.mark.ends l) with
  | some x => x.mark = .write l
  | none => false

namespace Moment

/-- The write that a moment leaves pending. -/
def leaves (x : Moment) : List (Location × ValueId) :=
  match x.mark, x.op.output with
  | .write l, some v => if l.space.isObservable then [(l, v)] else []
  | _, _ => []

/-- The pending writes that a moment makes write-backs. -/
def returns (x : Moment) (pending : List (Location × ValueId)) : List (Location × ValueId) :=
  pending.filter fun w => x.mark.ends w.1 && x.mark ≠ .write w.1

/-- What is pending after a moment. -/
def keeps (x : Moment) (pending : List (Location × ValueId)) : List (Location × ValueId) :=
  pending.filter (fun w => !x.mark.ends w.1) ++ x.leaves

end Moment

/-- The pending writes that the moments to come do not supersede. -/
def unsuperseded (pending : List (Location × ValueId)) (moments : List Moment) :
    List (Location × ValueId) :=
  pending.filter fun w => !superseded w.1 moments

/-- The writes that moments leave pending and later ones do not supersede. -/
def returning : List Moment → List (Location × ValueId)
  | [] => []
  | x :: rest => unsuperseded x.leaves rest ++ returning rest

theorem superseded_cons (l : Location) (x : Moment) (rest : List Moment) :
    superseded l (x :: rest) =
      if x.mark.ends l then decide (x.mark = .write l) else superseded l rest := by
  simp only [superseded, List.find?_cons]
  cases x.mark.ends l <;> rfl

/-- A pending write returns at the first moment, or lives through it and returns later. -/
theorem perm_returns (x : Moment) (rest : List Moment) (pending : List (Location × ValueId)) :
    (unsuperseded pending (x :: rest) ++ returning (x :: rest)).Perm
      (x.returns pending ++ (unsuperseded (x.keeps pending) rest ++ returning rest)) := by
  have hsplit : (unsuperseded pending (x :: rest)).Perm
      (x.returns pending ++ unsuperseded (pending.filter fun w => !x.mark.ends w.1) rest) := by
    unfold unsuperseded Moment.returns
    induction pending with
    | nil => exact List.Perm.refl _
    | cons w ws ih =>
      simp only [List.filter_cons, superseded_cons] at ih ⊢
      cases x.mark.ends w.1 with
      | true =>
        by_cases hw : x.mark = .write w.1
        · simpa [hw] using ih
        · simpa [hw] using ih.cons w
      | false =>
        by_cases hlater : superseded w.1 rest = true
        · simpa [hlater] using ih
        · simpa [hlater] using (ih.cons w).trans List.perm_middle.symm
  have hkeeps : unsuperseded (x.keeps pending) rest =
      unsuperseded (pending.filter fun w => !x.mark.ends w.1) rest ++ unsuperseded x.leaves rest :=
    List.filter_append ..
  rw [returning, hkeeps, ← List.append_assoc, ← List.append_assoc, ← List.append_assoc]
  exact (hsplit.append_right _).append_right _

/-- The value that a moment writes. -/
def Moment.written? (x : Moment) : Option ValueId :=
  match x.mark with
  | .write _ => x.op.output
  | _ => none

theorem Moment.mem_leaves {x : Moment} {l : Location} {v : ValueId} :
    (l, v) ∈ x.leaves ↔
      x.mark = .write l ∧ x.op.output = some v ∧ l.space.isObservable = true := by
  unfold leaves
  cases x.mark with
  | write k =>
    cases x.op.output with
    | none => simp
    | some w => by_cases hobs : k.space.isObservable = true <;> grind
  | access space => simp
  | barrier => simp

theorem Moment.sublist_written? (x : Moment) :
    (x.leaves.map Prod.snd).Sublist x.written?.toList := by
  unfold leaves written?
  cases x.mark with
  | write k =>
    cases x.op.output with
    | none => exact List.nil_sublist _
    | some w => cases hobs : k.space.isObservable <;> simp [hobs]
  | access space => exact List.nil_sublist _
  | barrier => exact List.nil_sublist _

/-- Only values that are written return. -/
theorem sublist_returning (moments : List Moment) :
    ((returning moments).map Prod.snd).Sublist (moments.filterMap Moment.written?) := by
  induction moments with
  | nil => exact List.Sublist.refl _
  | cons x rest ih =>
    have hfirst : ((unsuperseded x.leaves rest).map Prod.snd).Sublist x.written?.toList :=
      (List.filter_sublist.map _).trans x.sublist_written?
    rw [returning, List.map_append]
    cases hw : x.written? with
    | none =>
      rw [hw] at hfirst
      rw [List.filterMap_cons_none hw, List.sublist_nil.mp hfirst]
      exact ih
    | some v =>
      rw [hw] at hfirst
      rw [List.filterMap_cons_some hw]
      exact hfirst.append ih

theorem exists_leaves_of_mem_returning {moments : List Moment} {w : Location × ValueId}
    (h : w ∈ returning moments) : ∃ x ∈ moments, w ∈ x.leaves := by
  induction moments with
  | nil => cases h
  | cons x rest ih =>
    rcases List.mem_append.mp h with h | h
    · exact ⟨x, List.mem_cons_self, (List.mem_filter.mp h).1⟩
    · obtain ⟨y, hy, hleaves⟩ := ih h
      exact ⟨y, List.mem_cons_of_mem x hy, hleaves⟩

/-- If every write has a value of its own, it returns just when nothing supersedes it. -/
theorem mem_returning {before after : List Moment} {x : Moment} {l : Location} {v : ValueId}
    (hdistinct : ((before ++ x :: after).filterMap Moment.written?).Nodup)
    (hmark : x.mark = .write l) (hout : x.op.output = some v) :
    (l, v) ∈ returning (before ++ x :: after) ↔
      l.space.isObservable = true ∧ superseded l after = false := by
  have hx : x.written? = some v := by simp only [Moment.written?, hmark, hout]
  have hreturns {k : Location} {w : ValueId} {moments : List Moment}
      (h : (k, w) ∈ returning moments) : w ∈ moments.filterMap Moment.written? :=
    (sublist_returning moments).subset (List.mem_map_of_mem h)
  induction before with
  | nil =>
    rw [List.nil_append, List.filterMap_cons_some hx, List.nodup_cons] at hdistinct
    rw [List.nil_append, returning, List.mem_append, unsuperseded, List.mem_filter,
      Moment.mem_leaves]
    have hlater : (l, v) ∉ returning after := fun h => hdistinct.1 (hreturns h)
    simp [hmark, hout, hlater]
  | cons y before ih =>
    rw [List.cons_append] at hdistinct ⊢
    have hrest : ((before ++ x :: after).filterMap Moment.written?).Nodup :=
      hdistinct.sublist ((List.sublist_cons_self _ _).filterMap _)
    -- a moment before it that writes the same value would be one too many
    have hfirst : (l, v) ∉ unsuperseded y.leaves (before ++ x :: after) := by
      intro h
      have hy := y.sublist_written?.subset (List.mem_map_of_mem (List.mem_filter.mp h).1)
      have hy : y.written? = some v := by simpa using hy
      rw [List.filterMap_cons_some hy, List.nodup_cons] at hdistinct
      exact hdistinct.1 (List.mem_filterMap.mpr ⟨x, by simp, hx⟩)
    rw [returning, List.mem_append, or_iff_right hfirst]
    exact ih hrest

theorem nodup_returning {moments : List Moment}
    (hdistinct : (moments.filterMap Moment.written?).Nodup) : (returning moments).Nodup :=
  (hdistinct.sublist (sublist_returning moments)).of_map _

theorem count_returning {before after : List Moment} {x : Moment} {l : Location} {v : ValueId}
    (hdistinct : ((before ++ x :: after).filterMap Moment.written?).Nodup)
    (hmark : x.mark = .write l) (hout : x.op.output = some v) (hobs : l.space.isObservable = true) :
    (returning (before ++ x :: after)).count (l, v) = if superseded l after then 0 else 1 := by
  have hiff := mem_returning hdistinct hmark hout
  cases hsuper : superseded l after with
  | true =>
    refine List.count_eq_zero.mpr ?_
    simp [hiff, hsuper]
  | false =>
    refine List.count_eq_one_of_mem (nodup_returning hdistinct) ?_
    simp [hiff, hobs, hsuper]

namespace Lifting

/-- The locations that hold a value, with it. -/
def held (s : Lifting) (ls : List Location) : List (Location × ValueId) :=
  ls.filterMap fun l => (s.contents.get? l).map fun v => (l, v)

/-- The pending writes. -/
def account (s : Lifting) : List (Location × ValueId) :=
  s.held s.pending

theorem mem_held {s : Lifting} {ls : List Location} {l : Location} {v : ValueId} :
    (l, v) ∈ s.held ls ↔ l ∈ ls ∧ s.contents.get? l = some v := by
  simp only [held, List.mem_filterMap, Option.map_eq_some_iff, Prod.mk.injEq]
  constructor
  · rintro ⟨k, hk, w, hw, rfl, rfl⟩
    exact ⟨hk, hw⟩
  · rintro ⟨hl, hv⟩
    exact ⟨l, hl, v, hv, rfl, rfl⟩

theorem held_filter (s : Lifting) (ls : List Location) (f : Location → Bool) :
    s.held (ls.filter f) = (s.held ls).filter fun w => f w.1 := by
  induction ls with
  | nil => rfl
  | cons l rest ih =>
    unfold held at ih ⊢
    cases hv : s.contents.get? l <;> cases hf : f l <;> simp [hv, hf, ih]

theorem held_congr {s t : Lifting} {ls : List Location}
    (h : ∀ l ∈ ls, t.contents.get? l = s.contents.get? l) : t.held ls = s.held ls := by
  apply List.filterMap_congr
  intro l hl
  rw [h l hl]

theorem nodup_ite_contains {α : Type} [BEq α] [LawfulBEq α] {xs : List α} (h : xs.Nodup) (a : α) :
    (if xs.contains a then xs else xs ++ [a]).Nodup := by
  by_cases hin : xs.contains a = true
  · rw [if_pos hin]
    exact h
  · rw [if_neg hin, ← List.concat_eq_append]
    exact h.concat (by simpa using hin)

theorem nodup_pending_hold {s : Lifting} (h : s.pending.Nodup) (l : Location) (v : ValueId) :
    (s.hold l v).pending.Nodup := by
  simp only [hold]
  cases l.space.isObservable with
  | false => exact h
  | true => exact nodup_ite_contains h l

/-- A sound state in which each observable location is pending once at most, and no other. -/
structure Proper (s : Lifting) : Prop where
  sound : s.Sound
  nodup : s.pending.Nodup
  observable : ∀ p ∈ s.pending, p.space.isObservable = true

theorem proper_empty : ({} : Lifting).Proper where
  sound := sound_empty
  nodup := List.nodup_nil
  observable := nofun

/-- The location of the write goes to the end of what is pending, if it is observable. -/
theorem perm_pending_hold {s : Lifting} (hs : s.Proper) (l : Location) (v : ValueId) :
    (s.hold l v).pending.Perm
      (s.pending.filter (· != l) ++ if l.space.isObservable then [l] else []) := by
  have hgone : l ∉ s.pending → s.pending.filter (· != l) = s.pending := by
    intro hl
    rw [List.filter_eq_self]
    intro p hp
    rw [bne_iff_ne]
    intro he
    exact hl (he ▸ hp)
  simp only [hold]
  cases hobs : l.space.isObservable with
  | false =>
    have hl : l ∉ s.pending := by
      intro hin
      rw [hs.observable l hin] at hobs
      cases hobs
    simp [hgone hl]
  | true =>
    by_cases hl : l ∈ s.pending
    · have herase := List.perm_cons_erase hl
      rw [hs.nodup.erase_eq_filter] at herase
      simpa [hl] using herase.trans (List.perm_append_singleton l _).symm
    · simp [hl, hgone hl]

theorem Proper.hold {s : Lifting} (hs : s.Proper) {l : Location} {v : ValueId}
    (hsound : (s.hold l v).Sound) : (s.hold l v).Proper where
  sound := hsound
  nodup := nodup_pending_hold hs.nodup l v
  observable p hp := by
    rcases mem_pending_hold.mp hp with hp | ⟨rfl, hobs⟩
    · exact hs.observable p hp
    · exact hobs

/-- The pending writes once a location holds a value that no other pending location overlaps. -/
theorem perm_account_hold {s : Lifting} (hs : s.Proper) {l : Location} {v : ValueId}
    (hclear : ∀ p ∈ s.pending, p ≠ l → p.overlaps l = false) :
    (s.hold l v).account.Perm
      (s.account.filter (fun w => w.1 != l) ++ if l.space.isObservable then [(l, v)] else []) := by
  have hsame : (s.hold l v).held (s.pending.filter (· != l)) = s.held (s.pending.filter (· != l)) := by
    refine held_congr fun p hp => ?_
    obtain ⟨hin, hne⟩ := List.mem_filter.mp hp
    have hne : p ≠ l := bne_iff_ne.mp hne
    rw [get?_hold, if_neg (Ne.symm hne), if_neg (by simp [hclear p hin hne])]
  have hperm := (perm_pending_hold hs l v).filterMap fun k =>
    ((s.hold l v).contents.get? k).map fun w => (k, w)
  refine hperm.trans (List.Perm.of_eq ?_)
  rw [List.filterMap_append]
  congr 1
  · exact hsame.trans (held_filter s s.pending (· != l))
  · cases l.space.isObservable with
    | false => rfl
    | true => simp [get?_hold]

end Lifting

namespace Lift
open Lifting

/-- Operations are added and values found, and the pending writes stay as they are. -/
structure Quiet (s t : Lifting) (new : List (OpId × Operation)) : Prop where
  reaches : s.Reaches t new
  silent : writebacks new = []
  pending : t.pending = s.pending
  held : ∀ p ∈ s.pending, t.contents.get? p = s.contents.get? p

section Quiet
variable {s t u : Lifting} {new more : List (OpId × Operation)}

theorem Quiet.refl (hs : s.Sound) : Quiet s s [] :=
  ⟨⟨hs, .refl _⟩, rfl, rfl, fun _ _ => rfl⟩

theorem Quiet.trans (hst : Quiet s t new) (htu : Quiet t u more) : Quiet s u (new ++ more) where
  reaches := hst.reaches.trans htu.reaches
  silent := by rw [writebacks_append, hst.silent, htu.silent]; rfl
  pending := htu.pending.trans hst.pending
  held p hp := (htu.held p (hst.pending ▸ hp)).trans (hst.held p hp)

theorem Quiet.account_eq (h : Quiet s t new) : t.account = s.account := by
  rw [account, h.pending]
  exact held_congr h.held

theorem Quiet.proper (h : Quiet s t new) (hs : s.Proper) : t.Proper :=
  ⟨h.reaches.sound, h.pending ▸ hs.nodup, h.pending ▸ hs.observable⟩

theorem Quiet.of_alike (ha : s.Alike t) (hr : s.Reaches t new) (hsilent : writebacks new = []) :
    Quiet s t new where
  reaches := hr
  silent := hsilent
  pending := ha.pending
  held _ _ := by rw [ha.contents]

theorem Appends.quiet {op : Operation} (h : Appends op s t) (hop : op.writeback? = none) :
    ∃ id, Quiet s t [(id, op)] := by
  obtain ⟨id, hreach⟩ := h.reaches
  exact ⟨id, .of_alike h.alike hreach (writebacks_concat_of_none [] id hop)⟩

theorem Emits.quiet {size : Nat} {op : ValueId → Operation} {out : ValueId}
    (h : Emits size op s out t) (hop : (op out).writeback? = none) :
    ∃ id, Quiet s t [(id, op out)] := by
  obtain ⟨id, hreach⟩ := h.reaches
  exact ⟨id, .of_alike h.alike hreach (writebacks_concat_of_none [] id hop)⟩

theorem Finds.quiet {l : Location} {v : ValueId} (h : Finds l s v t) : ∃ new, Quiet s t new := by
  cases h with
  | entry _ creates => exact ⟨[], .of_alike creates.alike creates.reaches rfl⟩
  | load _ offset u fixes emits =>
    have hfixes : Quiet s u [] := .of_alike fixes.alike fixes.reaches rfl
    obtain ⟨id, hload⟩ := emits.quiet rfl
    exact ⟨_, hfixes.trans hload⟩

theorem Fetches.quiet {l : Location} {v : ValueId} (h : Fetches l s v t) (hs : s.Sound) :
    ∃ new, Quiet s t new := by
  cases h with
  | constant _ fixes => exact ⟨[], .of_alike fixes.alike fixes.reaches rfl⟩
  | known _ _ same =>
    rw [same]
    exact ⟨[], .refl hs⟩
  | unknown _ unheld _ u finds note =>
    obtain ⟨new, hfound⟩ := finds.quiet
    obtain ⟨origin, hkind⟩ := finds.kind
    rw [note]
    refine ⟨new, ⟨hfound.reaches.sound.note hkind, hfound.reaches.grows⟩, hfound.silent,
      hfound.pending, ?_⟩
    -- a pending location holds a value, so it is not the one that was found
    intro p hp
    have hne : l ≠ p := by
      rintro rfl
      obtain ⟨w, hw⟩ := hs.pending hp
      rw [unheld] at hw
      cases hw
    simp only [Lifting.note, Assoc.get?_put, if_neg hne]
    exact hfound.held p hp

theorem Reads.quiet {m : Machine} {line : Nat} {operand : Operand} {v : ValueId}
    (h : Reads m line operand s v t) (hs : s.Sound) : ∃ new, Quiet s t new := by
  obtain ⟨l, _, hf⟩ := h
  exact hf.quiet hs

theorem ReadsAll.quiet {m : Machine} {line : Nat} {operands : List Operand} {vs : List ValueId}
    (h : ReadsAll m line operands s vs t) (hs : s.Sound) : ∃ new, Quiet s t new := by
  induction h with
  | nil => exact ⟨[], .refl hs⟩
  | cons first _ ih =>
    obtain ⟨new, hfirst⟩ := first.quiet hs
    obtain ⟨more, hrest⟩ := ih hfirst.reaches.sound
    exact ⟨_, hfirst.trans hrest⟩

theorem quiet_forget (hs : s.Sound) {space : Space} (hclear : ∀ p ∈ s.pending, p.space ≠ space) :
    Quiet s (s.forget space) [] where
  reaches := ⟨hs.forget hclear, .refl _⟩
  silent := rfl
  pending := rfl
  held p hp := by rw [get?_forget, if_neg (hclear p hp)]

end Quiet

/-- New operations come after those from before. -/
theorem index_lt_of_reaches {s t : Lifting} {new : List (OpId × Operation)} (h : s.Reaches t new)
    {a b : OpId × Operation} (ha : a ∈ s.graph.linkedOps) (hb : b ∈ new) :
    a.1.index < b.1.index := by
  have hsorted := t.graph.pairwise_linkedOps
  rw [h.grows.code] at hsorted
  exact (List.pairwise_append.mp hsorted).2.2 a ha b hb

/-- What happens to the pending writes at a moment. -/
structure MomentStep (x : Moment) (s t : Lifting) (new : List (OpId × Operation)) : Prop where
  reaches : s.Reaches t new
  returns : ((writebacks new).map Prod.snd).Perm (x.returns s.account)
  keeps : t.account.Perm (x.keeps s.account)
  /-- A write comes right after its operation. -/
  latest : ∀ {l}, x.mark = .write l → ∀ y ∈ s.graph.linkedOps, y.1.index ≤ x.id.index
  /-- The write-backs for a barrier come before its operation. -/
  before : (∀ l, x.mark ≠ .write l) → ∀ y ∈ new, y.1.index < x.id.index

section MomentSteps
variable {s t : Lifting} {x : Moment}

/-- The operation that writes back what a location holds. -/
def Returns (s : Lifting) (l : Location) (x : OpId × Operation) : Prop :=
  ∃ v, s.contents.get? l = some v ∧ x.2 = .writeback l v

/-- Each location is written back once, in order. -/
theorem WriteBacks.returns {ls : List Location} (h : WriteBacks ls s t) (hs : s.Sound) :
    ∃ new, s.Reaches t new ∧ List.Forall₂ (Returns s) ls new := by
  induction h with
  | nil => exact ⟨[], ⟨hs, .refl _⟩, .nil⟩
  | @cons l rest s t u first _ ih =>
    obtain ⟨v, id, hv, hreach⟩ := first.held
    obtain ⟨new, hrest, hreturns⟩ := ih hreach.sound
    refine ⟨_, hreach.trans hrest, .cons ⟨v, hv, rfl⟩ ?_⟩
    have hsame : Returns t = Returns s := by
      unfold Returns
      rw [first.settles.contents]
    rw [← hsame]
    exact hreturns

theorem writebacks_of_returns {ls : List Location} {new : List (OpId × Operation)}
    (h : List.Forall₂ (Returns s) ls new) : (writebacks new).map Prod.snd = s.held ls := by
  induction h with
  | nil => rfl
  | @cons l x rest more first _ ih =>
    obtain ⟨v, hv, hop⟩ := first
    have hfirst : (writebacks [x]).map Prod.snd = s.held [l] := by
      simp [writebacks, held, hv, hop, Operation.writeback?]
    rw [← List.singleton_append, writebacks_append, List.map_append, ih, hfirst]
    exact List.filterMap_append.symm

theorem mnemonic_of_returns {ls : List Location} {new : List (OpId × Operation)}
    (h : List.Forall₂ (Returns s) ls new) : ∀ y ∈ new, y.2.mnemonic = "WRITEBACK" := by
  induction h with
  | nil => simp
  | cons first _ ih =>
    obtain ⟨v, _, hop⟩ := first
    exact List.forall_mem_cons.mpr ⟨by rw [hop]; rfl, ih⟩

theorem WriteBacks.written {ls : List Location} (h : WriteBacks ls s t) (hs : s.Sound) :
    ∃ new, s.Reaches t new ∧ (writebacks new).map Prod.snd = s.held ls ∧
      ∀ y ∈ new, y.2.mnemonic = "WRITEBACK" := by
  obtain ⟨new, hreach, hreturns⟩ := h.returns hs
  exact ⟨new, hreach, writebacks_of_returns hreturns, mnemonic_of_returns hreturns⟩

theorem account_of_settles {gone : List Location} (h : Settles gone s t) :
    t.account = s.account.filter fun w => w.1 ∉ gone := by
  have hsame : t.held t.pending = s.held t.pending := held_congr fun _ _ => by rw [h.contents]
  rw [account, hsame, h.pending, held_filter]
  rfl

theorem proper_of_settles {gone : List Location} (hs : s.Proper) (h : Settles gone s t)
    (ht : t.Sound) : t.Proper where
  sound := ht
  nodup := h.pending ▸ hs.nodup.filter _
  observable p hp := by
    rw [h.pending] at hp
    exact hs.observable p (List.mem_filter.mp hp).1

/-- The write-backs for a barrier or an access to memory. -/
theorem WriteBacks.momentStep {f : Location → Bool} (h : WriteBacks (s.pending.filter f) s t)
    (hs : s.Proper) (hends : ∀ p, x.mark.ends p = f p) (hmark : ∀ l, x.mark ≠ .write l)
    (hbefore : ∀ y ∈ t.graph.linkedOps, y.1.index < x.id.index) :
    ∃ new, MomentStep x s t new ∧ t.Proper := by
  obtain ⟨new, hreach, hwritten, _⟩ := h.written hs.sound
  have hleaves : x.leaves = [] := by
    unfold Moment.leaves
    split
    next l v hl _ => exact absurd hl (hmark l)
    next => rfl
  refine ⟨new, ⟨hreach, List.Perm.of_eq ?_, List.Perm.of_eq ?_, ?_, ?_⟩,
    proper_of_settles hs h.settles hreach.sound⟩
  · rw [hwritten, held_filter]
    apply List.filter_congr
    intro w _
    simp [hends, hmark]
  · rw [account_of_settles h.settles, Moment.keeps, hleaves, List.append_nil]
    apply List.filter_congr
    rintro ⟨l, v⟩ hw
    have hl : l ∈ s.pending := (mem_held.mp hw).1
    simp [hends, hl]
  · exact fun hl => absurd hl (hmark _)
  · intro _ y hy
    apply hbefore
    rw [hreach.grows.code]
    exact List.mem_append_right _ hy

/-- A write, and the write-backs of the pending writes that it overlaps. -/
theorem Assigns.momentStep {l : Location} {v : ValueId} (h : Assigns l v s t) (hs : s.Proper)
    (hmark : x.mark = .write l) (hout : x.op.output = some v)
    (hlatest : ∀ y ∈ s.graph.linkedOps, y.1.index ≤ x.id.index) :
    ∃ new, MomentStep x s t new ∧ t.Proper ∧ ∀ y ∈ new, y.2.mnemonic = "WRITEBACK" := by
  obtain ⟨u, hw, rfl⟩ := h.before
  obtain ⟨new, hreach, hwritten, hnames⟩ := hw.written hs.sound
  have hu := proper_of_settles hs hw.settles hreach.sound
  have hends (p : Location) : x.mark.ends p = (p = l || p.overlaps l) := by
    rw [hmark, Mark.ends, Location.overlaps_comm]
    simp [eq_comm]
  have hleaves : x.leaves = if l.space.isObservable then [(l, v)] else [] := by
    simp only [Moment.leaves, hmark, hout]
  refine ⟨new, ⟨⟨h.sound, hreach.grows⟩, List.Perm.of_eq ?_, ?_, ?_, ?_⟩, hu.hold h.sound, hnames⟩
  · rw [hwritten, held_filter]
    apply List.filter_congr
    rintro ⟨p, w⟩ _
    rw [hends, hmark]
    by_cases hp : p = l
    · simp [hp]
    · simp [hp, Ne.symm hp]
  · rw [Moment.keeps, hleaves]
    refine (perm_account_hold hu hw.overlaps_of_pending).trans (List.Perm.of_eq ?_)
    rw [account_of_settles hw.settles, List.filter_filter]
    congr 1
    apply List.filter_congr
    rintro ⟨p, w⟩ hmem
    have hp : p ∈ s.pending := (mem_held.mp hmem).1
    by_cases he : p = l <;> simp [hends, hp, he]
  · exact fun _ => hlatest
  · exact fun hne => absurd hmark (hne l)

end MomentSteps

/-- Moments one after the other. -/
inductive MomentRun : List Moment → Lifting → Lifting → List (OpId × Operation) → Prop where
  | nil {s t : Lifting} {new : List (OpId × Operation)} (quiet : Quiet s t new) : MomentRun [] s t new
  | cons {x : Moment} {rest : List Moment} {s s₁ t u : Lifting}
      {quietly now later : List (OpId × Operation)} (quiet : Quiet s s₁ quietly)
      (step : MomentStep x s₁ t now) (others : MomentRun rest t u later) :
      MomentRun (x :: rest) s u (quietly ++ (now ++ later))

section MomentRuns
variable {s t u : Lifting} {moments more : List Moment} {new later : List (OpId × Operation)}

theorem MomentRun.reaches (h : MomentRun moments s t new) : s.Reaches t new := by
  induction h with
  | nil quiet => exact quiet.reaches
  | cons quiet step _ ih => exact quiet.reaches.trans (step.reaches.trans ih)

theorem Quiet.momentRun {quietly : List (OpId × Operation)} (hq : Quiet s t quietly)
    (h : MomentRun moments t u new) : MomentRun moments s u (quietly ++ new) := by
  cases h with
  | nil quiet => exact .nil (hq.trans quiet)
  | cons quiet step others =>
    rw [← List.append_assoc]
    exact .cons (hq.trans quiet) step others

theorem MomentRun.append (h : MomentRun moments s t new) (h' : MomentRun more t u later) :
    MomentRun (moments ++ more) s u (new ++ later) := by
  induction h with
  | nil quiet => exact quiet.momentRun h'
  | cons quiet step _ ih =>
    rw [List.append_assoc, List.append_assoc]
    exact .cons quiet step (ih h')

/-- Every pending write returns once, is still pending, or is superseded. -/
theorem MomentRun.perm (h : MomentRun moments s t new) :
    ((writebacks new).map Prod.snd ++ t.account).Perm
      (unsuperseded s.account moments ++ returning moments) := by
  induction h with
  | nil quiet =>
    rw [quiet.silent, quiet.account_eq, returning, List.append_nil]
    refine List.Perm.of_eq (List.filter_eq_self.mpr ?_).symm
    intro w _
    rfl
  | @cons x rest s s₁ t u quietly now later quiet step _ ih =>
    rw [writebacks_append, writebacks_append, quiet.silent, List.nil_append, List.map_append,
      List.append_assoc, ← quiet.account_eq]
    have hkeeps : (unsuperseded t.account rest).Perm (unsuperseded (x.keeps s₁.account) rest) :=
      step.keeps.filter _
    exact (step.returns.append (ih.trans (hkeeps.append_right _))).trans
      (perm_returns x rest s₁.account).symm

/-- A run up to one of its moments and on from there. A write that nothing ended before the moment is
still pending then. -/
theorem MomentRun.split {before after : List Moment} {x : Moment}
    (h : MomentRun (before ++ x :: after) s u new) :
    ∃ s₁ t early now later, new = early ++ (now ++ later) ∧ s.Reaches s₁ early ∧ MomentStep x s₁ t now ∧
      MomentRun after t u later ∧ ∀ l v, (l, v) ∈ s.account →
        (∀ y ∈ before, y.mark.ends l = false) → (l, v) ∈ s₁.account := by
  induction before generalizing s new with
  | nil =>
    cases h with
    | cons quiet step others =>
      exact ⟨_, _, _, _, _, rfl, quiet.reaches, step, others,
        fun l v hacc _ => quiet.account_eq ▸ hacc⟩
  | cons y before ih =>
    cases h with
    | @cons _ _ _ s₀ t₀ _ quietly now₀ later₀ quiet step others =>
      obtain ⟨s₁, t, early, now, later, rfl, hreach, hstep, hrest, hlives⟩ := ih others
      refine ⟨s₁, t, quietly ++ (now₀ ++ early), now, later, by simp [List.append_assoc],
        quiet.reaches.trans (step.reaches.trans hreach), hstep, hrest, ?_⟩
      intro l v hacc hends
      obtain ⟨hfirst, hothers⟩ := List.forall_mem_cons.mp hends
      refine hlives l v (step.keeps.mem_iff.mpr ?_) hothers
      rw [quiet.account_eq]
      exact List.mem_append_left _ (List.mem_filter.mpr ⟨hacc, by simp [hfirst]⟩)

/-- The pending write of a moment becomes a write-back where the first later moment ends it: before the
operation of a barrier, or before any write-back of a write that overlaps it. -/
theorem MomentRun.exists_writeback {before after : List Moment} {x y : Moment}
    {final : List (OpId × Operation)} (h : MomentRun (before ++ x :: after) s t new)
    (hfinal : t.Reaches u final) {l : Location} {v : ValueId} (hx : (l, v) ∈ x.leaves)
    (hy : after.find? (·.mark.ends l) = some y) (hne : y.mark ≠ .write l) :
    ∃ id, (id, l, v) ∈ writebacks new ∧
      ((∀ k, y.mark ≠ .write k) → id.index < y.id.index) ∧
      ∀ k w later, y.mark = .write k → (later, k, w) ∈ writebacks u.graph.linkedOps →
        y.id.index < later.index → id.index < later.index := by
  obtain ⟨hends, between, rest, rfl, hbetween⟩ := List.find?_eq_some_iff_append.mp hy
  obtain ⟨_, t₁, early, now, _, rfl, _, hstep, hafter, _⟩ := h.split
  obtain ⟨s₂, t₂, early', now', later', rfl, _, hstep', hrest, hlives⟩ := hafter.split
  have hpending : (l, v) ∈ s₂.account := by
    refine hlives l v (hstep.keeps.mem_iff.mpr (List.mem_append_right _ hx)) ?_
    intro z hz
    simpa using hbetween z hz
  have hreturns : (l, v) ∈ y.returns s₂.account :=
    List.mem_filter.mpr ⟨hpending, by simp [hends, hne]⟩
  obtain ⟨⟨id, w⟩, hid, he⟩ := List.mem_map.mp (hstep'.returns.mem_iff.mpr hreturns)
  obtain rfl : w = (l, v) := he
  have hop := mem_writebacks.mp hid
  refine ⟨id, ?_, fun hmark => hstep'.before hmark _ hop, ?_⟩
  · simp only [writebacks_append, List.mem_append]
    exact Or.inr (Or.inr (Or.inr (Or.inl hid)))
  · intro k w later hmark hlater hafter
    have hend := hrest.reaches.trans hfinal
    have hlater := mem_writebacks.mp hlater
    rw [hend.grows.code, hstep'.reaches.grows.code, List.mem_append, List.mem_append] at hlater
    rcases hlater with (hold | hnow) | hnew
    · exact absurd hafter (Nat.not_lt_of_le (hstep'.latest hmark _ hold))
    · -- the write itself is not among the writes that it ends
      have hreturn := hstep'.returns.mem_iff.mp (List.mem_map_of_mem (mem_writebacks.mpr hnow))
      have hother := (List.mem_filter.mp hreturn).2
      simp [hmark] at hother
    · have hin : (id, Operation.writeback l v) ∈ t₂.graph.linkedOps := by
        rw [hstep'.reaches.grows.code]
        exact List.mem_append_right _ hop
      exact index_lt_of_reaches hend hin hnew

end MomentRuns
end Lift
end DefUse
