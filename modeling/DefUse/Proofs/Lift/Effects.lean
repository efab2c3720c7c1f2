import DefUse.Lift.Basic
import DefUse.Proofs.Graph.Orderly

namespace DefUse

namespace Assoc
variable {κ α : Type} [DecidableEq κ]

theorem get?_filter (m : Assoc κ α) (f : κ → Bool) (k : κ) :
    get? (m.filter fun e => f e.1) k = if f k then m.get? k else none := by
  induction m with
  | nil => simp [get?]
  | cons e rest ih =>
    obtain ⟨j, a⟩ := e
    by_cases hf : f j = true
    · rw [List.filter_cons_of_pos (by simpa using hf)]
      by_cases hj : j = k
      · subst hj
        simp [get?, hf]
      · simp only [get?, hj, if_false, ih]
    · rw [List.filter_cons_of_neg (by simpa using hf), ih]
      by_cases hj : j = k
      · subst hj
        simp [hf]
      · simp only [get?, hj, if_false]

end Assoc

/-- A step that fails only recoverably and otherwise leaves what `Q` says. -/
def Ensures {σ α : Type} (c : EStateM UnitError σ α) (s : σ) (Q : α → σ → Prop) : Prop :=
  match c s with
  | .ok a t => Q a t
  | .error e _ => e.isRecoverable = true

section Rules
variable {σ α β : Type} {s : σ}

theorem ensures_pure {a : α} {Q : α → σ → Prop} (h : Q a s) : Ensures (pure a) s Q := h

theorem ensures_ofEq {c : EStateM UnitError σ α} {a : α} {t : σ} {Q : α → σ → Prop}
    (hc : c s = .ok a t) (h : Q a t) : Ensures c s Q := by
  unfold Ensures
  rw [hc]
  exact h

theorem Ensures.of_ok {c : EStateM UnitError σ α} {Q : α → σ → Prop} {a : α} {t : σ}
    (h : Ensures c s Q) (hc : c s = .ok a t) : Q a t := by
  unfold Ensures at h
  rw [hc] at h
  exact h

theorem Ensures.of_error {c : EStateM UnitError σ α} {Q : α → σ → Prop} {e : UnitError} {t : σ}
    (h : Ensures c s Q) (hc : c s = .error e t) : e.isRecoverable = true := by
  unfold Ensures at h
  rw [hc] at h
  exact h

theorem Ensures.mono {c : EStateM UnitError σ α} {P Q : α → σ → Prop} (h : Ensures c s P)
    (hpq : ∀ a t, P a t → Q a t) : Ensures c s Q := by
  unfold Ensures at h ⊢
  cases hc : c s with
  | ok a t =>
    rw [hc] at h
    exact hpq a t h
  | error e t =>
    rw [hc] at h
    exact h

/-- What a step leaves is what running it leaves. -/
theorem Ensures.and_eq {c : EStateM UnitError σ α} {Q : α → σ → Prop} (h : Ensures c s Q) :
    Ensures c s fun a t => Q a t ∧ c s = .ok a t := by
  unfold Ensures at h ⊢
  cases hc : c s with
  | ok a t =>
    rw [hc] at h
    exact ⟨h, rfl⟩
  | error e t =>
    rw [hc] at h
    exact h

theorem Ensures.bind {c : EStateM UnitError σ α} {f : α → EStateM UnitError σ β}
    {P : α → σ → Prop} {Q : β → σ → Prop} (h : Ensures c s P)
    (hf : ∀ a t, P a t → Ensures (f a) t Q) : Ensures (c >>= f) s Q := by
  unfold Ensures at h
  simp only [Ensures, Bind.bind, EStateM.bind]
  cases hc : c s with
  | ok a t =>
    rw [hc] at h
    exact hf a t h
  | error e t =>
    rw [hc] at h
    exact h

end Rules

namespace Lifting

structure Sound (s : Lifting) : Prop where
  graph : s.graph.Orderly
  held : ∀ {l v}, s.contents.get? l = some v → ∃ origin, s.graph.kind? v = some (origin, l.size)
  constant : ∀ {word size v}, s.constants.get? (word, size) = some v →
    s.graph.kind? v = some (.constant word, size)
  pending : ∀ {l}, l ∈ s.pending → ∃ v, s.contents.get? l = some v

theorem sound_empty : ({} : Lifting).Sound where
  graph := Graph.orderly_empty
  held h := by cases h
  constant h := by cases h
  pending h := by cases h

/-- The same locations hold the same values and are touched, pending and foreign. -/
structure Alike (s t : Lifting) : Prop where
  contents : t.contents = s.contents
  touched : t.touched = s.touched
  pending : t.pending = s.pending
  foreign : t.foreign = s.foreign

theorem Alike.refl (s : Lifting) : s.Alike s := ⟨rfl, rfl, rfl, rfl⟩

theorem Alike.trans {s t u : Lifting} (hst : s.Alike t) (htu : t.Alike u) : s.Alike u where
  contents := htu.contents.trans hst.contents
  touched := htu.touched.trans hst.touched
  pending := htu.pending.trans hst.pending
  foreign := htu.foreign.trans hst.foreign

/-- The locations `gone` are no longer pending; all else is alike. -/
structure Settles (gone : List Location) (s t : Lifting) : Prop where
  contents : t.contents = s.contents
  touched : t.touched = s.touched
  pending : t.pending = s.pending.filter (· ∉ gone)
  foreign : t.foreign = s.foreign

theorem Alike.settles {s t : Lifting} (h : s.Alike t) : Settles [] s t where
  contents := h.contents
  touched := h.touched
  pending := by simp [h.pending]
  foreign := h.foreign

theorem Settles.trans {gone more : List Location} {s t u : Lifting} (hst : Settles gone s t)
    (htu : Settles more t u) : Settles (gone ++ more) s u where
  contents := htu.contents.trans hst.contents
  touched := htu.touched.trans hst.touched
  pending := by
    rw [htu.pending, hst.pending, List.filter_filter]
    apply List.filter_congr
    intro p _
    simp [Bool.and_comm]
  foreign := htu.foreign.trans hst.foreign

/-- Nothing stays pending of what was chosen to go. -/
theorem Settles.eq_false_of_pending {f : Location → Bool} {s t : Lifting}
    (h : Settles (s.pending.filter f) s t) {p : Location} (hp : p ∈ t.pending) : f p = false := by
  rw [h.pending] at hp
  obtain ⟨hin, hkept⟩ := List.mem_filter.mp hp
  rw [Bool.eq_false_iff]
  intro hf
  exact of_decide_eq_true hkept (List.mem_filter.mpr ⟨hin, hf⟩)

theorem Settles.pending_eq_nil {s t : Lifting} (h : Settles s.pending s t) : t.pending = [] := by
  rw [h.pending, List.filter_eq_nil_iff]
  intro p hp
  simpa using hp

/-- A sound state with more values and the operations `new`. -/
structure Reaches (s t : Lifting) (new : List (OpId × Operation)) : Prop where
  sound : t.Sound
  grows : s.graph.Grows t.graph new

theorem Reaches.trans {s t u : Lifting} {new more : List (OpId × Operation)}
    (hst : s.Reaches t new) (htu : t.Reaches u more) : s.Reaches u (new ++ more) :=
  ⟨htu.sound, hst.grows.trans htu.grows⟩

theorem mem_ite_contains {α : Type} [BEq α] [LawfulBEq α] {xs : List α} {a b : α} :
    b ∈ (if xs.contains a then xs else xs ++ [a]) ↔ b ∈ xs ∨ b = a := by
  by_cases hin : xs.contains a = true
  · have hmem : a ∈ xs := by simpa using hin
    rw [if_pos hin]
    exact ⟨Or.inl, fun h => h.elim id (fun he => he ▸ hmem)⟩
  · rw [if_neg hin, List.mem_append, List.mem_singleton]

/-- The state once a location holds a value. -/
def hold (s : Lifting) (l : Location) (v : ValueId) : Lifting :=
  { s with
    contents := Assoc.put (s.contents.filter (!·.1.overlaps l)) l v
    touched := if s.touched.contains l then s.touched else s.touched ++ [l]
    pending :=
      if !l.space.isObservable || s.pending.contains l then s.pending else s.pending ++ [l] }

/-- The state once the value of a location was found. -/
def note (s : Lifting) (l : Location) (v : ValueId) : Lifting :=
  { s with contents := s.contents.put l v }

/-- The state once all that is known of a space is forgotten. -/
def forget (s : Lifting) (space : Space) : Lifting :=
  { s with
    contents := s.contents.filter (·.1.space ≠ space)
    touched := s.touched.filter (·.space ≠ space)
    foreign := if s.foreign.contains space then s.foreign else s.foreign ++ [space] }

theorem get?_hold (s : Lifting) (l k : Location) (v : ValueId) :
    (s.hold l v).contents.get? k =
      if l = k then some v else if k.overlaps l then none else s.contents.get? k := by
  simp only [hold, Assoc.get?_put]
  split
  next => rfl
  next =>
    rw [Assoc.get?_filter s.contents (fun j => !j.overlaps l)]
    cases k.overlaps l <;> rfl

theorem get?_forget (s : Lifting) (space : Space) (k : Location) :
    (s.forget space).contents.get? k = if k.space = space then none else s.contents.get? k := by
  have h := Assoc.get?_filter s.contents (fun j => decide (j.space ≠ space)) k
  simp only [forget]
  rw [h]
  by_cases hk : k.space = space <;> simp [hk]

theorem mem_pending_hold {s : Lifting} {l p : Location} {v : ValueId} :
    p ∈ (s.hold l v).pending ↔ p ∈ s.pending ∨ (p = l ∧ l.space.isObservable = true) := by
  simp only [hold]
  cases hobs : l.space.isObservable with
  | false => simp
  | true =>
    simp only [Bool.not_true, Bool.false_or, and_true]
    exact mem_ite_contains

theorem mem_touched_hold {s : Lifting} {l t : Location} {v : ValueId} :
    t ∈ (s.hold l v).touched ↔ t ∈ s.touched ∨ t = l :=
  mem_ite_contains

theorem mem_touched_forget {s : Lifting} {space : Space} {t : Location} :
    t ∈ (s.forget space).touched ↔ t ∈ s.touched ∧ t.space ≠ space := by
  simp [forget]

theorem mem_foreign_forget {s : Lifting} {space other : Space} :
    other ∈ (s.forget space).foreign ↔ other ∈ s.foreign ∨ other = space :=
  mem_ite_contains

/-- A value of the right size can be held once no other pending location overlaps. -/
theorem Sound.hold {s : Lifting} (hs : s.Sound) {l : Location} {v : ValueId} {origin : Origin}
    (hv : s.graph.kind? v = some (origin, l.size))
    (hclear : ∀ p ∈ s.pending, p ≠ l → p.overlaps l = false) : (s.hold l v).Sound where
  graph := hs.graph
  held {k w} hw := by
    rw [get?_hold] at hw
    split at hw
    next he =>
      obtain rfl := Option.some.inj hw
      exact he ▸ ⟨origin, hv⟩
    next =>
      split at hw
      next => cases hw
      next => exact hs.held hw
  constant h := hs.constant h
  pending {p} hp := by
    rw [get?_hold]
    by_cases he : l = p
    · exact ⟨v, by rw [if_pos he]⟩
    · have hold : p ∈ s.pending := by
        rcases mem_pending_hold.mp hp with hin | ⟨rfl, _⟩
        · exact hin
        · exact absurd rfl he
      rw [if_neg he, if_neg (by rw [hclear p hold (Ne.symm he)]; simp)]
      exact hs.pending hold

theorem Sound.note {s : Lifting} (hs : s.Sound) {l : Location} {v : ValueId} {origin : Origin}
    (hv : s.graph.kind? v = some (origin, l.size)) : (s.note l v).Sound where
  graph := hs.graph
  held {k w} hw := by
    simp only [Lifting.note, Assoc.get?_put] at hw
    split at hw
    next he =>
      obtain rfl := Option.some.inj hw
      exact he ▸ ⟨origin, hv⟩
    next => exact hs.held hw
  constant h := hs.constant h
  pending {p} hp := by
    simp only [Lifting.note, Assoc.get?_put]
    split
    next => exact ⟨v, rfl⟩
    next => exact hs.pending hp

/-- A space with nothing pending can be forgotten. -/
theorem Sound.forget {s : Lifting} (hs : s.Sound) {space : Space}
    (hclear : ∀ p ∈ s.pending, p.space ≠ space) : (s.forget space).Sound where
  graph := hs.graph
  held hw := by
    rw [get?_forget] at hw
    split at hw
    next => cases hw
    next => exact hs.held hw
  constant h := hs.constant h
  pending {p} hp := by
    rw [get?_forget, if_neg (hclear p hp)]
    exact hs.pending hp

end Lifting

namespace Lift
open Lifting

section Growth
variable {s : Lifting}

/-- Growing the graph alone keeps a state sound. -/
theorem sound_of_grows (hs : s.Sound) {t : Lifting} {new : List (OpId × Operation)}
    (hg : s.graph.Grows t.graph new) (ho : t.graph.Orderly) (ha : s.Alike t)
    (hc : ∀ {word size v}, t.constants.get? (word, size) = some v →
      t.graph.kind? v = some (.constant word, size)) : t.Sound where
  graph := ho
  held hv := by
    rw [ha.contents] at hv
    obtain ⟨origin, hk⟩ := hs.held hv
    exact ⟨origin, hg.kind hk⟩
  constant := hc
  pending hp := by
    rw [ha.pending] at hp
    rw [ha.contents]
    exact hs.pending hp

/-- A new value. -/
structure Creates (origin : Origin) (size : Nat) (s : Lifting) (v : ValueId) (t : Lifting) :
    Prop where
  reaches : s.Reaches t []
  alike : s.Alike t
  new : s.graph.kind? v = none
  kind : t.graph.kind? v = some (origin, size)
  value : t.graph.value? v = some { origin, size }
  others : ∀ {w}, w ≠ v → t.graph.kind? w = s.graph.kind? w
  constants : t.constants = s.constants

theorem ensures_create (hs : s.Sound) (origin : Origin) (size : Nat) :
    Ensures (onGraph (Graph.create { origin, size })) s (Creates origin size s) := by
  have hvalue : ({ s.graph with values := s.graph.values.push { origin, size } } : Graph).value?
      ⟨s.graph.values.next⟩ = some { origin, size } := by
    rw [Graph.value?_create, if_pos rfl]
  have hgrows := Graph.grows_create s.graph { origin, size }
  refine ⟨⟨?_, hgrows⟩, ⟨rfl, rfl, rfl, rfl⟩, Graph.kind?_next _, Graph.kind?_of_value? hvalue,
    hvalue, ?_, rfl⟩
  · exact sound_of_grows hs hgrows (hs.graph.create rfl rfl) ⟨rfl, rfl, rfl, rfl⟩
      fun h => hgrows.kind (hs.constant h)
  · intro w hw
    rw [Graph.kind?, Graph.value?_create, if_neg hw]
    rfl

/-- An operation at the end of the graph. -/
structure Appends (op : Operation) (s t : Lifting) : Prop where
  alike : s.Alike t
  reaches : ∃ id, s.Reaches t [(id, op)]
  kinds : ∀ v, t.graph.kind? v = s.graph.kind? v
  constants : t.constants = s.constants

theorem append_eq (hs : s.Sound) {op : Operation} (hop : s.graph.Fits op) :
    append op s = .ok ⟨s.graph.nodes.next⟩ { s with
      graph := s.graph.appended op
      statistics := s.statistics.recordOp op.mnemonic } := by
  simp only [append, onGraph, (hs.graph.addLinked_eq hop).1]

theorem sound_appended (hs : s.Sound) {op : Operation} (hop : s.graph.Fits op)
    (st : Statistics) : ({ s with graph := s.graph.appended op, statistics := st } : Lifting).Sound where
  graph := hs.graph.appended hop
  held hv := by
    obtain ⟨origin, hk⟩ := hs.held hv
    exact ⟨origin, (Graph.kind?_appended ..).trans hk⟩
  constant hv := (Graph.kind?_appended ..).trans (hs.constant hv)
  pending hp := hs.pending hp

theorem ensures_append (hs : s.Sound) {op : Operation} (hout : op.output = none)
    (hin : ∀ v ∈ op.inputs, (s.graph.kind? v).isSome = true)
    (htyped : op.inputTypes.length = op.inputs.length) :
    Ensures (append op) s fun _ t => Appends op s t := by
  have hop : s.graph.Fits op := by
    refine ⟨?_, ?_, htyped⟩
    · intro v hv
      rw [← Graph.isSome_kind?]
      exact hin v hv
    · intro v hv
      rw [hout] at hv
      cases hv
  refine ensures_ofEq (append_eq hs hop) ⟨⟨rfl, rfl, rfl, rfl⟩, ⟨⟨s.graph.nodes.next⟩,
    sound_appended hs hop _, ?_, ?_, ?_⟩, Graph.kind?_appended _ op, rfl⟩
  · intro v k hk
    exact (Graph.kind?_appended ..).trans hk
  · exact Graph.linkedOps_appended ..
  · intro x v hx hv
    rw [List.mem_singleton.mp hx, hout] at hv
    cases hv

/-- A new output and the operation that defines it. -/
structure Emits (size : Nat) (op : ValueId → Operation) (s : Lifting) (out : ValueId)
    (t : Lifting) : Prop where
  alike : s.Alike t
  new : s.graph.kind? out = none
  kind : t.graph.kind? out = some (.output, size)
  reaches : ∃ id, s.Reaches t [(id, op out)]
  others : ∀ {v}, v ≠ out → t.graph.kind? v = s.graph.kind? v
  constants : t.constants = s.constants

theorem ensures_emit {α : Type} (hs : s.Sound) {size : Nat} (op : ValueId → Operation)
    (hout : ∀ out, (op out).output = some out)
    (hin : ∀ out, ∀ v ∈ (op out).inputs, (s.graph.kind? v).isSome = true)
    (htyped : ∀ out, (op out).inputTypes.length = (op out).inputs.length)
    {k : ValueId → Lift α} {Q : α → Lifting → Prop}
    (hk : ∀ out t, Emits size op s out t → Ensures (k out) t Q) :
    Ensures (do
      let out ← onGraph (Graph.newOutput size)
      let _ ← append (op out)
      k out) s Q := by
  refine (ensures_create hs .output size).bind ?_
  intro out t hc
  have hop : t.graph.Fits (op out) := by
    refine ⟨?_, ?_, htyped out⟩
    · intro v hv
      rw [← Graph.isSome_kind?]
      exact hc.reaches.grows.live (hin out v hv)
    · intro v hv
      obtain rfl : out = v := Option.some.inj ((hout out).symm.trans hv)
      refine ⟨?_, _, hc.value, rfl, rfl, rfl⟩
      -- the operands were there before the output
      intro hmem
      have hold := hin out out hmem
      rw [hc.new] at hold
      cases hold
  refine Ensures.bind (P := fun _ u => Emits size op s out u)
    (ensures_ofEq (append_eq hc.reaches.sound hop) ?_) fun _ u hu => hk out u hu
  refine ⟨⟨hc.alike.contents, hc.alike.touched, hc.alike.pending, hc.alike.foreign⟩, hc.new,
    (Graph.kind?_appended ..).trans hc.kind, ⟨⟨t.graph.nodes.next⟩,
    sound_appended hc.reaches.sound hop _, ?_, ?_, ?_⟩,
    fun hv => (Graph.kind?_appended ..).trans (hc.others hv), hc.constants⟩
  · intro v k hv
    exact (Graph.kind?_appended ..).trans (hc.reaches.grows.kind hv)
  · rw [Graph.linkedOps_appended, hc.reaches.grows.code, List.append_nil]
  · intro x v hx hv
    rw [List.mem_singleton.mp hx, hout out] at hv
    obtain rfl := Option.some.inj hv
    exact hc.new

end Growth

section Reading
variable {s : Lifting}

/-- The one value of a constant. -/
structure Fixes (word : UInt64) (size : Nat) (s : Lifting) (v : ValueId) (t : Lifting) : Prop where
  reaches : s.Reaches t []
  alike : s.Alike t
  kind : t.graph.kind? v = some (.constant word, size)
  others : ∀ {w}, w ≠ v → t.graph.kind? w = s.graph.kind? w
  constants : t.constants.get? (word, size) = some v
  kept : ∀ {k w}, s.constants.get? k = some w → t.constants.get? k = some w

theorem ensures_newConstant (hs : s.Sound) {word : UInt64} {size : Nat}
    (hnone : s.constants.get? (word, size) = none) :
    Ensures (do
      let v ← onGraph (Graph.newConstant word size)
      modify fun s => { s with constants := s.constants.put (word, size) v }
      return v) s (Fixes word size s) := by
  refine (ensures_create hs (.constant word) size).bind ?_
  intro v t hc
  have hsound := hc.reaches.sound
  refine ⟨⟨?_, hc.reaches.grows⟩, ⟨hc.alike.contents, hc.alike.touched, hc.alike.pending,
    hc.alike.foreign⟩, hc.kind, hc.others, by simp only [Assoc.get?_put, if_true], ?_⟩
  · refine sound_of_grows hsound (.refl _) hsound.graph ⟨rfl, rfl, rfl, rfl⟩ ?_
    intro word' size' w hw
    simp only [Assoc.get?_put] at hw
    split at hw
    next he =>
      cases he
      obtain rfl := Option.some.inj hw
      exact hc.kind
    next => exact hsound.constant hw
  · intro k w hw
    have hne : (word, size) ≠ k := by
      rintro rfl
      rw [hnone] at hw
      cases hw
    simp only [Assoc.get?_put, if_neg hne, hc.constants]
    exact hw

theorem ensures_constant (hs : s.Sound) (word : UInt64) (size : Nat) :
    Ensures (constant word size) s (Fixes word size s) := by
  cases hv : s.constants.get? (word, size) with
  | some v =>
    exact ensures_ofEq (by simp only [constant, hv])
      ⟨⟨hs, .refl _⟩, .refl s, hs.constant hv, fun _ => rfl, hv, id⟩
  | none =>
    unfold Ensures constant
    rw [hv]
    exact ensures_newConstant hs hv

/-- A value for a location that is not known: what it holds on entry or, where its space may have
been changed, what is loaded from it. -/
inductive Finds (l : Location) (s : Lifting) (v : ValueId) (t : Lifting) : Prop where
  | entry (native : l.space ∉ s.foreign) (creates : Creates (.entry l) l.size s v t)
  | load (foreign : l.space ∈ s.foreign) (offset : ValueId) (u : Lifting)
      (fixes : Fixes l.offset 8 s offset u)
      (emits : Emits l.size (fun out => .load out l.space offset) u v t)

theorem Finds.kind {l : Location} {v : ValueId} {t : Lifting} (h : Finds l s v t) :
    ∃ origin, t.graph.kind? v = some (origin, l.size) := by
  cases h with
  | entry _ creates => exact ⟨_, creates.kind⟩
  | load _ offset u fixes emits => exact ⟨_, emits.kind⟩

theorem Finds.reaches {l : Location} {v : ValueId} {t : Lifting} (h : Finds l s v t) :
    ∃ new, s.Reaches t new := by
  cases h with
  | entry _ creates => exact ⟨_, creates.reaches⟩
  | load _ offset u fixes emits =>
    obtain ⟨id, hreach⟩ := emits.reaches
    exact ⟨_, fixes.reaches.trans hreach⟩

theorem ensures_load (hs : s.Sound) {l : Location} (hf : l.space ∈ s.foreign) :
    Ensures (do
      let offset ← constant l.offset 8
      let out ← onGraph (Graph.newOutput l.size)
      let _ ← append (.load out l.space offset)
      return out) s (Finds l s) := by
  refine (ensures_constant hs l.offset 8).bind ?_
  intro offset u hc
  refine ensures_emit hc.reaches.sound (fun out => .load out l.space offset) (fun _ => rfl) ?_
    (fun _ => rfl) ?_
  · intro out v hv
    rw [List.mem_singleton.mp hv, hc.kind]
    rfl
  · intro out t he
    exact ensures_pure (.load hf offset u hc he)

theorem ensures_fresh (hs : s.Sound) (l : Location) : Ensures (fresh l) s (Finds l s) := by
  unfold Ensures fresh
  by_cases hf : s.foreign.contains l.space = true
  · rw [if_pos hf]
    exact ensures_load hs (by simpa using hf)
  · rw [if_neg hf]
    exact (ensures_create hs (.entry l) l.size).mono
      fun v t hc => .entry (by simpa using hf) hc

/-- What reading a location gives. -/
inductive Fetches (l : Location) (s : Lifting) (v : ValueId) (t : Lifting) : Prop where
  | constant (space : l.space = .const) (fixes : Fixes l.offset l.size s v t)
  | known (space : l.space ≠ .const) (held : s.contents.get? l = some v) (same : t = s)
  | unknown (space : l.space ≠ .const) (unheld : s.contents.get? l = none)
      (untouched : ∀ p ∈ s.touched, p.overlaps l = false) (u : Lifting) (finds : Finds l s v u)
      (note : t = u.note l v)

theorem Fetches.reaches (hs : s.Sound) {l : Location} {v : ValueId} {t : Lifting}
    (h : Fetches l s v t) : ∃ new, s.Reaches t new := by
  cases h with
  | constant _ fixes => exact ⟨_, fixes.reaches⟩
  | known _ _ same => exact ⟨[], same ▸ hs, same ▸ .refl _⟩
  | unknown _ _ _ u finds note =>
    obtain ⟨new, hreach⟩ := finds.reaches
    obtain ⟨origin, hkind⟩ := finds.kind
    exact ⟨new, note ▸ hreach.sound.note hkind, note ▸ hreach.grows⟩

theorem Fetches.kind (hs : s.Sound) {l : Location} {v : ValueId} {t : Lifting}
    (h : Fetches l s v t) : ∃ origin, t.graph.kind? v = some (origin, l.size) := by
  cases h with
  | constant _ fixes => exact ⟨_, fixes.kind⟩
  | known _ held same => exact same ▸ hs.held held
  | unknown _ _ _ u finds note => exact note ▸ finds.kind

theorem ensures_readLocation (hs : s.Sound) (line : Nat) (l : Location) :
    Ensures (readLocation line l) s (Fetches l s) := by
  unfold Ensures readLocation
  by_cases hl : l.space = .const
  · rw [if_pos hl]
    exact (ensures_constant hs l.offset l.size).mono fun v t hf => .constant hl hf
  rw [if_neg hl]
  cases hv : s.contents.get? l with
  | some v => exact .known hl hv rfl
  | none =>
    by_cases ht : s.touched.any (·.overlaps l) = true
    · simp only [ht, if_true]
      rfl
    · have huntouched : ∀ p ∈ s.touched, p.overlaps l = false := by simpa using ht
      have hread : Ensures (do
          let v ← fresh l
          modify fun s => { s with contents := s.contents.put l v }
          return v) s (Fetches l s) :=
        (ensures_fresh hs l).bind fun v u hu => .unknown hl hv huntouched u hu rfl
      simp only [ht]
      exact hread

end Reading

section Writing
variable {s : Lifting}

/-- The pending write of a location becomes an operation. -/
structure WritesBack (l : Location) (s t : Lifting) : Prop where
  held : ∃ v id, s.contents.get? l = some v ∧ s.Reaches t [(id, .writeback l v)]
  settles : Settles [l] s t
  kinds : ∀ v, t.graph.kind? v = s.graph.kind? v
  constants : t.constants = s.constants

theorem ensures_writeBack (hs : s.Sound) {l : Location} {v : ValueId}
    (hv : s.contents.get? l = some v) : Ensures (writeBack l) s fun _ t => WritesBack l s t := by
  have hs' : ({ s with pending := s.pending.filter (· ≠ l) } : Lifting).Sound :=
    ⟨hs.graph, hs.held, hs.constant, fun hp => hs.pending (List.mem_filter.mp hp).1⟩
  have hwrite : Ensures (do
      let _ ← append (.writeback l v)
      modify fun s => { s with
        writebacks := s.writebacks + 1
        statistics := s.statistics.recordWriteback })
      { s with pending := s.pending.filter (· ≠ l) } fun _ t => WritesBack l s t := by
    refine (ensures_append hs' rfl ?_ rfl).bind ?_
    · intro w hw
      obtain ⟨origin, hk⟩ := hs.held hv
      rw [List.mem_singleton.mp hw, hk]
      rfl
    · intro _ t ha
      obtain ⟨id, hreach⟩ := ha.reaches
      refine ⟨⟨v, id, hv, ?_, hreach.grows⟩, ⟨ha.alike.contents, ha.alike.touched, ?_,
        ha.alike.foreign⟩, ha.kinds, ha.constants⟩
      · exact ⟨hreach.sound.graph, hreach.sound.held, hreach.sound.constant, hreach.sound.pending⟩
      · exact ha.alike.pending.trans (by simp)
  unfold Ensures writeBack
  simp only [hv]
  exact hwrite

/-- Write-backs one after the other. -/
inductive WriteBacks : List Location → Lifting → Lifting → Prop where
  | nil {s : Lifting} : WriteBacks [] s s
  | cons {l : Location} {rest : List Location} {s t u : Lifting} (first : WritesBack l s t)
      (others : WriteBacks rest t u) : WriteBacks (l :: rest) s u

theorem ensures_each (hs : s.Sound) {ls : List Location}
    (hls : ∀ l ∈ ls, ∃ v, s.contents.get? l = some v) :
    Ensures (each writeBack ls) s fun _ t => WriteBacks ls s t := by
  induction ls generalizing s with
  | nil => exact ensures_pure .nil
  | cons l rest ih =>
    obtain ⟨v, hv⟩ := hls l List.mem_cons_self
    refine (ensures_writeBack hs hv).bind ?_
    intro _ t hfirst
    obtain ⟨w, id, _, hreach⟩ := hfirst.held
    refine (ih hreach.sound ?_).mono fun _ u hu => .cons hfirst hu
    intro k hk
    rw [hfirst.settles.contents]
    exact hls k (List.mem_cons_of_mem l hk)

theorem WriteBacks.reaches {ls : List Location} {t : Lifting} (h : WriteBacks ls s t)
    (hs : s.Sound) : ∃ new, s.Reaches t new := by
  induction h with
  | nil => exact ⟨[], hs, .refl _⟩
  | cons first _ ih =>
    obtain ⟨v, id, _, hreach⟩ := first.held
    obtain ⟨new, hrest⟩ := ih hreach.sound
    exact ⟨_, hreach.trans hrest⟩

theorem WriteBacks.settles {ls : List Location} {t : Lifting} (h : WriteBacks ls s t) :
    Settles ls s t := by
  induction h with
  | nil => exact ⟨rfl, rfl, by simp, rfl⟩
  | cons first _ ih => exact first.settles.trans ih

/-- What is written back for a write leaves nothing pending that overlaps it. -/
theorem WriteBacks.overlaps_of_pending {l : Location} {t : Lifting}
    (h : WriteBacks (s.pending.filter fun p => p ≠ l && p.overlaps l) s t) :
    ∀ p ∈ t.pending, p ≠ l → p.overlaps l = false := by
  intro p hp hne
  simpa [hne] using h.settles.eq_false_of_pending hp

/-- A location is written: the pending writes it overlaps are written back first. -/
structure Assigns (l : Location) (v : ValueId) (s t : Lifting) : Prop where
  before : ∃ u, WriteBacks (s.pending.filter fun p => p ≠ l && p.overlaps l) s u ∧ t = u.hold l v
  sound : t.Sound

theorem ensures_assign (hs : s.Sound) {l : Location} {v : ValueId} {origin : Origin}
    (hv : s.graph.kind? v = some (origin, l.size)) :
    Ensures (plain.assign l v) s fun _ t => Assigns l v s t := by
  have hassign : Ensures (do
      each writeBack (s.pending.filter fun p => p ≠ l && p.overlaps l)
      hold l v) s fun _ t => Assigns l v s t := by
    refine (ensures_each hs fun p hp => hs.pending (List.mem_filter.mp hp).1).bind ?_
    intro _ u hu
    obtain ⟨new, hreach⟩ := hu.reaches hs
    exact ⟨⟨u, hu, rfl⟩, hreach.sound.hold (hreach.grows.kind hv) hu.overlaps_of_pending⟩
  exact hassign

end Writing
end Lift
end DefUse
