import DefUse.Proofs.Graph.Removed
import DefUse.Proofs.Lift.Direct
import DefUse.Proofs.Lift.Steps
import DefUse.Proofs.Overlap

namespace DefUse

/-- Every output is defined and every other value is read; a constant of a size and the contents of a
location on entry are one value each. -/
structure Graph.Canonical (g : Graph) : Prop where
  defined : ∀ {v x}, g.value? v = some x → x.origin = .output →
    ∃ id op, x.definer = some id ∧ g.linked? id = some op ∧ op.output = some v
  used : ∀ {v x}, g.value? v = some x → x.origin ≠ .output →
    ∃ u ∈ x.uses, ∃ op, g.linked? u.op = some op ∧ op.inputs[u.position]? = some v
  constants : ∀ {v w word size}, g.kind? v = some (.constant word, size) →
    g.kind? w = some (.constant word, size) → v = w
  entries : ∀ {v w l size size'}, g.kind? v = some (.entry l, size) →
    g.kind? w = some (.entry l, size') → v = w
  entry_space : ∀ {v l size}, g.kind? v = some (.entry l, size) → l.space ≠ .const
  writeback : ∀ {id l v}, g.linked? id = some (.writeback l v) →
    ∃ origin, g.kind? v = some (origin, l.size)

namespace Graph

theorem Pruned.kind? {g h : Graph} {R : Finset OpId} (hp : g.Pruned R h) {v : ValueId}
    {k : Origin × Nat} (hk : h.kind? v = some k) : g.kind? v = some k := by
  obtain ⟨y, hy, rfl⟩ := Option.map_eq_some_iff.mp hk
  obtain ⟨x, hx, _, rfl⟩ := hp.value?_eq_some_iff.mp hy
  have hkind := kind?_of_value? hx
  exact hkind

theorem Orderly.free_of_ne_output {g : Graph} (hg : g.Orderly) {v : ValueId} {x : Value}
    (hx : g.value? v = some x) (ho : x.origin ≠ .output) : x.definer = none := by
  cases hd : x.definer with
  | none => rfl
  | some d =>
    obtain ⟨op, hop, hout⟩ := (hg.consistent.definer_iff hx d).mp hd
    obtain ⟨size, hk⟩ := hg.output hop hout
    rw [kind?_of_value? hx, Option.some.injEq, Prod.mk.injEq] at hk
    exact absurd hk.1 ho

/-- Dead code elimination keeps a graph canonical: a constant or entry value that stays is read by
an operation that stays. -/
theorem Canonical.pruned {g h : Graph} (hg : g.Canonical) (ho : g.Orderly) {R : Finset OpId}
    (hc : h.Consistent) (hp : g.Pruned R h) : h.Canonical where
  defined {v y} hy horigin := by
    obtain ⟨x, hx, hstays, rfl⟩ := hp.value?_eq_some_iff.mp hy
    obtain ⟨id, op, hd, hop, hout⟩ := hg.defined hx horigin
    have hid : id ∉ R := by simpa [Value.goesWith, hd] using hstays
    exact ⟨id, op, hd, hp.linked?.mpr ⟨hid, hop⟩, hout⟩
  used {v y} hy horigin := by
    obtain ⟨x, hx, hstays, rfl⟩ := hp.value?_eq_some_iff.mp hy
    obtain ⟨some_use, hsome, _⟩ := hg.used hx horigin
    have hread : ∃ u ∈ x.uses, u.op ∉ R := by
      by_contra hall
      have hgoes : x.goesWith R = true := by
        refine (Value.goesWith_of_free (ho.free_of_ne_output hx horigin)).mpr
          ⟨horigin, List.ne_nil_of_mem hsome, ?_⟩
        intro u hu
        by_contra hnot
        exact hall ⟨u, hu, hnot⟩
      rw [hgoes] at hstays
      cases hstays
    obtain ⟨u, hu, hnot⟩ := hread
    obtain ⟨op, hop, hin⟩ := (ho.consistent.mem_uses hx u).mp hu
    refine ⟨u, List.mem_filter.mpr ⟨hu, by simpa using hnot⟩, op, ?_, hin⟩
    exact hp.linked?.mpr ⟨hnot, hop⟩
  constants hv hw := hg.constants (hp.kind? hv) (hp.kind? hw)
  entries hv hw := hg.entries (hp.kind? hv) (hp.kind? hw)
  entry_space hv := hg.entry_space (hp.kind? hv)
  writeback {id l v} hop := by
    obtain ⟨origin, hk⟩ := hg.writeback (hp.linked?.mp hop).2
    have hlive := hc.input_live hop (List.mem_singleton_self v)
    rw [← isSome_kind?] at hlive
    obtain ⟨k, hk'⟩ := Option.isSome_iff_exists.mp hlive
    have heq := hp.kind? hk'
    rw [hk] at heq
    exact ⟨origin, hk'.trans heq.symm⟩

end Graph

namespace Lifting

/-- No value is made any more for what the location holds on entry. -/
def Closes (s : Lifting) (l : Location) : Prop :=
  l.space ∈ s.foreign ∨ (s.contents.get? l).isSome = true ∨ ∃ p ∈ s.touched, p.overlaps l = true

theorem Closes.of_eq {s t : Lifting} {l : Location} (h : s.Closes l)
    (hcontents : t.contents = s.contents) (htouched : t.touched = s.touched)
    (hforeign : t.foreign = s.foreign) : t.Closes l := by
  unfold Closes
  rw [hcontents, htouched, hforeign]
  exact h

theorem Closes.hold {s : Lifting} {l : Location} (h : s.Closes l) (k : Location) (v : ValueId) :
    (s.hold k v).Closes l := by
  rcases h with hforeign | hknown | ⟨p, hp, hover⟩
  · exact Or.inl hforeign
  · by_cases hk : l.overlaps k = true
    · -- the write of `k` stands in the way of reading `l`
      refine Or.inr (Or.inr ⟨k, mem_touched_hold.mpr (Or.inr rfl), ?_⟩)
      rw [Location.overlaps_comm]
      exact hk
    · refine Or.inr (Or.inl ?_)
      rw [get?_hold, if_neg hk]
      split
      · rfl
      · exact hknown
  · exact Or.inr (Or.inr ⟨p, mem_touched_hold.mpr (Or.inl hp), hover⟩)

theorem Closes.note {s : Lifting} {l : Location} (h : s.Closes l) (k : Location) (v : ValueId) :
    (s.note k v).Closes l := by
  rcases h with hforeign | hknown | htouched
  · exact Or.inl hforeign
  · refine Or.inr (Or.inl ?_)
    simp only [Lifting.note, Assoc.get?_put]
    split
    · rfl
    · exact hknown
  · exact Or.inr (Or.inr htouched)

theorem Closes.forget {s : Lifting} {l : Location} (h : s.Closes l) (space : Space) :
    (s.forget space).Closes l := by
  by_cases hl : l.space = space
  · exact Or.inl (mem_foreign_forget.mpr (Or.inr hl))
  · rcases h with hforeign | hknown | ⟨p, hp, hover⟩
    · exact Or.inl (mem_foreign_forget.mpr (Or.inl hforeign))
    · refine Or.inr (Or.inl ?_)
      rw [get?_forget, if_neg hl]
      exact hknown
    · refine Or.inr (Or.inr ⟨p, mem_touched_forget.mpr ⟨hp, ?_⟩, hover⟩)
      rw [Location.space_eq_of_overlaps hover]
      exact hl

/-- The values made so far are canonical, but for those that wait for an operation to read them. -/
structure Canonical (waiting : List ValueId) (s : Lifting) : Prop where
  defined : ∀ {v size}, s.graph.kind? v = some (.output, size) →
    ∃ x ∈ s.graph.linkedOps, x.2.output = some v
  used : ∀ {v origin size}, s.graph.kind? v = some (origin, size) → origin ≠ .output →
    v ∈ waiting ∨ ∃ x ∈ s.graph.linkedOps, v ∈ x.2.inputs
  constant : ∀ {v word size}, s.graph.kind? v = some (.constant word, size) →
    s.constants.get? (word, size) = some v
  entries : ∀ {v w l size size'}, s.graph.kind? v = some (.entry l, size) →
    s.graph.kind? w = some (.entry l, size') → v = w
  entry : ∀ {v l size}, s.graph.kind? v = some (.entry l, size) → l.space ≠ .const ∧ s.Closes l
  writeback : ∀ {id l v}, (id, .writeback l v) ∈ s.graph.linkedOps →
    ∃ origin, s.graph.kind? v = some (origin, l.size)

theorem canonical_empty : Canonical [] {} where
  defined h := by cases h
  used h := by cases h
  constant h := by cases h
  entries h := by cases h
  entry h := by cases h
  writeback h := by cases h

/-- With nothing waiting, the graph itself is canonical. -/
theorem Canonical.graph {s : Lifting} (h : s.Canonical []) (hs : s.Sound) : s.graph.Canonical where
  defined {v x} hx ho := by
    obtain ⟨⟨id, op⟩, hmem, hout⟩ := h.defined (ho ▸ Graph.kind?_of_value? hx)
    have hop := Graph.mem_linkedOps_iff.mp hmem
    exact ⟨id, op, (hs.graph.consistent.definer_iff hx id).mpr ⟨op, hop, hout⟩, hop, hout⟩
  used {v x} hx ho := by
    rcases h.used (Graph.kind?_of_value? hx) ho with hw | ⟨⟨id, op⟩, hmem, hin⟩
    · cases hw
    · have hop := Graph.mem_linkedOps_iff.mp hmem
      obtain ⟨i, hi⟩ := List.getElem?_of_mem hin
      exact ⟨⟨id, i⟩, (hs.graph.consistent.mem_uses hx _).mpr ⟨op, hop, hi⟩, op, hop, hi⟩
  constants hv hw := Option.some.inj ((h.constant hv).symm.trans (h.constant hw))
  entries hv hw := h.entries hv hw
  entry_space hv := (h.entry hv).1
  writeback hop := h.writeback (Graph.mem_linkedOps_iff.mpr hop)

variable {s t : Lifting} {waiting : List ValueId}

theorem Canonical.mono (h : s.Canonical waiting) {more : List ValueId} (hsub : waiting ⊆ more) :
    s.Canonical more :=
  ⟨h.defined, fun hk ho => (h.used hk ho).imp_left fun hw => hsub hw, h.constant, h.entries, h.entry,
    h.writeback⟩

/-- What is known of locations changes, and no location opens. -/
theorem Canonical.learn (h : s.Canonical waiting) (hgraph : t.graph = s.graph)
    (hconstants : t.constants = s.constants) (hcloses : ∀ {l}, s.Closes l → t.Closes l) :
    t.Canonical waiting where
  defined := by
    rw [hgraph]
    exact h.defined
  used := by
    rw [hgraph]
    exact h.used
  constant := by
    rw [hgraph, hconstants]
    exact h.constant
  entries := by
    rw [hgraph]
    exact h.entries
  entry hv := by
    rw [hgraph] at hv
    exact (h.entry hv).imp_right hcloses
  writeback := by
    rw [hgraph]
    exact h.writeback

/-- An operation is appended, and with it at most its output is new. -/
theorem Canonical.append (h : s.Canonical waiting) {id : OpId} {op : Operation}
    (hgrows : s.graph.Grows t.graph [(id, op)])
    (hnew : ∀ {v k}, t.graph.kind? v = some k →
      s.graph.kind? v = some k ∨ (k.1 = .output ∧ op.output = some v))
    (hconstants : t.constants = s.constants) (hcloses : ∀ {l}, s.Closes l → t.Closes l)
    (hsize : ∀ {l v}, op = .writeback l v → ∃ origin, s.graph.kind? v = some (origin, l.size))
    {left : List ValueId} (hwaiting : ∀ v ∈ waiting, v ∈ op.inputs ∨ v ∈ left) :
    t.Canonical left := by
  have hold {v : ValueId} {origin : Origin} {size : Nat} (ho : origin ≠ .output)
      (hk : t.graph.kind? v = some (origin, size)) : s.graph.kind? v = some (origin, size) :=
    (hnew hk).resolve_right fun hout => ho hout.1
  have hmem {x : OpId × Operation} : x ∈ t.graph.linkedOps ↔ x ∈ s.graph.linkedOps ∨ x = (id, op) := by
    rw [hgrows.code, List.mem_append, List.mem_singleton]
  refine ⟨?_, ?_, ?_, ?_, ?_, ?_⟩
  · intro v size hk
    rcases hnew hk with hk | ⟨_, hout⟩
    · obtain ⟨x, hx, hout⟩ := h.defined hk
      exact ⟨x, hmem.mpr (Or.inl hx), hout⟩
    · exact ⟨(id, op), hmem.mpr (Or.inr rfl), hout⟩
  · intro v origin size hk ho
    rcases h.used (hold ho hk) ho with hw | ⟨x, hx, hin⟩
    · rcases hwaiting v hw with hin | hleft
      · exact Or.inr ⟨(id, op), hmem.mpr (Or.inr rfl), hin⟩
      · exact Or.inl hleft
    · exact Or.inr ⟨x, hmem.mpr (Or.inl hx), hin⟩
  · intro v word size hk
    rw [hconstants]
    exact h.constant (hold (by simp) hk)
  · intro v w l size size' hv hw
    exact h.entries (hold (by simp) hv) (hold (by simp) hw)
  · intro v l size hk
    exact (h.entry (hold (by simp) hk)).imp_right hcloses
  · intro id' l v hx
    have hsized : ∃ origin, s.graph.kind? v = some (origin, l.size) := by
      rcases hmem.mp hx with hx | heq
      · exact h.writeback hx
      · exact hsize (Prod.mk.inj heq).2.symm
    obtain ⟨origin, hk⟩ := hsized
    exact ⟨origin, hgrows.kind hk⟩

/-- A constant or entry value is made, or the constant is there; it waits. -/
theorem Canonical.make (h : s.Canonical waiting) {v : ValueId} {origin : Origin} {size : Nat}
    (hgrows : s.graph.Grows t.graph []) (hkind : t.graph.kind? v = some (origin, size))
    (hothers : ∀ {w}, w ≠ v → t.graph.kind? w = s.graph.kind? w) (hfree : origin ≠ .output)
    (hconstant : ∀ {word}, origin = .constant word → t.constants.get? (word, size) = some v)
    (hkept : ∀ {k w}, s.constants.get? k = some w → t.constants.get? k = some w)
    (hentry : ∀ {l}, origin = .entry l → l.space ≠ .const ∧ t.Closes l ∧ ¬s.Closes l)
    (hcloses : ∀ {l}, s.Closes l → t.Closes l) : t.Canonical (v :: waiting) := by
  have hcode : t.graph.linkedOps = s.graph.linkedOps := hgrows.code.trans (List.append_nil _)
  have hcases {w : ValueId} {k : Origin × Nat} (hk : t.graph.kind? w = some k) :
      (w = v ∧ k = (origin, size)) ∨ (w ≠ v ∧ s.graph.kind? w = some k) := by
    by_cases hw : w = v
    · rw [hw, hkind] at hk
      exact Or.inl ⟨hw, (Option.some.inj hk).symm⟩
    · exact Or.inr ⟨hw, (hothers hw).symm.trans hk⟩
  refine ⟨?_, ?_, ?_, ?_, ?_, ?_⟩
  · intro w n hk
    rw [hcode]
    rcases hcases hk with ⟨_, heq⟩ | ⟨_, hk⟩
    · exact absurd (congrArg Prod.fst heq).symm hfree
    · exact h.defined hk
  · intro w o n hk ho
    rw [hcode]
    rcases hcases hk with ⟨rfl, _⟩ | ⟨_, hk⟩
    · exact Or.inl List.mem_cons_self
    · exact (h.used hk ho).imp_left fun hw => List.mem_cons_of_mem v hw
  · intro w word n hk
    rcases hcases hk with ⟨rfl, heq⟩ | ⟨_, hk⟩
    · cases heq
      exact hconstant rfl
    · exact hkept (h.constant hk)
  · intro w w' l n n' hk hk'
    rcases hcases hk with ⟨rfl, heq⟩ | ⟨_, hk⟩ <;> rcases hcases hk' with ⟨rfl, heq'⟩ | ⟨_, hk'⟩
    · rfl
    · cases heq
      exact absurd (h.entry hk').2 (hentry rfl).2.2
    · cases heq'
      exact absurd (h.entry hk).2 (hentry rfl).2.2
    · exact h.entries hk hk'
  · intro w l n hk
    rcases hcases hk with ⟨rfl, heq⟩ | ⟨_, hk⟩
    · cases heq
      exact ⟨(hentry rfl).1, (hentry rfl).2.1⟩
    · exact (h.entry hk).imp_right hcloses
  · intro id l w hx
    rw [hcode] at hx
    obtain ⟨o, hk⟩ := h.writeback hx
    exact ⟨o, hgrows.kind hk⟩

end Lifting

namespace Lift
open Lifting

section Steps
variable {s t : Lifting} {waiting left : List ValueId}

theorem closes_of_alike (ha : s.Alike t) {l : Location} (h : s.Closes l) : t.Closes l :=
  h.of_eq ha.contents ha.touched ha.foreign

theorem Appends.canonical {op : Operation} (ha : Appends op s t) (h : s.Canonical waiting)
    (hop : op.writeback? = none) (hwaiting : ∀ v ∈ waiting, v ∈ op.inputs ∨ v ∈ left) :
    t.Canonical left := by
  obtain ⟨id, hreach⟩ := ha.reaches
  refine h.append hreach.grows ?_ ha.constants (closes_of_alike ha.alike) ?_ hwaiting
  · intro v k hk
    rw [ha.kinds] at hk
    exact Or.inl hk
  · intro l v heq
    rw [heq] at hop
    cases hop

theorem Emits.canonical {size : Nat} {op : ValueId → Operation} {out : ValueId}
    (he : Emits size op s out t) (h : s.Canonical waiting) (hout : (op out).output = some out)
    (hwaiting : ∀ v ∈ waiting, v ∈ (op out).inputs ∨ v ∈ left) : t.Canonical left := by
  obtain ⟨id, hreach⟩ := he.reaches
  refine h.append hreach.grows ?_ he.constants (closes_of_alike he.alike) ?_ hwaiting
  · intro v k hk
    by_cases hv : v = out
    · rw [hv, he.kind] at hk
      rw [hv]
      exact Or.inr ⟨(congrArg Prod.fst (Option.some.inj hk)).symm, hout⟩
    · exact Or.inl ((he.others hv).symm.trans hk)
  · intro l v heq
    rw [heq] at hout
    cases hout

theorem Fixes.canonical {word : UInt64} {size : Nat} {v : ValueId} (hf : Fixes word size s v t)
    (h : s.Canonical waiting) : t.Canonical (v :: waiting) := by
  refine h.make hf.reaches.grows hf.kind hf.others (by simp) ?_ hf.kept (by simp)
    (closes_of_alike hf.alike)
  intro word' heq
  cases heq
  exact hf.constants

/-- What is read waits for its operation. -/
theorem Fetches.canonical {l : Location} {v : ValueId} (hf : Fetches l s v t)
    (h : s.Canonical waiting) : t.Canonical (v :: waiting) := by
  cases hf with
  | constant _ fixes => exact fixes.canonical h
  | known _ _ same =>
    rw [same]
    exact h.mono (List.subset_cons_self v waiting)
  | unknown space unheld untouched u finds note =>
    rw [note]
    cases finds with
    | entry native creates =>
      have hclosed : (u.note l v).Closes l := by
        refine Or.inr (Or.inl ?_)
        simp only [Lifting.note, Assoc.get?_put, if_true, Option.isSome_some]
      have hopen : ¬s.Closes l := by
        rintro (hforeign | hknown | ⟨p, hp, hover⟩)
        · exact native hforeign
        · rw [unheld] at hknown
          cases hknown
        · rw [untouched p hp] at hover
          cases hover
      refine h.make creates.reaches.grows creates.kind creates.others (by simp) (by simp) ?_ ?_ ?_
      · intro k w hw
        show u.constants.get? k = some w
        rw [creates.constants]
        exact hw
      · intro k heq
        cases heq
        exact ⟨space, hclosed, hopen⟩
      · exact fun hcloses => (closes_of_alike creates.alike hcloses).note l v
    | load _ offset u' fixes emits =>
      have hloaded : u.Canonical waiting := by
        refine emits.canonical (fixes.canonical h) rfl ?_
        intro w hw
        rcases List.mem_cons.mp hw with rfl | hw
        · exact Or.inl (List.mem_singleton_self _)
        · exact Or.inr hw
      have hnoted : (u.note l v).Canonical waiting :=
        hloaded.learn rfl rfl fun hcloses => hcloses.note l v
      exact hnoted.mono (List.subset_cons_self v waiting)

theorem WritesBack.canonical {l : Location} (hw : WritesBack l s t) (hs : s.Sound)
    (h : s.Canonical waiting) : t.Canonical waiting := by
  obtain ⟨v, id, hheld, hreach⟩ := hw.held
  refine h.append hreach.grows ?_ hw.constants ?_ ?_ fun _ hv => Or.inr hv
  · intro w k hk
    rw [hw.kinds] at hk
    exact Or.inl hk
  · intro k hcloses
    exact hcloses.of_eq hw.settles.contents hw.settles.touched hw.settles.foreign
  · intro k w heq
    cases heq
    exact hs.held hheld

theorem WriteBacks.canonical {ls : List Location} (hw : WriteBacks ls s t) (hs : s.Sound)
    (h : s.Canonical waiting) : t.Canonical waiting := by
  induction hw with
  | nil => exact h
  | cons first _ ih =>
    obtain ⟨_, _, _, hreach⟩ := first.held
    exact ih hreach.sound (first.canonical hs h)

theorem Assigns.canonical {l : Location} {v : ValueId} (ha : Assigns l v s t) (hs : s.Sound)
    (h : s.Canonical waiting) : t.Canonical waiting := by
  obtain ⟨u, hw, rfl⟩ := ha.before
  exact (hw.canonical hs h).learn rfl rfl fun hcloses => hcloses.hold l v

end Steps

section Records
variable {m : Machine} {r : Record} {s t : Lifting} {waiting : List ValueId}

theorem Reads.canonical {line : Nat} {operand : Operand} {v : ValueId}
    (hr : Reads m line operand s v t) (h : s.Canonical waiting) : t.Canonical (v :: waiting) := by
  obtain ⟨l, _, hf⟩ := hr
  exact hf.canonical h

theorem ReadsAll.canonical {line : Nat} {operands : List Operand} {vs : List ValueId}
    (hr : ReadsAll m line operands s vs t) (h : s.Canonical waiting) :
    t.Canonical (vs ++ waiting) := by
  induction hr generalizing waiting with
  | nil => exact h
  | cons first _ ih => exact (ih (first.canonical h)).mono (List.perm_middle.subset)

theorem canonical_after (a : Action) (h : s.Canonical waiting) : (a.after s).Canonical waiting := by
  unfold Action.after
  cases a.forgets with
  | none => exact h
  | some space => exact h.learn rfl rfl fun hcloses => hcloses.forget space

/-- The operation of a record reads all that was waiting for it. -/
theorem Acts.canonical {a : Action} {values : List ValueId} (hacts : Acts a s t)
    (ha : Suits m r values a) (hs : s.Sound) (h : s.Canonical values) : t.Canonical [] := by
  cases hacts with
  | perform effect settled appends after =>
    have hop := (ha.perform effect).2
    rw [after]
    refine canonical_after a (appends.canonical (settled.canonical hs h) hop.other fun v hv => ?_)
    exact Or.inl (hop.inputs ▸ hv)
  | @define _ _ out _ _ effect settled emits assigns =>
    obtain ⟨hout, hop⟩ := (ha.define effect).2 out
    obtain ⟨id, hreach⟩ := emits.reaches
    have hsound := sound_after hreach.sound (ha.clear settled.settles emits.alike.pending)
    refine assigns.canonical hsound ?_
    refine canonical_after a (emits.canonical (settled.canonical hs h) hout fun v hv => ?_)
    exact Or.inl (hop.inputs ▸ hv)

/-- A record leaves nothing waiting. -/
theorem Lifts.canonical (hl : Lifts m r s t) (hs : s.Sound) (h : s.Canonical []) :
    t.Canonical [] := by
  obtain ⟨reads, asks, acts⟩ := hl
  obtain ⟨_, hreach⟩ := reads.reaches hs
  have hvalues := reads.canonical h
  rw [List.append_nil] at hvalues
  exact acts.canonical asks.suits hreach.sound hvalues

theorem LiftsAll.canonical {rs : List Record} (hl : LiftsAll m rs s t) (hs : s.Sound)
    (h : s.Canonical []) : t.Canonical [] := by
  induction hl with
  | nil => exact h
  | cons _ first _ ih =>
    obtain ⟨_, hreach⟩ := first.reaches hs
    exact ih hreach.sound (first.canonical hs h)

end Records
end Lift

/-- Values of a unit that is lifted are canonical, before and after dead code elimination: every
output is defined by an operation, every constant and every entry value is read by one, no two of them
stand for the same, none is the entry value of a constant, and what is written back has the size of
its location. -/
theorem Machine.lifted_values_are_canonical {m : Machine} {u : CodeUnit} {b : Lifting}
    (hl : m.lift u = .ok () b) :
    b.graph.Canonical ∧
      ∃ removed g, b.graph.eliminateDeadCode = .ok removed g ∧ g.Canonical := by
  obtain ⟨s, hrecords, hw⟩ := lifts_of_lift hl
  obtain ⟨_, h₁⟩ := hrecords.reaches Lifting.sound_empty
  obtain ⟨_, h₂⟩ := hw.reaches h₁.sound
  have hs : s.Canonical [] := hrecords.canonical Lifting.sound_empty Lifting.canonical_empty
  have hb : b.graph.Canonical := (hw.canonical h₁.sound hs).graph h₂.sound
  have horderly : b.graph.Orderly := h₂.sound.graph
  obtain ⟨R, g, hok, hsweep⟩ := horderly.consistent.exists_sweeping
  exact ⟨hb, R.card, g, hok, hb.pruned horderly hsweep.consistent hsweep.pruned⟩

/-- A sum of what memory holds on entry, which another sum overwrites, and the same memory again
after a store. -/
def overwrittenSum : CodeUnit :=
  { name := "f", line := 1, records := [
    ⟨2, some (.name "RBX"), "INT_ADD", [.varnode "ram" 0x1000 8, .varnode "const" 1 8]⟩,
    ⟨3, some (.name "RBX"), "INT_ADD", [.name "RAX", .varnode "const" 1 8]⟩,
    ⟨4, none, "STORE", [.name "ram", .name "RDI", .name "RBX"]⟩,
    ⟨5, some (.name "RCX"), "COPY", [.varnode "ram" 0x1000 8]⟩] }

theorem overwrittenSum_values_are_canonical :
    ∃ b, ({} : Machine).lift overwrittenSum = .ok () b ∧
      b.graph.kind? ⟨0⟩ = some (.entry ⟨.ram, 0x1000, 8⟩, 8) ∧ b.graph.Canonical ∧
      ∃ removed g, b.graph.eliminateDeadCode = .ok removed g ∧ g.Canonical := by
  have hlifted : (({} : Machine).lifted? overwrittenSum).map (fun b => b.graph.kind? ⟨0⟩) =
      some (some (.entry ⟨.ram, 0x1000, 8⟩, 8)) := by decide +kernel
  obtain ⟨b, hb, hkind⟩ := Option.map_eq_some_iff.mp hlifted
  have hl := Machine.lift_of_lifted? hb
  exact ⟨b, hl, hkind, Machine.lifted_values_are_canonical hl⟩

end DefUse
