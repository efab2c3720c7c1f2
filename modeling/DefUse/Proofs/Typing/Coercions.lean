import Mathlib.Data.List.Forall2
import Mathlib.Data.List.Nodup
import DefUse.Proofs.Typing.Groups

namespace DefUse

namespace Use

/-- By operation, then position, the first strictly before the second. -/
def Before (a b : Use) : Prop :=
  a.op.index < b.op.index ∨ a.op.index = b.op.index ∧ a.position < b.position

theorem le_trans {a b c : Use} (hab : a.le b = true) (hbc : b.le c = true) : a.le c = true := by
  simp only [le, Bool.or_eq_true, Bool.and_eq_true, decide_eq_true_eq] at *
  omega

theorem le_total (a b : Use) : (a.le b || b.le a) = true := by
  simp only [le, Bool.or_eq_true, Bool.and_eq_true, decide_eq_true_eq]
  omega

theorem before_of_le_of_ne {a b : Use} (hle : a.le b = true) (hne : a ≠ b) : a.Before b := by
  obtain ⟨⟨i⟩, j⟩ := a
  obtain ⟨⟨k⟩, l⟩ := b
  simp only [le, Bool.or_eq_true, Bool.and_eq_true, decide_eq_true_eq] at hle
  simp only [ne_eq, mk.injEq, OpId.mk.injEq] at hne
  show i < k ∨ i = k ∧ j < l
  omega

end Use

namespace Typing

/-- The position `u` of a linked operation asks for the category `expected`, and the type `found` of
the value there is of the other one. -/
structure Disagrees (g : Graph) (t : Typing) (u : Use) (expected : Behavior) (found : ValueType) :
    Prop where
  reads : ∃ op v, g.linked? u.op = some op ∧ op.inputs[u.position]? = some v ∧
    op.inputAt? u.position = some expected ∧ t.typeOf? v = some found
  concrete : expected = .integer ∨ expected = .float
  differs : found.behavior ≠ expected

/-- The reports of values that the poll takes for floats at a width without floats, in order of
creation. -/
def floatSizes (g : Graph) (p : Poll) : List Diagnostic :=
  (g.values.list.filter fun e => p.known? e.1 = some .float ∧ ¬(e.2.size = 4 ∨ e.2.size = 8)).map
    fun e => .floatSize e.1 e.2.size

/-- Types, reports and coercions that are just what the graph and the settled poll call for. -/
structure Exact (g : Graph) (p : Poll) (t : Typing) : Prop where
  keys : t.types.map Prod.fst = g.values.list.map Prod.fst
  typed : ∀ {v x}, g.value? v = some x → ∃ type, t.typeOf? v = some type ∧ type.size = x.size ∧
    (type.behavior = .float ↔ p.known? v = some .float ∧ (x.size = 4 ∨ x.size = 8)) ∧
    ∀ {b}, g.Declares v b → type.behavior = b ∨ b = .float ∧ ¬(x.size = 4 ∨ x.size = 8)
  increasing : t.coercions.Pairwise Use.Before
  mem_coercions : ∀ u, u ∈ t.coercions ↔ ∃ expected found, Disagrees g t u expected found
  diagnostics : ∃ reports, t.diagnostics = floatSizes g p ++ reports ∧
    List.Forall₂ (fun u d => ∃ expected found, Disagrees g t u expected found ∧
      d = .mismatch u expected found) t.coercions reports

variable {g : Graph} {p : Poll}

theorem decide_float {v : ValueId} {size : Nat} (hknown : p.known? v = some .float) :
    decide p v size =
      if size = 4 ∨ size = 8 then (.float size, []) else (.int size, [.floatSize v size]) := by
  split
  next hsize => simp only [decide, hknown, Option.getD_some, Behavior.resolve_float hsize]
  next hsize =>
    simp only [decide, hknown, Option.getD_some, Behavior.resolve_float_eq_none hsize, if_true]

theorem decide_not_float {v : ValueId} {size : Nat} (hknown : p.known? v ≠ some .float) :
    decide p v size = (.int size, []) := by
  unfold decide
  cases h : p.known? v with
  | none => rfl
  | some b =>
    cases b with
    | float => exact absurd h hknown
    | _ => rfl

theorem size_decide (p : Poll) (v : ValueId) (size : Nat) : (decide p v size).1.size = size := by
  by_cases hknown : p.known? v = some .float
  · rw [decide_float hknown]
    split <;> rfl
  · rw [decide_not_float hknown]
    rfl

theorem behavior_decide_eq_float_iff {v : ValueId} {size : Nat} :
    (decide p v size).1.behavior = .float ↔
      p.known? v = some .float ∧ (size = 4 ∨ size = 8) := by
  by_cases hknown : p.known? v = some .float
  · rw [decide_float hknown]
    split
    next hsize => simp [hknown, hsize, ValueType.behavior]
    next hsize => simp [hsize, ValueType.behavior]
  · rw [decide_not_float hknown]
    simp [hknown, ValueType.behavior]

theorem reports_decide (p : Poll) (v : ValueId) (size : Nat) :
    (decide p v size).2 =
      if p.known? v = some .float ∧ ¬(size = 4 ∨ size = 8) then [.floatSize v size] else [] := by
  by_cases hknown : p.known? v = some .float
  · rw [decide_float hknown]
    by_cases hsize : size = 4 ∨ size = 8 <;> simp [hknown, hsize]
  · rw [decide_not_float hknown]
    simp [hknown]

theorem flatMap_reports (g : Graph) (p : Poll) :
    g.values.list.flatMap (fun e => (decide p e.1 e.2.size).2) = floatSizes g p := by
  unfold floatSizes
  induction g.values.list with
  | nil => rfl
  | cons e rest ih =>
    rw [List.flatMap_cons, ih, reports_decide]
    by_cases h : p.known? e.1 = some .float ∧ ¬(e.2.size = 4 ∨ e.2.size = 8)
    · rw [if_pos h, List.filter_cons_of_pos (by simpa using h)]
      rfl
    · rw [if_neg h, List.filter_cons_of_neg (by simpa using h)]
      rfl

/-- A declared category stands, if there is a type for it. -/
theorem behavior_decide_of_declares (hp : p.Fits g) {v : ValueId} {b : Behavior}
    (hb : g.Declares v b) (size : Nat) :
    (decide p v size).1.behavior = b ∨ b = .float ∧ ¬(size = 4 ∨ size = 8) := by
  have hknown : p.known? v = some b := by
    simp only [Poll.known?, (hp.declared v b).mpr hb]
  cases b with
  | any => exact absurd hb.1 (by simp [Behavior.isConcrete])
  | integer =>
    rw [decide_not_float (by simp [hknown])]
    exact Or.inl rfl
  | float =>
    rw [decide_float hknown]
    split
    next => exact Or.inl rfl
    next hsize => exact Or.inr ⟨rfl, hsize⟩

theorem disagreement?_eq_some_iff {found : ValueType} {u w : Use} {d : Diagnostic} :
    disagreement? g found u = some (w, d) ↔ w = u ∧ requirement g u ≠ .any ∧
      found.behavior ≠ requirement g u ∧ d = .mismatch u (requirement g u) found := by
  simp only [disagreement?, ValueType.satisfies]
  grind

theorem mem_disagreements {types : Assoc ValueId ValueType} {e : ValueId × Value} {u : Use}
    {d : Diagnostic} :
    (u, d) ∈ disagreements g types e ↔ ∃ found, types.get? e.1 = some found ∧ u ∈ e.2.uses ∧
      disagreement? g found u = some (u, d) := by
  unfold disagreements
  cases types.get? e.1 with
  | none => simp
  | some found =>
    simp only [List.mem_filterMap, Option.some.injEq, exists_eq_left']
    constructor
    · rintro ⟨w, hw, heq⟩
      obtain rfl : u = w := (disagreement?_eq_some_iff.mp heq).1
      exact ⟨hw, heq⟩
    · exact fun ⟨hu, heq⟩ => ⟨u, hu, heq⟩

/-- Each use of a value disagrees once at most. -/
theorem sublist_uses (types : Assoc ValueId ValueType) (e : ValueId × Value) :
    ((disagreements g types e).map Prod.fst).Sublist e.2.uses := by
  unfold disagreements
  cases types.get? e.1 with
  | none => exact List.nil_sublist _
  | some found =>
    have hkept : (e.2.uses.filterMap (disagreement? g found)).map Prod.fst =
        e.2.uses.filter fun u => !found.satisfies (requirement g u) := by
      induction e.2.uses with
      | nil => rfl
      | cons u rest ih =>
        simp only [List.filterMap_cons, List.filter_cons, disagreement?]
        cases found.satisfies (requirement g u) with
        | true => simpa using ih
        | false => simpa using ih
    show ((e.2.uses.filterMap (disagreement? g found)).map Prod.fst).Sublist e.2.uses
    rw [hkept]
    exact List.filter_sublist

/-- A position disagrees when the value it reads has another category than it asks for. -/
theorem mem_disputes (hc : g.Consistent) {u : Use} {d : Diagnostic} :
    (u, d) ∈ disputes g p ↔
      ∃ expected found, Disagrees g (conclude g p) u expected found ∧
        d = .mismatch u expected found := by
  rw [disputes, (List.mergeSort_perm _ _).mem_iff, List.mem_flatMap]
  constructor
  · rintro ⟨⟨v, x⟩, he, hmem⟩
    obtain ⟨found, htype, hu, heq⟩ := mem_disagreements.mp hmem
    obtain ⟨_, hany, hdiffers, rfl⟩ := disagreement?_eq_some_iff.mp heq
    obtain ⟨op, hop, hin⟩ := (hc.mem_uses (Values.mem_list.mp he) u).mp hu
    have hat : op.inputAt? u.position = some (requirement g u) := by
      unfold requirement at hany ⊢
      rw [hop, Option.bind_some] at hany ⊢
      cases hat : op.inputAt? u.position with
      | none => simp [hat] at hany
      | some b => rfl
    refine ⟨_, found, ⟨⟨op, v, hop, hin, hat, htype⟩, ?_, hdiffers⟩, rfl⟩
    revert hany
    cases requirement g u <;> simp
  · rintro ⟨expected, found, ⟨⟨op, v, hop, hin, hat, htype⟩, hconcrete, hdiffers⟩, rfl⟩
    obtain ⟨x, hx⟩ := Option.isSome_iff_exists.mp (hc.input_live hop (List.mem_of_getElem? hin))
    have hask : requirement g u = expected := by
      rw [requirement, hop, Option.bind_some, hat]
      rfl
    refine ⟨(v, x), Values.mem_list.mpr hx, mem_disagreements.mpr
      ⟨found, htype, (hc.mem_uses hx u).mpr ⟨op, hop, hin⟩, ?_⟩⟩
    rw [disagreement?_eq_some_iff, hask]
    refine ⟨rfl, ?_, hdiffers, rfl⟩
    rcases hconcrete with rfl | rfl <;> simp

theorem nodup_disputes (hc : g.Consistent) (p : Poll) : ((disputes g p).map Prod.fst).Nodup := by
  have hperm := (List.mergeSort_perm (g.values.list.flatMap (disagreements g (decidedTypes g p)))
    fun a b => a.1.le b.1).map Prod.fst
  rw [disputes, hperm.nodup_iff, List.map_flatMap, List.nodup_flatMap]
  refine ⟨?_, ?_⟩
  · rintro ⟨v, x⟩ he
    exact (sublist_uses _ _).nodup (hc.nodup_uses (Values.mem_list.mp he))
  · -- a position reads one value, so the uses of two values have none in common
    have hkeys := List.pairwise_map.mp g.values.nodup_keys
    refine List.Pairwise.imp_of_mem ?_ hkeys
    rintro ⟨v, x⟩ ⟨w, y⟩ hv hw hne u hu hu'
    obtain ⟨op, hop, hin⟩ := (hc.mem_uses (Values.mem_list.mp hv) u).mp ((sublist_uses _ _).subset hu)
    obtain ⟨op', hop', hin'⟩ :=
      (hc.mem_uses (Values.mem_list.mp hw) u).mp ((sublist_uses _ _).subset hu')
    obtain rfl : op = op' := Option.some.inj (hop.symm.trans hop')
    exact hne (Option.some.inj (hin.symm.trans hin'))

theorem increasing_disputes (hc : g.Consistent) (p : Poll) :
    ((disputes g p).map Prod.fst).Pairwise Use.Before := by
  have hsorted : (disputes g p).Pairwise fun a b => a.1.le b.1 = true := by
    apply List.pairwise_mergeSort
    · intro a b c hab hbc
      exact Use.le_trans hab hbc
    · intro a b
      exact Use.le_total a.1 b.1
  have hle : ((disputes g p).map Prod.fst).Pairwise fun a b => a.le b = true :=
    List.pairwise_map.mpr hsorted
  exact hle.imp₂ (fun _ _ => Use.before_of_le_of_ne) (nodup_disputes hc p)

theorem exact_conclude (hc : g.Consistent) (hp : p.Fits g) : Exact g p (conclude g p) where
  keys := keys_conclude g p
  typed {v x} hx := ⟨_, typeOf?_conclude p hx, size_decide p v x.size,
    behavior_decide_eq_float_iff, fun hb => behavior_decide_of_declares hp hb x.size⟩
  increasing := increasing_disputes hc p
  mem_coercions u := by
    rw [conclude, List.mem_map]
    constructor
    · rintro ⟨⟨w, d⟩, hmem, rfl⟩
      obtain ⟨expected, found, hdis, _⟩ := (mem_disputes hc).mp hmem
      exact ⟨expected, found, hdis⟩
    · rintro ⟨expected, found, hdis⟩
      exact ⟨_, (mem_disputes hc).mpr ⟨expected, found, hdis, rfl⟩, rfl⟩
  diagnostics := by
    refine ⟨(disputes g p).map Prod.snd, ?_, ?_⟩
    · rw [← flatMap_reports]
      rfl
    · simp only [conclude]
      rw [List.forall₂_map_left_iff, List.forall₂_map_right_iff, List.forall₂_same]
      rintro ⟨u, d⟩ hmem
      exact (mem_disputes hc).mp hmem

/-- Typing a consistent graph is never refused, and what it gives is exact. -/
theorem exists_exact (hc : g.Consistent) (ht : g.CallsTyped) :
    ∃ start opened p t, openPoll g g.values.list = .ok start ∧ start.voted.map (·.1) = opened ∧
      settle g opened (opened.length + 1) start = .ok p ∧ infer g = .ok t ∧ Exact g p t := by
  obtain ⟨start, hstart, hfits, _⟩ := exists_openPoll hc
  have hvoting := hfits.voting hc ht
  obtain ⟨p, hsettle, hp⟩ := hvoting.exists_settle hfits ((start.voted.map Prod.fst).length + 1)
  exact ⟨start, _, p, conclude g p, hstart, rfl, hsettle,
    infer_eq_conclude hc ht hstart hsettle, exact_conclude hc hp⟩

namespace Exact
variable {t : Typing}

theorem leastMismatch?_eq (h : Exact g p t) :
    (t.coercions = [] ∧ t.leastMismatch? = none) ∨
      ∃ u expected found, t.coercions.head? = some u ∧ Disagrees g t u expected found ∧
        t.leastMismatch? = some (u, expected, found) := by
  obtain ⟨reports, hdiag, hreports⟩ := h.diagnostics
  have hskip {α : Type} (f : Diagnostic → Option α) (hf : ∀ v size, f (.floatSize v size) = none) :
      t.diagnostics.findSome? f = reports.findSome? f := by
    have hsizes : (floatSizes g p).findSome? f = none := by
      rw [List.findSome?_eq_none_iff]
      intro d hd
      obtain ⟨e, _, rfl⟩ := List.mem_map.mp hd
      exact hf e.1 e.2.size
    rw [hdiag, List.findSome?_append, hsizes, Option.none_or]
  rw [leastMismatch?, hskip _ fun _ _ => rfl]
  generalize t.coercions = coercions at hreports
  cases hreports with
  | nil => exact Or.inl ⟨rfl, rfl⟩
  | cons hfirst _ =>
    obtain ⟨expected, found, hdis, rfl⟩ := hfirst
    exact Or.inr ⟨_, expected, found, rfl, hdis, rfl⟩

/-- The first coercion comes before all other positions that disagree. -/
theorem head_before (h : Exact g p t) {u w : Use} (hu : t.coercions.head? = some u)
    {expected : Behavior} {found : ValueType} (hw : Disagrees g t w expected found) :
    w = u ∨ u.Before w := by
  have hmem := (h.mem_coercions w).mpr ⟨expected, found, hw⟩
  have hincreasing := h.increasing
  revert hu hmem hincreasing
  cases t.coercions with
  | nil => simp
  | cons first rest =>
    rintro ⟨⟩ hmem hincreasing
    rcases List.mem_cons.mp hmem with rfl | hmem
    · exact Or.inl rfl
    · exact Or.inr ((List.pairwise_cons.mp hincreasing).1 w hmem)

end Exact
end Typing
end DefUse
