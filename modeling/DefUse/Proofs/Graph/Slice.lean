import Mathlib.Data.List.Sort
import Mathlib.Logic.Relation
import Mathlib.Order.Bounds.Basic
import DefUse.Graph.Slice
import DefUse.Proofs.Graph.Arrange
import DefUse.Proofs.Graph.Consistent

namespace DefUse

section Spread
variable {α : Type} [DecidableEq α] {next : α → List α}

theorem mem_unseen_of_mem_spread {unseen work : List α} {a : α}
    (h : a ∈ spread next unseen work) : a ∈ unseen := by
  fun_induction spread next unseen work with
  | case1 unseen => cases h
  | case2 unseen b work hb ih =>
    rcases List.mem_cons.mp h with rfl | h
    · exact hb
    · exact List.mem_of_mem_erase (ih h)
  | case3 unseen b work hb ih => exact ih h

theorem nodup_spread {unseen : List α} (hnodup : unseen.Nodup) (work : List α) :
    (spread next unseen work).Nodup := by
  fun_induction spread next unseen work with
  | case1 unseen => exact List.nodup_nil
  | case2 unseen b work hb ih =>
    refine List.nodup_cons.mpr ⟨?_, ih (hnodup.erase b)⟩
    intro hmem
    exact hnodup.not_mem_erase (mem_unseen_of_mem_spread hmem)
  | case3 unseen b work hb ih => exact ih hnodup

/-- A closed set that has the work list has all that the search meets. -/
theorem mem_of_mem_spread {unseen work : List α} {S : Set α} (hwork : ∀ b ∈ work, b ∈ S)
    (hclosed : ∀ b ∈ S, ∀ c ∈ next b, c ∈ S) {a : α} (h : a ∈ spread next unseen work) :
    a ∈ S := by
  fun_induction spread next unseen work with
  | case1 unseen => cases h
  | case2 unseen b work hb ih =>
    have hfirst : b ∈ S := hwork b List.mem_cons_self
    rcases List.mem_cons.mp h with rfl | h
    · exact hfirst
    · apply ih _ h
      intro c hc
      rcases List.mem_append.mp hc with hc | hc
      · exact hclosed b hfirst c hc
      · exact hwork c (List.mem_cons_of_mem b hc)
  | case3 unseen b work hb ih => exact ih (fun c hc => hwork c (List.mem_cons_of_mem b hc)) h

/-- Nothing on the work list is left out, unless it was met before. -/
theorem mem_spread_of_mem_work {unseen work : List α} {a : α} (hwork : a ∈ work)
    (hunseen : a ∈ unseen) : a ∈ spread next unseen work := by
  fun_induction spread next unseen work with
  | case1 unseen => cases hwork
  | case2 unseen b work hb ih =>
    by_cases hab : a = b
    · rw [hab]
      exact List.mem_cons_self
    · have hrest : a ∈ work := (List.mem_cons.mp hwork).resolve_left hab
      apply List.mem_cons_of_mem
      exact ih (List.mem_append_right _ hrest) ((List.mem_erase_of_ne hab).mpr hunseen)
  | case3 unseen b work hb ih =>
    have hab : a ≠ b := fun he => hb (he ▸ hunseen)
    exact ih ((List.mem_cons.mp hwork).resolve_left hab) hunseen

/-- Nor is anything that what it meets leads to. -/
theorem mem_spread_of_mem_next {unseen work : List α} {a c : α}
    (ha : a ∈ spread next unseen work) (hc : c ∈ next a) (hunseen : c ∈ unseen) :
    c ∈ spread next unseen work := by
  fun_induction spread next unseen work with
  | case1 unseen => cases ha
  | case2 unseen b work hb ih =>
    by_cases hcb : c = b
    · rw [hcb]
      exact List.mem_cons_self
    · have hleft : c ∈ unseen.erase b := (List.mem_erase_of_ne hcb).mpr hunseen
      apply List.mem_cons_of_mem
      rcases List.mem_cons.mp ha with rfl | ha
      · exact mem_spread_of_mem_work (List.mem_append_left _ hc) hleft
      · exact ih ha hleft
  | case3 unseen b work hb ih => exact ih ha hunseen

end Spread

/-- Lists in order of creation with the same members are the same. -/
theorem eq_of_increasing {vs ws : List ValueId} (hv : vs.Pairwise fun a b => a.index < b.index)
    (hw : ws.Pairwise fun a b => a.index < b.index) (hmem : ∀ v, v ∈ vs ↔ v ∈ ws) : vs = ws := by
  have hirrefl : Std.Irrefl fun a b : ValueId => a.index < b.index := ⟨fun _ => Nat.lt_irrefl _⟩
  have hantisymm : Std.Antisymm fun a b : ValueId => a.index < b.index :=
    ⟨fun _ _ hab hba => absurd hba (Nat.lt_asymm hab)⟩
  exact hv.eq_of_mem_iff hw hmem

namespace Graph

/-- `w` is the output of an operation that is on record as a reader of `v`. -/
def Feeds (g : Graph) (v w : ValueId) : Prop :=
  ∃ x, g.value? v = some x ∧ ∃ u ∈ x.uses, ∃ node, g.node? u.op = some node ∧
    node.op.output = some w

/-- `w` is the output of a linked operation that reads `v`. -/
def Flows (g : Graph) (v w : ValueId) : Prop :=
  ∃ id op, g.linked? id = some op ∧ v ∈ op.inputs ∧ op.output = some w

/-- `S` has the live seeds and, with any value, the outputs of its readers. -/
structure Slices (g : Graph) (seeds : List ValueId) (S : Set ValueId) : Prop where
  seeds : ∀ v ∈ seeds, (g.value? v).isSome = true → v ∈ S
  closed : ∀ {v w}, v ∈ S → g.Feeds v w → w ∈ S

variable {g : Graph}

theorem mem_dependents {v w : ValueId} : w ∈ g.dependents v ↔ g.Feeds v w := by
  unfold dependents Feeds
  cases hx : g.value? v with
  | none => simp
  | some x => simp [List.mem_filterMap, Option.bind_eq_some_iff]

theorem mem_sliceDomain_of_live {v : ValueId} (h : (g.value? v).isSome = true) :
    v ∈ g.sliceDomain := by
  obtain ⟨x, hx⟩ := Option.isSome_iff_exists.mp h
  rw [sliceDomain, List.mem_eraseDups, List.mem_append, List.mem_map]
  exact Or.inl ⟨(v, x), Values.mem_list.mpr hx, rfl⟩

theorem mem_sliceDomain_of_feeds {v w : ValueId} (h : g.Feeds v w) : w ∈ g.sliceDomain := by
  obtain ⟨x, _, u, _, node, hnode, hout⟩ := h
  rw [sliceDomain, List.mem_eraseDups, List.mem_append, List.mem_filterMap]
  exact Or.inr ⟨(u.op, node), mem_nodeList.mpr hnode, hout⟩

theorem mem_forwardSlice {seeds : List ValueId} {v : ValueId} :
    v ∈ g.forwardSlice seeds ↔
      v ∈ spread g.dependents g.sliceDomain (seeds.filter fun v => (g.value? v).isSome) := by
  rw [forwardSlice]
  exact (List.mergeSort_perm _ _).mem_iff

/-- A slice is listed in order of creation, each value once. -/
theorem increasing_forwardSlice (g : Graph) (seeds : List ValueId) :
    (g.forwardSlice seeds).Pairwise fun a b => a.index < b.index := by
  have hsorted : (g.forwardSlice seeds).Pairwise fun a b => decide (a.index ≤ b.index) = true := by
    apply List.pairwise_mergeSort
    · intro a b c hab hbc
      exact decide_eq_true (Nat.le_trans (of_decide_eq_true hab) (of_decide_eq_true hbc))
    · intro a b
      simpa using Nat.le_total a.index b.index
  have hnodup : (g.forwardSlice seeds).Nodup := by
    rw [forwardSlice, (List.mergeSort_perm _ _).nodup_iff]
    exact nodup_spread (nodup_eraseDups _) _
  refine hsorted.imp₂ ?_ hnodup
  intro a b hle hne
  have hindex : a.index ≠ b.index := by
    intro he
    cases a
    cases b
    exact hne (congrArg ValueId.mk he)
  exact Nat.lt_of_le_of_ne (of_decide_eq_true hle) hindex

theorem slices_forwardSlice (g : Graph) (seeds : List ValueId) :
    g.Slices seeds {v | v ∈ g.forwardSlice seeds} where
  seeds v hv hlive := by
    apply mem_forwardSlice.mpr
    exact mem_spread_of_mem_work (List.mem_filter.mpr ⟨hv, hlive⟩) (mem_sliceDomain_of_live hlive)
  closed {v w} hv hfeeds := by
    apply mem_forwardSlice.mpr
    exact mem_spread_of_mem_next (mem_forwardSlice.mp hv) (mem_dependents.mpr hfeeds)
      (mem_sliceDomain_of_feeds hfeeds)

theorem Slices.mem_of_mem_forwardSlice {seeds : List ValueId} {S : Set ValueId}
    (hS : g.Slices seeds S) {v : ValueId} (hv : v ∈ g.forwardSlice seeds) : v ∈ S := by
  refine mem_of_mem_spread ?_ ?_ (mem_forwardSlice.mp hv)
  · intro b hb
    obtain ⟨hmem, hlive⟩ := List.mem_filter.mp hb
    exact hS.seeds b hmem hlive
  · intro b hb c hc
    exact hS.closed hb (mem_dependents.mp hc)

theorem isLeast_forwardSlice (g : Graph) (seeds : List ValueId) :
    IsLeast {S : Set ValueId | g.Slices seeds S} {v | v ∈ g.forwardSlice seeds} :=
  ⟨g.slices_forwardSlice seeds, fun _ hS _ hv => Slices.mem_of_mem_forwardSlice hS hv⟩

theorem Consistent.feeds_iff (hc : g.Consistent) {v w : ValueId} : g.Feeds v w ↔ g.Flows v w := by
  constructor
  · rintro ⟨x, hx, u, hu, node, hnode, hout⟩
    obtain ⟨op, hop, hin⟩ := (hc.mem_uses hx u).mp hu
    rw [linked?_eq_some_iff, hnode] at hop
    cases hop
    exact ⟨u.op, op, linked?_eq_some_iff.mpr hnode, List.mem_of_getElem? hin, hout⟩
  · rintro ⟨id, op, hop, hv, hout⟩
    obtain ⟨x, hx⟩ := Option.isSome_iff_exists.mp (hc.input_live hop hv)
    obtain ⟨i, hi⟩ := List.getElem?_of_mem hv
    have huse : (⟨id, i⟩ : Use) ∈ x.uses := (hc.mem_uses hx ⟨id, i⟩).mpr ⟨op, hop, hi⟩
    exact ⟨x, hx, ⟨id, i⟩, huse, ⟨op, true⟩, linked?_eq_some_iff.mp hop, hout⟩

theorem Consistent.live_of_flows (hc : g.Consistent) {v w : ValueId} (h : g.Flows v w) :
    (g.value? w).isSome = true := by
  obtain ⟨id, op, hop, _, hout⟩ := h
  exact hc.output_live hop hout

theorem Consistent.operand_live_of_flows (hc : g.Consistent) {v w : ValueId} (h : g.Flows v w) :
    (g.value? v).isSome = true := by
  obtain ⟨id, op, hop, hv, _⟩ := h
  exact hc.input_live hop hv

/-- The slice is what the live seeds flow into. -/
theorem Consistent.mem_forwardSlice_iff (hc : g.Consistent) {seeds : List ValueId} {v : ValueId} :
    v ∈ g.forwardSlice seeds ↔
      ∃ s ∈ seeds, (g.value? s).isSome = true ∧ Relation.ReflTransGen g.Flows s v := by
  constructor
  · intro hv
    have hS : g.Slices seeds
        {v | ∃ s ∈ seeds, (g.value? s).isSome = true ∧ Relation.ReflTransGen g.Flows s v} := by
      refine ⟨fun s hs hlive => ⟨s, hs, hlive, .refl⟩, ?_⟩
      rintro w z ⟨s, hs, hlive, hpath⟩ hfeeds
      exact ⟨s, hs, hlive, hpath.tail (hc.feeds_iff.mp hfeeds)⟩
    exact hS.mem_of_mem_forwardSlice hv
  · rintro ⟨s, hs, hlive, hpath⟩
    have hslice := g.slices_forwardSlice seeds
    induction hpath with
    | refl => exact hslice.seeds s hs hlive
    | tail _ hflows ih => exact hslice.closed ih (hc.feeds_iff.mpr hflows)

theorem Consistent.live_of_mem_forwardSlice (hc : g.Consistent) {seeds : List ValueId}
    {v : ValueId} (hv : v ∈ g.forwardSlice seeds) : (g.value? v).isSome = true := by
  obtain ⟨s, _, hlive, hpath⟩ := hc.mem_forwardSlice_iff.mp hv
  cases hpath with
  | refl => exact hlive
  | tail _ hflows => exact hc.live_of_flows hflows

end Graph
end DefUse
