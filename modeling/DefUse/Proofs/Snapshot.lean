import DefUse.Assoc
import DefUse.Snapshot

namespace DefUse

theorem Space.eq_of_rank_eq {a b : Space} (h : a.rank = b.rank) : a = b := by
  cases a <;> cases b <;> simp_all [rank]

namespace Location
variable {a b c : Location}

theorem order_eq_lt_iff : a.order b = .lt ↔
    a.space.rank < b.space.rank ∨ a.space.rank = b.space.rank ∧
      (a.offset.toNat < b.offset.toNat ∨ a.offset.toNat = b.offset.toNat ∧ a.size < b.size) := by
  simp only [order, Ordering.then_eq_lt, Nat.compare_eq_lt, Nat.compare_eq_eq]

theorem order_eq_eq_iff : a.order b = .eq ↔ a = b := by
  simp only [order, Ordering.then_eq_eq, Nat.compare_eq_eq]
  constructor
  · intro ⟨hspace, hoffset, hsize⟩
    have hs := Space.eq_of_rank_eq hspace
    have ho := UInt64.toNat_inj.mp hoffset
    cases a
    cases b
    simp_all
  · intro h
    subst h
    exact ⟨rfl, rfl, rfl⟩

theorem order_eq_gt_iff : a.order b = .gt ↔ b.order a = .lt := by
  rw [order_eq_lt_iff]
  simp only [order, Ordering.then_eq_gt, Nat.compare_eq_gt, Nat.compare_eq_eq]
  omega

theorem order_lt_trans (hab : a.order b = .lt) (hbc : b.order c = .lt) : a.order c = .lt := by
  rw [order_eq_lt_iff] at hab hbc ⊢
  omega

theorem isLE_order_iff : (a.order b).isLE = true ↔ ¬ b.order a = .lt := by
  rw [Ordering.isLE_iff_ne_gt, order_eq_gt_iff]

theorem isLE_order_trans (hab : (a.order b).isLE = true) (hbc : (b.order c).isLE = true) :
    (a.order c).isLE = true := by
  rw [isLE_order_iff, order_eq_lt_iff] at hab hbc ⊢
  omega

theorem isLE_order_total (a b : Location) :
    ((a.order b).isLE || (b.order a).isLE) = true := by
  rw [Bool.or_eq_true, isLE_order_iff, isLE_order_iff, order_eq_lt_iff, order_eq_lt_iff]
  omega

theorem eq_of_isLE_order (hab : (a.order b).isLE = true) (hba : (b.order a).isLE = true) :
    a = b := by
  cases h : a.order b with
  | lt => exact absurd h (isLE_order_iff.mp hba)
  | eq => exact order_eq_eq_iff.mp h
  | gt => exact absurd h (Ordering.isLE_iff_ne_gt.mp hab)

theorem order_eq_lt_of_ne (hab : (a.order b).isLE = true) (hne : a ≠ b) : a.order b = .lt := by
  cases h : a.order b with
  | lt => rfl
  | eq => exact absurd (order_eq_eq_iff.mp h) hne
  | gt => exact absurd h (Ordering.isLE_iff_ne_gt.mp hab)

end Location

namespace Snapshot
variable {entries : List (Location × ValueId)} {l : Location}

theorem perm_ofList (entries : List (Location × ValueId)) :
    (ofList entries).entries.Perm entries :=
  List.mergeSort_perm ..

theorem isLE_ofList (entries : List (Location × ValueId)) :
    (ofList entries).entries.Pairwise fun a b => (a.1.order b.1).isLE = true :=
  List.pairwise_mergeSort (fun a b c => @Location.isLE_order_trans a.1 b.1 c.1)
    (fun a b => Location.isLE_order_total a.1 b.1) entries

theorem sorted_ofList (h : (Assoc.keys entries).Nodup) :
    (ofList entries).entries.Pairwise fun a b => a.1.order b.1 = .lt := by
  have hkeys : (Assoc.keys (ofList entries).entries).Nodup :=
    ((perm_ofList entries).map Prod.fst).nodup_iff.mpr h
  have hne := List.pairwise_map.mp hkeys
  refine ((isLE_ofList entries).and hne).imp ?_
  intro a b hab
  exact Location.order_eq_lt_of_ne hab.1 hab.2

/-- Any way to sort the entries gives this order. -/
theorem eq_ofList_of_perm (h : (Assoc.keys entries).Nodup) {sorted : List (Location × ValueId)}
    (hperm : sorted.Perm entries)
    (hsorted : sorted.Pairwise fun a b => (a.1.order b.1).isLE = true) :
    sorted = (ofList entries).entries := by
  refine List.Perm.eq_of_pairwise ?_ hsorted (isLE_ofList entries)
    (hperm.trans (perm_ofList entries).symm)
  intro a b ha hb hab hba
  have hsame := Location.eq_of_isLE_order hab hba
  have hin := (Assoc.get?_eq_some_iff_mem h).mpr (hperm.mem_iff.mp ha)
  have hin' := (Assoc.get?_eq_some_iff_mem h).mpr ((perm_ofList entries).mem_iff.mp hb)
  rw [hsame, hin'] at hin
  exact Prod.ext hsame (Option.some.inj hin).symm

theorem ofList_congr (h : (Assoc.keys entries).Nodup) {other : List (Location × ValueId)}
    (hperm : other.Perm entries) : ofList other = ofList entries := by
  have hsame := eq_ofList_of_perm h ((perm_ofList other).trans hperm) (isLE_ofList other)
  cases ho : ofList other
  cases he : ofList entries
  simp_all

/-- What comes after the location is followed by what comes after it. -/
theorem isAfter_of_le (hs : entries.Pairwise fun a b => a.1.order b.1 = .lt) {i j : Nat}
    (hij : i ≤ j) (h : isAfter entries l i = true) : isAfter entries l j = true := by
  unfold isAfter at h ⊢
  cases hj : entries[j]? with
  | none => rfl
  | some e =>
    obtain ⟨hlt, rfl⟩ := List.getElem?_eq_some_iff.mp hj
    have hi : i < entries.length := by omega
    rw [List.getElem?_eq_getElem hi] at h
    rcases Nat.lt_or_eq_of_le hij with hij | rfl
    · have hbetween := List.pairwise_iff_getElem.mp hs i j hi hlt hij
      simp only [decide_eq_true_eq, Location.order_eq_gt_iff] at h ⊢
      exact Location.order_lt_trans h hbetween
    · exact h

/-- The entry that is left is the last that does not come after the location, or the first one. -/
theorem narrow_spec (hs : entries.Pairwise fun a b => a.1.order b.1 = .lt) (base size : Nat)
    (hbase : base = 0 ∨ isAfter entries l base = false)
    (hsize : ∀ i, base + size ≤ i → isAfter entries l i = true) :
    (narrow entries l base size = 0 ∨
      isAfter entries l (narrow entries l base size) = false) ∧
    ∀ i, narrow entries l base size < i → isAfter entries l i = true := by
  fun_induction narrow entries l base size with
  | case1 base size hmany ih =>
    apply ih
    · cases hmiddle : isAfter entries l (base + size / 2) with
      | true => simpa using hbase
      | false => simp [hmiddle]
    · intro i hi
      cases hmiddle : isAfter entries l (base + size / 2) with
      | true =>
        simp only [hmiddle, dite_true] at hi
        exact isAfter_of_le hs (by omega) hmiddle
      | false =>
        simp only [hmiddle, Bool.false_eq_true, dite_false] at hi
        exact hsize i (by omega)
  | case2 base size hone =>
    exact ⟨hbase, fun i hi => hsize i (by omega)⟩

/-- The search finds what is there, and nothing else. -/
theorem get?_eq_some_iff_mem {s : Snapshot}
    (hs : s.entries.Pairwise fun a b => a.1.order b.1 = .lt) {v : ValueId} :
    s.get? l = some v ↔ (l, v) ∈ s.entries := by
  have hend : ∀ i, 0 + s.entries.length ≤ i → isAfter s.entries l i = true := by
    intro i hi
    rw [isAfter, List.getElem?_eq_none (by omega)]
  obtain ⟨hfirst, hlast⟩ := narrow_spec hs 0 s.entries.length (Or.inl rfl) hend
  unfold get?
  constructor
  · intro h
    cases he : s.entries[narrow s.entries l 0 s.entries.length]? with
    | none =>
      rw [he] at h
      cases h
    | some e =>
      rw [he] at h
      simp only [Location.order_eq_eq_iff] at h
      split at h
      next hsame =>
        cases h
        rw [← hsame]
        exact List.mem_of_getElem? he
      next => cases h
  · intro hmem
    obtain ⟨i, hi, hentry⟩ := List.getElem_of_mem hmem
    have hself : l.order l = .eq := Location.order_eq_eq_iff.mpr rfl
    have hhere : isAfter s.entries l i = false := by
      rw [isAfter, List.getElem?_eq_getElem hi, hentry]
      simp [hself]
    -- the position that is left is neither before nor behind that of the entry
    have hle : i ≤ narrow s.entries l 0 s.entries.length := by
      apply Nat.le_of_not_lt
      intro hlt
      rw [hlast i (by omega)] at hhere
      cases hhere
    have hge : ¬ i < narrow s.entries l 0 s.entries.length := by
      intro hlt
      have hnot : isAfter s.entries l (narrow s.entries l 0 s.entries.length) = false :=
        hfirst.resolve_left (by omega)
      unfold isAfter at hnot
      split at hnot
      next e he =>
        obtain ⟨hin, rfl⟩ := List.getElem?_eq_some_iff.mp he
        have hbetween := List.pairwise_iff_getElem.mp hs i _ hi hin hlt
        rw [hentry] at hbetween
        simp [Location.order_eq_gt_iff.mpr hbetween] at hnot
      next => cases hnot
    have hsame : narrow s.entries l 0 s.entries.length = i := by omega
    rw [hsame, List.getElem?_eq_getElem hi, hentry]
    simp [hself]

/-- A snapshot is the map of a list of entries, in order of locations. -/
structure Exact (s : Snapshot) (entries : List (Location × ValueId)) : Prop where
  perm : s.entries.Perm entries
  ordered : s.entries.Pairwise fun a b => a.1.order b.1 = .lt
  /-- Every way to sort the entries gives the same. -/
  unique : ∀ sorted, sorted.Perm entries →
    (sorted.Pairwise fun a b => (a.1.order b.1).isLE = true) → sorted = s.entries
  found : ∀ l v, s.get? l = some v ↔ (l, v) ∈ entries

theorem exact_ofList (h : (Assoc.keys entries).Nodup) :
    (ofList entries).Exact entries where
  perm := perm_ofList entries
  ordered := sorted_ofList h
  unique _ hperm hsorted := eq_ofList_of_perm h hperm hsorted
  found l v := by
    rw [get?_eq_some_iff_mem (sorted_ofList h)]
    exact (perm_ofList entries).mem_iff

theorem get?_ofList (h : (Assoc.keys entries).Nodup) (l : Location) :
    (ofList entries).get? l = Assoc.get? entries l := by
  apply Option.ext
  intro v
  rw [(exact_ofList h).found, Assoc.get?_eq_some_iff_mem h]

end Snapshot
end DefUse
