import Mathlib.Data.String.Basic
import DefUse.Statistics

namespace DefUse
namespace Tally

theorem add_add (name : String) (m n : Nat) (t : Tally) :
    (t.add name m).add name n = t.add name (m + n) := by
  induction t with
  | nil => simp [add]
  | cons e rest ih =>
    obtain ⟨other, k⟩ := e
    by_cases heq : name = other
    · simp [add, heq, Nat.add_assoc]
    · by_cases hlt : name < other
      · simp [add, heq, hlt]
      · simp [add, heq, hlt, ih]

theorem add_add_comm_of_lt {a b : String} (m n : Nat) (t : Tally) (hab : a < b) :
    (t.add a m).add b n = (t.add b n).add a m := by
  have hne : b ≠ a := hab.ne'
  have hnot : ¬ b < a := hab.not_gt
  induction t with
  | nil => simp [add, hab, hab.ne, hne, hnot]
  | cons e rest ih =>
    obtain ⟨other, k⟩ := e
    rcases lt_trichotomy a other with ha | rfl | ha
    · -- `a` goes in front of `other`, wherever `b` goes
      have hfront : ∀ (k : Nat) (t : Tally),
          add a m ((other, k) :: t) = (a, m) :: (other, k) :: t :=
        fun k t => by simp [add, ha, ha.ne]
      rw [hfront, add, if_neg hne, if_neg hnot]
      rcases lt_trichotomy b other with hb | rfl | hb
      · simp [add, hb, hb.ne, hab, hab.ne]
      · simp [add, ha, ha.ne]
      · simp [add, hb.ne', hb.not_gt, ha, ha.ne]
    · simp [add, hne, hnot]
    · have hb : other < b := ha.trans hab
      simp [add, ha.ne', ha.not_gt, hb.ne', hb.not_gt, ih]

theorem add_add_comm (a b : String) (m n : Nat) (t : Tally) :
    (t.add a m).add b n = (t.add b n).add a m := by
  rcases lt_trichotomy a b with h | rfl | h
  · exact add_add_comm_of_lt m n t h
  · rw [add_add, add_add, Nat.add_comm]
  · exact (add_add_comm_of_lt n m t h).symm

theorem merge_cons (a : Tally) (name : String) (n : Nat) (b : Tally) :
    a.merge ((name, n) :: b) = (a.add name n).merge b := rfl

theorem add_merge (a b : Tally) (name : String) (n : Nat) :
    (a.add name n).merge b = (a.merge b).add name n := by
  induction b generalizing a with
  | nil => rfl
  | cons e rest ih =>
    obtain ⟨other, k⟩ := e
    rw [merge_cons, merge_cons, add_add_comm, ih]

/-- Counting after a merge is merging what was counted. -/
theorem merge_add (a b : Tally) (name : String) (n : Nat) :
    a.merge (b.add name n) = (a.merge b).add name n := by
  induction b generalizing a with
  | nil => rfl
  | cons e rest ih =>
    obtain ⟨other, k⟩ := e
    rw [add]
    split
    next heq => rw [merge_cons, merge_cons, heq, ← add_merge, add_add]
    next =>
      split
      next => rw [merge_cons, add_merge]
      next => rw [merge_cons, merge_cons, ih]

theorem merge_assoc (a b c : Tally) : (a.merge b).merge c = a.merge (b.merge c) := by
  induction c generalizing b with
  | nil => rfl
  | cons e rest ih =>
    obtain ⟨name, n⟩ := e
    rw [merge_cons, merge_cons, ← merge_add, ih]

/-- The names stand in order, each once. -/
def Sorted (t : Tally) : Prop :=
  t.Pairwise fun a b => a.1 < b.1

theorem name_of_mem_add {name : String} {n : Nat} {t : Tally} {e : String × Nat}
    (he : e ∈ t.add name n) : e.1 = name ∨ ∃ old ∈ t, old.1 = e.1 := by
  induction t with
  | nil =>
    rw [add, List.mem_singleton] at he
    exact Or.inl (congrArg Prod.fst he)
  | cons first rest ih =>
    obtain ⟨other, k⟩ := first
    rw [add] at he
    split at he
    · rcases List.mem_cons.mp he with rfl | hin
      · exact Or.inr ⟨_, List.mem_cons_self, rfl⟩
      · exact Or.inr ⟨e, List.mem_cons_of_mem _ hin, rfl⟩
    · split at he
      · rcases List.mem_cons.mp he with rfl | hin
        · exact Or.inl rfl
        · exact Or.inr ⟨e, hin, rfl⟩
      · rcases List.mem_cons.mp he with rfl | hin
        · exact Or.inr ⟨_, List.mem_cons_self, rfl⟩
        · rcases ih hin with heq | ⟨old, hold, heq⟩
          · exact Or.inl heq
          · exact Or.inr ⟨old, List.mem_cons_of_mem _ hold, heq⟩

theorem Sorted.add {t : Tally} (ht : t.Sorted) (name : String) (n : Nat) :
    (t.add name n).Sorted := by
  induction t with
  | nil => exact List.pairwise_singleton _ _
  | cons first rest ih =>
    obtain ⟨other, k⟩ := first
    obtain ⟨hafter, hrest⟩ := List.pairwise_cons.mp ht
    rcases lt_trichotomy name other with hlt | rfl | hgt
    · rw [Tally.add, if_neg hlt.ne, if_pos hlt]
      refine List.pairwise_cons.mpr ⟨?_, ht⟩
      intro e he
      rcases List.mem_cons.mp he with rfl | hin
      · exact hlt
      · exact hlt.trans (hafter e hin)
    · rw [Tally.add, if_pos rfl]
      exact List.pairwise_cons.mpr ⟨hafter, hrest⟩
    · rw [Tally.add, if_neg hgt.ne', if_neg hgt.not_gt]
      refine List.pairwise_cons.mpr ⟨?_, ih hrest⟩
      intro e he
      rcases name_of_mem_add he with heq | ⟨old, hold, heq⟩
      · show other < e.1
        rw [heq]
        exact hgt
      · show other < e.1
        rw [← heq]
        exact hafter old hold

theorem Sorted.merge {a : Tally} (ha : a.Sorted) (b : Tally) : (a.merge b).Sorted := by
  induction b generalizing a with
  | nil => exact ha
  | cons e rest ih => exact ih (ha.add e.1 e.2)

theorem count_eq_zero {t : Tally} {name : String} (h : ∀ e ∈ t, name < e.1) :
    t.count name = 0 := by
  induction t with
  | nil => rfl
  | cons e rest ih =>
    rw [count, if_neg (h e List.mem_cons_self).ne']
    exact ih fun x hx => h x (List.mem_cons_of_mem _ hx)

theorem Sorted.count_add {t : Tally} (ht : t.Sorted) (name other : String) (n : Nat) :
    (t.add name n).count other = t.count other + if name = other then n else 0 := by
  induction t with
  | nil => simp [Tally.add, count]
  | cons first rest ih =>
    obtain ⟨next, k⟩ := first
    obtain ⟨hafter, hrest⟩ := List.pairwise_cons.mp ht
    rcases lt_trichotomy name next with hlt | rfl | hgt
    · rw [Tally.add, if_neg hlt.ne, if_pos hlt]
      by_cases heq : name = other
      · -- a name in front of all others was not counted before
        have hzero : count ((next, k) :: rest) other = 0 := by
          refine count_eq_zero fun e he => ?_
          rw [← heq]
          rcases List.mem_cons.mp he with rfl | hin
          · exact hlt
          · exact hlt.trans (hafter e hin)
        rw [hzero, count, if_pos heq, if_pos heq, Nat.zero_add]
      · rw [count, if_neg heq, if_neg heq, Nat.add_zero]
    · rw [Tally.add, if_pos rfl, count, count]
      split <;> simp
    · rw [Tally.add, if_neg hgt.ne', if_neg hgt.not_gt, count, count, ih hrest]
      split
      next heq =>
        have hne : name ≠ other := heq ▸ hgt.ne'
        rw [if_neg hne, Nat.add_zero]
      next => rfl

theorem Sorted.count_merge {a b : Tally} (ha : a.Sorted) (hb : b.Sorted) (name : String) :
    (a.merge b).count name = a.count name + b.count name := by
  induction b generalizing a with
  | nil => rfl
  | cons e rest ih =>
    obtain ⟨other, n⟩ := e
    obtain ⟨hafter, hrest⟩ := List.pairwise_cons.mp hb
    rw [merge_cons, ih (ha.add other n) hrest, ha.count_add, count, Nat.add_assoc]
    congr 1
    split
    next heq => rw [count_eq_zero fun e he => heq ▸ hafter e he, Nat.add_zero]
    next => rw [Nat.zero_add]

end Tally

namespace Statistics

theorem merge_assoc (a b c : Statistics) : (a.merge b).merge c = a.merge (b.merge c) := by
  simp only [merge, Nat.add_assoc, Tally.merge_assoc]

@[simp] theorem merge_empty (a : Statistics) : a.merge {} = a := rfl

theorem merge_recordOp (a b : Statistics) (mnemonic : String) :
    a.merge (b.recordOp mnemonic) = (a.merge b).recordOp mnemonic := by
  simp only [merge, recordOp, Nat.add_assoc, Tally.merge_add]

theorem merge_recordRemoved (a b : Statistics) (count : Nat) :
    a.merge (b.recordRemoved count) = (a.merge b).recordRemoved count := by
  simp only [merge, recordRemoved, Nat.add_assoc]

theorem merge_recordDiagnostics (a b : Statistics) (count : Nat) :
    a.merge (b.recordDiagnostics count) = (a.merge b).recordDiagnostics count := by
  simp only [merge, recordDiagnostics, Nat.add_assoc]

end Statistics
end DefUse
