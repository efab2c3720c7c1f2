namespace DefUse

/-- Counts by name, in the order of the names. -/
abbrev Tally := List (String × Nat)

namespace Tally

def add (name : String) (count : Nat) : Tally → Tally
  | [] => [(name, count)]
  | (other, n) :: rest =>
    if name = other then (other, n + count) :: rest
    else if name < other then (name, count) :: (other, n) :: rest
    else (other, n) :: add name count rest

def merge (a b : Tally) : Tally :=
  b.foldl (fun t (name, count) => t.add name count) a

def total : Tally → Nat
  | [] => 0
  | (_, n) :: rest => n + total rest

def count (t : Tally) (name : String) : Nat :=
  match t with
  | [] => 0
  | (other, n) :: rest => if other = name then n else count rest name

theorem total_add (name : String) (n : Nat) (t : Tally) : (t.add name n).total = t.total + n := by
  induction t with
  | nil => simp [add, total]
  | cons e rest ih =>
    simp only [add]
    split
    · simp only [total]; omega
    · split
      · simp only [total]; omega
      · simp only [total, ih]; omega

theorem total_merge (a b : Tally) : (a.merge b).total = a.total + b.total := by
  induction b generalizing a with
  | nil => simp [merge, total]
  | cons e rest ih =>
    have h := ih (a.add e.1 e.2)
    simp only [merge, List.foldl_cons] at h ⊢
    rw [h, total_add]
    simp only [total]
    omega

/-- The most frequent names first, and names of one frequency in their own order. -/
def ranked (t : Tally) : Tally :=
  t.mergeSort fun a b => b.2 < a.2 || (a.2 = b.2 && a.1 ≤ b.1)

end Tally
end DefUse
