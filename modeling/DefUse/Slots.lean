namespace DefUse

/-- A table of cells, numbered in order. An emptied cell is not filled again. -/
structure Slots (α : Type) where
  cells : List (Option α) := []
  /-- The count kept of the filled cells. -/
  live : Nat := 0
deriving DecidableEq, Repr

namespace Slots
variable {α : Type}

/-- The number of the next cell. -/
abbrev next (s : Slots α) : Nat :=
  s.cells.length

def get? (s : Slots α) (i : Nat) : Option α :=
  s.cells[i]?.join

def push (s : Slots α) (a : α) : Slots α :=
  { cells := s.cells ++ [some a], live := s.live + 1 }

/-- Changes a filled cell; an empty one stays empty. -/
def modify (s : Slots α) (i : Nat) (f : α → α) : Slots α :=
  { s with cells := s.cells.modify i (Option.map f) }

/-- Empties a cell. -/
def erase (s : Slots α) (i : Nat) : Slots α :=
  match s.get? i with
  | none => s
  | some _ => { cells := s.cells.set i none, live := s.live - 1 }

/-- The filled cells with their numbers, in order. -/
def entries (s : Slots α) : List (Nat × α) :=
  s.cells.zipIdx.filterMap fun (cell, i) => cell.map (i, ·)

/-- How many cells are filled. -/
def filled (s : Slots α) : Nat :=
  s.cells.countP Option.isSome

@[simp] theorem get?_empty (i : Nat) : ({} : Slots α).get? i = none := by
  simp [get?]

theorem get?_push (s : Slots α) (a : α) (i : Nat) :
    (s.push a).get? i = if i = s.next then some a else s.get? i := by
  by_cases h : i < s.cells.length
  · simp [push, get?, List.getElem?_append_left h, Nat.ne_of_lt h]
  · by_cases he : i = s.cells.length
    · subst he; simp [push, get?]
    · simp [push, get?, he, List.getElem?_eq_none (by simp; omega : (s.cells ++ [some a]).length ≤ i),
        List.getElem?_eq_none (by omega : s.cells.length ≤ i)]

theorem get?_modify (s : Slots α) (i j : Nat) (f : α → α) :
    (s.modify i f).get? j = if i = j then (s.get? j).map f else s.get? j := by
  simp only [modify, get?, List.getElem?_modify]
  split <;> cases h : s.cells[j]? <;> simp

theorem get?_erase (s : Slots α) (i j : Nat) :
    (s.erase i).get? j = if i = j then none else s.get? j := by
  simp only [erase]
  split
  next h => split <;> simp_all
  next h =>
    simp only [get?, List.getElem?_set]
    split
    · split <;> rfl
    · rfl

theorem next_push (s : Slots α) (a : α) : (s.push a).next = s.next + 1 := by
  simp [push, next]

theorem next_modify (s : Slots α) (i : Nat) (f : α → α) : (s.modify i f).next = s.next := by
  simp [modify, next]

theorem next_erase (s : Slots α) (i : Nat) : (s.erase i).next = s.next := by
  simp only [erase, next]
  split <;> simp

theorem lt_next_of_get? {s : Slots α} {i : Nat} {a : α} (h : s.get? i = some a) : i < s.next := by
  simp only [get?, Option.join_eq_some_iff] at h
  exact (List.getElem?_eq_some_iff.mp h).1

theorem mem_entries {s : Slots α} {i : Nat} {a : α} : (i, a) ∈ s.entries ↔ s.get? i = some a := by
  simp only [entries, List.mem_filterMap, get?, Option.join_eq_some_iff]
  constructor
  · rintro ⟨⟨cell, j⟩, hm, hc⟩
    cases cell with
    | none => simp at hc
    | some b =>
      obtain ⟨rfl, rfl⟩ : j = i ∧ b = a := by simpa using hc
      exact List.mem_zipIdx_iff_getElem?.mp hm
  · intro h
    exact ⟨(some a, i), List.mem_zipIdx_iff_getElem?.mpr h, by simp⟩

theorem filled_modify (s : Slots α) (i : Nat) (f : α → α) : (s.modify i f).filled = s.filled := by
  simp only [modify, filled]
  induction s.cells generalizing i with
  | nil => simp
  | cons c cs ih => cases i <;> cases c <;> simp_all

theorem filled_erase {s : Slots α} {i : Nat} {a : α} (h : s.get? i = some a) :
    (s.erase i).filled + 1 = s.filled := by
  have hi := lt_next_of_get? h
  have hc : s.cells[i]? = some (some a) := by simpa [get?, Option.join_eq_some_iff] using h
  simp only [erase, h, filled]
  obtain ⟨hlt, he⟩ := List.getElem?_eq_some_iff.mp hc
  rw [List.countP_set hlt]
  have : 0 < s.cells.countP Option.isSome :=
    List.countP_pos_iff.mpr ⟨some a, he ▸ List.getElem_mem hlt, rfl⟩
  simp [he]
  omega

end Slots
end DefUse
