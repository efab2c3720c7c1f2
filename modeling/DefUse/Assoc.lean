namespace DefUse

/-- A finite map, with its keys in order of first insertion. -/
abbrev Assoc (κ α : Type) := List (κ × α)

namespace Assoc
variable {κ α : Type} [DecidableEq κ]

def get? (m : Assoc κ α) (k : κ) : Option α :=
  match m with
  | [] => none
  | (j, a) :: rest => if j = k then some a else get? rest k

/-- Replaces the entry of `k` in its place, or adds one at the end. -/
def put (m : Assoc κ α) (k : κ) (a : α) : Assoc κ α :=
  match m with
  | [] => [(k, a)]
  | (j, b) :: rest => if j = k then (k, a) :: rest else (j, b) :: put rest k a

/-- Adds an entry unless `k` has one. -/
def putNew (m : Assoc κ α) (k : κ) (a : α) : Assoc κ α :=
  match m.get? k with
  | some _ => m
  | none => m.put k a

theorem get?_put (m : Assoc κ α) (k l : κ) (a : α) :
    (m.put k a).get? l = if k = l then some a else m.get? l := by
  induction m with
  | nil => simp [put, get?]
  | cons e rest ih =>
    obtain ⟨j, b⟩ := e
    by_cases hj : j = k
    · subst hj
      by_cases hl : j = l <;> simp [put, get?, hl]
    · by_cases hl : j = l
      · subst hl
        simp [put, get?, hj, Ne.symm hj]
      · simp [put, get?, hj, hl, ih]

theorem get?_putNew (m : Assoc κ α) (k l : κ) (a : α) :
    (m.putNew k a).get? l = if k = l then some ((m.get? l).getD a) else m.get? l := by
  by_cases hl : k = l
  · subst hl
    cases h : m.get? k <;> simp [putNew, h, get?_put]
  · cases h : m.get? k <;> simp [putNew, h, get?_put, hl]

theorem mem_of_get? {m : Assoc κ α} {k : κ} {a : α} (h : m.get? k = some a) : (k, a) ∈ m := by
  induction m with
  | nil => simp [get?] at h
  | cons e rest ih =>
    obtain ⟨j, b⟩ := e
    by_cases hj : j = k
    · simp_all [get?]
    · simp only [get?, hj, if_false] at h
      exact List.mem_cons_of_mem _ (ih h)

def keys (m : Assoc κ α) : List κ :=
  m.map Prod.fst

theorem mem_keys_iff {m : Assoc κ α} {k : κ} : k ∈ m.keys ↔ ∃ a, m.get? k = some a := by
  induction m with
  | nil => simp [keys, get?]
  | cons e rest ih =>
    obtain ⟨j, b⟩ := e
    by_cases hj : j = k
    · simp [keys, get?, hj]
    · simpa [keys, get?, hj, Ne.symm hj] using ih

theorem keys_put_of_mem {m : Assoc κ α} {k : κ} (h : k ∈ m.keys) (a : α) :
    (m.put k a).keys = m.keys := by
  induction m with
  | nil => cases h
  | cons e rest ih =>
    obtain ⟨j, b⟩ := e
    by_cases hj : j = k
    · simp [put, keys, hj]
    · have hrest : k ∈ keys rest := (List.mem_cons.mp h).resolve_left (Ne.symm hj)
      simpa [put, keys, hj] using ih hrest

theorem keys_put_of_not_mem {m : Assoc κ α} {k : κ} (h : k ∉ m.keys) (a : α) :
    (m.put k a).keys = m.keys ++ [k] := by
  induction m with
  | nil => rfl
  | cons e rest ih =>
    obtain ⟨j, b⟩ := e
    have hj : j ≠ k := fun he => h (List.mem_cons.mpr (.inl he.symm))
    have hrest : k ∉ keys rest := fun hin => h (List.mem_cons_of_mem j hin)
    simpa [put, keys, hj] using ih hrest

theorem mem_keys_put {m : Assoc κ α} {k l : κ} {a : α} :
    l ∈ (m.put k a).keys ↔ l = k ∨ l ∈ m.keys := by
  rw [mem_keys_iff, get?_put, mem_keys_iff]
  by_cases hl : k = l
  · simp [hl]
  · simp [hl, Ne.symm hl]

theorem nodup_keys_put {m : Assoc κ α} (h : m.keys.Nodup) (k : κ) (a : α) :
    (m.put k a).keys.Nodup := by
  by_cases hk : k ∈ m.keys
  · rwa [keys_put_of_mem hk]
  · rw [keys_put_of_not_mem hk, List.nodup_append]
    refine ⟨h, by simp, ?_⟩
    intro j hj l hl he
    rw [List.mem_singleton.mp hl] at he
    exact hk (he ▸ hj)

/-- Where no key has two entries, what is looked up is what is there. -/
theorem get?_eq_some_iff_mem {m : Assoc κ α} (h : m.keys.Nodup) {k : κ} {a : α} :
    m.get? k = some a ↔ (k, a) ∈ m := by
  refine ⟨mem_of_get?, ?_⟩
  induction m with
  | nil => simp
  | cons e rest ih =>
    obtain ⟨j, b⟩ := e
    obtain ⟨hj, hrest⟩ := List.nodup_cons.mp h
    intro hmem
    rcases List.mem_cons.mp hmem with he | hin
    · cases he
      simp [get?]
    · have hne : j ≠ k := by
        rintro rfl
        exact hj (List.mem_map.mpr ⟨_, hin, rfl⟩)
      simpa [get?, hne] using ih hrest hin

end Assoc
end DefUse
