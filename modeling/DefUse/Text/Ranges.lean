namespace DefUse.Text

/-- Code point ranges, both ends included. -/
abbrev Ranges := List (Nat × Nat)

/-- Whether some range holds the code point. -/
def Ranges.has (ranges : Ranges) (point : Nat) : Bool :=
  ranges.any fun (first, last) => first ≤ point && point ≤ last

theorem Ranges.has_iff (ranges : Ranges) (point : Nat) :
    ranges.has point = true ↔ ∃ r ∈ ranges, r.1 ≤ point ∧ point ≤ r.2 := by
  simp [Ranges.has]

end DefUse.Text
