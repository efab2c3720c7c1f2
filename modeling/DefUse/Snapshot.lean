import DefUse.Value

namespace DefUse

/-- What every location held at one point of a unit, sorted by location. The entries are not uses.
-/
structure Snapshot where
  entries : List (Location × ValueId) := []
deriving DecidableEq, Repr

namespace Snapshot

def ofList (entries : List (Location × ValueId)) : Snapshot :=
  ⟨entries.mergeSort fun a b => (a.1.order b.1).isLE⟩

/-- Whether the entry at a position comes after the location. -/
def isAfter (entries : List (Location × ValueId)) (l : Location) (i : Nat) : Bool :=
  match entries[i]? with
  | some e => e.1.order l = .gt
  | none => true

/-- Halves the `size` entries from `base` on until one is left. -/
def narrow (entries : List (Location × ValueId)) (l : Location) (base size : Nat) : Nat :=
  if 1 < size then
    narrow entries l (if isAfter entries l (base + size / 2) then base else base + size / 2)
      (size - size / 2)
  else base
termination_by size
decreasing_by omega

/-- Looks the location up by halving. -/
def get? (s : Snapshot) (l : Location) : Option ValueId :=
  match s.entries[narrow s.entries l 0 s.entries.length]? with
  | some e => if e.1.order l = .eq then some e.2 else none
  | none => none

end Snapshot
end DefUse
