import DefUse.Text.Number

namespace DefUse

inductive Space where
  | const
  /-- Scratch storage of one unit. -/
  | unique
  | register
  | ram
deriving DecidableEq, Repr

namespace Space

def name : Space → String
  | .const => "const"
  | .unique => "unique"
  | .register => "register"
  | .ram => "ram"

def ofName? : String → Option Space
  | "const" => some .const
  | "unique" => some .unique
  | "register" => some .register
  | "ram" => some .ram
  | _ => none

/-- Spaces in listing order. -/
def rank : Space → Nat
  | .const => 0
  | .unique => 1
  | .register => 2
  | .ram => 3

/-- Whether a write outlives the unit. -/
def isObservable : Space → Bool
  | .register | .ram => true
  | _ => false

/-- Whether loads and stores can name the space. -/
def isMemory : Space → Bool
  | .register | .ram => true
  | _ => false

end Space

/-- The bytes `offset`, `offset + 1`, … of a space, `size` of them. -/
structure Location where
  space : Space
  offset : UInt64
  size : Nat
deriving DecidableEq, Repr

namespace Location

def text (l : Location) : String :=
  l.space.name ++ "[" ++ Text.hex l.offset.toNat ++ ":" ++ toString l.size ++ "]"

/-- The address after the range, held at the last address of the space. -/
def limit (l : Location) : Nat :=
  min (l.offset.toNat + l.size) (UInt64.size - 1)

def overlaps (a b : Location) : Bool :=
  a.space = b.space && a.offset.toNat < b.limit && b.offset.toNat < a.limit

theorem overlaps_comm (a b : Location) : a.overlaps b = b.overlaps a := by
  simp only [overlaps, Bool.and_assoc, eq_comm (a := a.space)]
  rw [Bool.and_comm (decide (a.offset.toNat < b.limit))]

/-- By space, then offset, then size. -/
def order (a b : Location) : Ordering :=
  (compare a.space.rank b.space.rank).then
    ((compare a.offset.toNat b.offset.toNat).then (compare a.size b.size))

end Location
end DefUse
