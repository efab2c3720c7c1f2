import DefUse.Assoc
import DefUse.Location

namespace DefUse

structure Registers where
  byName : Assoc String Location := []
  byLocation : Assoc Location String := []
deriving DecidableEq, Repr

namespace Registers

def insert (m : Registers) (name : String) (location : Location) : Registers where
  byName := m.byName.put name location
  byLocation := m.byLocation.putNew location name

/-- The location given last to the name. -/
def location? (m : Registers) (name : String) : Option Location :=
  m.byName.get? name

/-- The first name given to exactly this location. -/
def name? (m : Registers) (location : Location) : Option String :=
  m.byLocation.get? location

/-- How many names there are. -/
def size (m : Registers) : Nat :=
  m.byName.length

/-- Names with offset and size in the register space. -/
def x8664Table : List (String × UInt64 × Nat) :=
  [("RAX", 0x0, 8), ("RCX", 0x8, 8), ("RDX", 0x10, 8), ("RBX", 0x18, 8), ("RSP", 0x20, 8),
   ("RBP", 0x28, 8), ("RSI", 0x30, 8), ("RDI", 0x38, 8), ("EAX", 0x0, 4), ("ECX", 0x8, 4),
   ("EDX", 0x10, 4), ("EBX", 0x18, 4), ("ESI", 0x30, 4), ("EDI", 0x38, 4), ("R8", 0x80, 8),
   ("R9", 0x88, 8), ("R10", 0x90, 8), ("R11", 0x98, 8), ("R12", 0xa0, 8), ("R13", 0xa8, 8),
   ("R14", 0xb0, 8), ("R15", 0xb8, 8), ("CF", 0x200, 1), ("PF", 0x202, 1), ("AF", 0x204, 1),
   ("ZF", 0x206, 1), ("SF", 0x207, 1), ("OF", 0x20b, 1), ("RIP", 0x288, 8), ("XMM0", 0x1200, 16),
   ("XMM0_Qa", 0x1200, 8), ("XMM0_Da", 0x1200, 4), ("XMM1", 0x1220, 16), ("XMM1_Qa", 0x1220, 8),
   ("XMM1_Da", 0x1220, 4), ("XMM2", 0x1240, 16), ("XMM2_Qa", 0x1240, 8), ("XMM2_Da", 0x1240, 4),
   ("XMM3", 0x1260, 16), ("XMM3_Qa", 0x1260, 8), ("XMM3_Da", 0x1260, 4)]

/-- The 64-bit registers and their lower halves, the flags, and the low vector registers with their
scalar lanes. -/
def x8664 : Registers :=
  x8664Table.foldl (fun m (name, offset, size) => m.insert name ⟨.register, offset, size⟩) {}

end Registers
end DefUse
