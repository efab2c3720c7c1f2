import DefUse.Tally

namespace DefUse

structure Statistics where
  lifted : Nat := 0
  fallenBack : Nat := 0
  aborted : Nat := 0
  created : Nat := 0
  removed : Nat := 0
  writebacks : Nat := 0
  diagnostics : Nat := 0
  /-- Operations created, by mnemonic. -/
  opcodes : Tally := []
deriving DecidableEq, Repr

namespace Statistics

def recordOp (s : Statistics) (mnemonic : String) : Statistics :=
  { s with created := s.created + 1, opcodes := s.opcodes.add mnemonic 1 }

def recordWriteback (s : Statistics) : Statistics :=
  { s with writebacks := s.writebacks + 1 }

def recordRemoved (s : Statistics) (count : Nat) : Statistics :=
  { s with removed := s.removed + count }

def recordDiagnostics (s : Statistics) (count : Nat) : Statistics :=
  { s with diagnostics := s.diagnostics + count }

def recordLifted (s : Statistics) : Statistics :=
  { s with lifted := s.lifted + 1 }

def recordFallback (s : Statistics) : Statistics :=
  { s with fallenBack := s.fallenBack + 1 }

def recordAborted (s : Statistics) : Statistics :=
  { s with aborted := s.aborted + 1 }

def merge (a b : Statistics) : Statistics where
  lifted := a.lifted + b.lifted
  fallenBack := a.fallenBack + b.fallenBack
  aborted := a.aborted + b.aborted
  created := a.created + b.created
  removed := a.removed + b.removed
  writebacks := a.writebacks + b.writebacks
  diagnostics := a.diagnostics + b.diagnostics
  opcodes := a.opcodes.merge b.opcodes

/-- How many mnemonics the listing shows at most. -/
def shownOpcodes : Nat := 10

def text (s : Statistics) : String :=
  "Translation Session Statistics:\n"
    ++ "  Units translated: " ++ toString s.lifted ++ "\n"
    ++ "  Units fallen back: " ++ toString s.fallenBack ++ "\n"
    ++ "  Units aborted: " ++ toString s.aborted ++ "\n"
    ++ "  Operations created: " ++ toString s.created ++ "\n"
    ++ "  Operations removed: " ++ toString s.removed ++ "\n"
    ++ "  Write-backs: " ++ toString s.writebacks ++ "\n"
    ++ "  Type diagnostics: " ++ toString s.diagnostics ++ "\n"
    ++ (if s.opcodes.isEmpty then "" else
      "  Opcode breakdown:\n"
        ++ String.join ((s.opcodes.ranked.take shownOpcodes).map fun (name, count) =>
          "    " ++ name ++ ": " ++ toString count ++ "\n"))

end Statistics

/-- Statistics in the making, with the unit being worked on and the names met so far. -/
structure Session where
  statistics : Statistics := {}
  unit : Option String := none
  names : List String := []
deriving DecidableEq, Repr

namespace Session

/-- The number of a name: names are numbered as they are first met. -/
def intern (s : Session) (name : String) : Nat × Session :=
  match s.names.idxOf? name with
  | some i => (i, s)
  | none => (s.names.length, { s with names := s.names ++ [name] })

def beginUnit (s : Session) (name : String) : Session :=
  { (s.intern name).2 with unit := some name }

def endUnit (s : Session) : Session :=
  { s with unit := none }

def record (s : Session) (f : Statistics → Statistics) : Session :=
  { s with statistics := f s.statistics }

end Session
end DefUse
