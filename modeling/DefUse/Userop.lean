import DefUse.Assoc
import DefUse.Behavior

namespace DefUse

/-- The signature of an operation that the instruction set leaves to the embedder. -/
structure Userop where
  name : String
  inputs : List Behavior
  output : Behavior
  /-- Accepts arguments beyond `inputs`. -/
  variadic : Bool := false
  /-- A call has no effect besides its result. -/
  isPure : Bool := false
deriving DecidableEq, Repr

namespace Userop

def acceptsArity (u : Userop) (count : Nat) : Bool :=
  if u.variadic then u.inputs.length ≤ count else count = u.inputs.length

/-- What is asked of the argument at a position: nothing beyond the declared ones. -/
def inputAt? (u : Userop) (position : Nat) : Option Behavior :=
  match u.inputs[position]? with
  | some behavior => some behavior
  | none => if u.variadic then some .any else none

end Userop

/-- Userops by name. -/
abbrev Userops := Assoc String Userop

namespace Userops

/-- Adds a signature; one of the same name is replaced. -/
def register (lib : Userops) (u : Userop) : Userops :=
  lib.put u.name u

def builtin : Userops :=
  [{ name := "fsqrt", inputs := [.float], output := .float, isPure := true },
   { name := "bswap", inputs := [.integer], output := .integer, isPure := true },
   { name := "lzcount", inputs := [.integer], output := .integer, isPure := true },
   { name := "rdtsc", inputs := [], output := .integer },
   { name := "cpuid", inputs := [.integer], output := .integer },
   { name := "syscall", inputs := [.integer], output := .integer, variadic := true },
   { name := "hlt", inputs := [], output := .any }].foldl register []

/-- The names in code point order. -/
def names (lib : Userops) : List String :=
  (lib.map (·.1)).mergeSort fun a b => a ≤ b

end Userops
end DefUse
