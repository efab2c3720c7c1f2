import Mathlib.Data.List.Nodup
import DefUse.Program.Basic
import DefUse.Text.Alphabetic
import DefUse.Text.Blank
import DefUse.Text.Numeric

namespace DefUse

def Record.unlined (r : Record) : Record :=
  { r with line := 0 }

def CodeUnit.unlined (u : CodeUnit) : CodeUnit :=
  { u with line := 0, records := u.records.map Record.unlined }

/-- The program without its line numbers. -/
def Program.unlined (p : Program) : Program :=
  ⟨p.units.map CodeUnit.unlined⟩

namespace Grammar

/-- A text without its comments: each goes from a semicolon up to the next newline, which stays.
`comment` says that the text begins inside one. -/
def plain (comment : Bool) : List Char → List Char
  | [] => []
  | c :: rest =>
    if c = '\n' then c :: plain false rest
    else if comment || c = ';' then plain true rest
    else c :: plain false rest

/-- `s` is `t` behind characters of a kind. -/
inductive Behind (kind : Char → Bool) : List Char → List Char → Prop where
  | here {t : List Char} : Behind kind t t
  | skip {c : Char} {s t : List Char} : kind c = true → Behind kind s t → Behind kind (c :: s) t

/-- Any number of blanks, newlines included. -/
abbrev Gap := Behind Text.isBlank

def isLineBlank (c : Char) : Bool :=
  Text.isBlank c && c ≠ '\n'

/-- Any number of blanks of one line. -/
abbrev Blanks := Behind isLineBlank

def NameStart (c : Char) : Prop :=
  Text.isAlphabetic c = true ∨ c = '_'

def NamePart (c : Char) : Prop :=
  Text.isAlphabetic c = true ∨ Text.isNumeric c = true ∨ c = '_' ∨ c = '.'

/-- What can name a unit, an opcode, a space, a register or a userop. -/
structure Identifier (name : String) : Prop where
  start : ∃ c cs, name.toList = c :: cs ∧ NameStart c
  parts : ∀ c ∈ name.toList, NamePart c

structure NameAt (s : List Char) (name : String) (rest : List Char) : Prop where
  split : s = name.toList ++ rest
  identifier : Identifier name
  longest : ∀ c ∈ rest.head?, ¬ NamePart c

/-- `c` stands for `d` in a radix up to 16, as a small or a capital letter above 9. -/
def Digit (radix : Nat) (c : Char) (d : Nat) : Prop :=
  d < radix ∧ c.toLower = Nat.digitChar d

inductive Digits (radix : Nat) : List Char → Nat → Prop where
  | one {c : Char} {d : Nat} : Digit radix c d → Digits radix [c] d
  | more {cs : List Char} {n : Nat} {c : Char} {d : Nat} : Digits radix cs n → Digit radix c d →
    Digits radix (cs ++ [c]) (n * radix + d)

/-- A number that fits 64 bits, in decimal or in hexadecimal. -/
inductive Numeral : List Char → UInt64 → Prop where
  | decimal {cs : List Char} {w : UInt64} : Digits 10 cs w.toNat → Numeral cs w
  | hexadecimal {x : Char} {cs : List Char} {w : UInt64} : x = 'x' ∨ x = 'X' →
    Digits 16 cs w.toNat → Numeral ('0' :: x :: cs) w

structure NumberAt (s : List Char) (w : UInt64) (rest : List Char) : Prop where
  split : ∃ token, s = token ++ rest ∧ Numeral token w
  longest : ∀ c ∈ rest.head?, c.isAlphanum = false

inductive OperandAt : List Char → Operand → List Char → Prop where
  | userop {s t rest : List Char} {name : String} : Blanks s t → NameAt t name rest →
    OperandAt ('@' :: s) (.userop name) rest
  | address {s rest : List Char} {w : UInt64} : NumberAt s w rest → OperandAt s (.address w) rest
  | name {s rest : List Char} {name : String} : NameAt s name rest → OperandAt s (.name name) rest
  | varnode {s s₁ s₂ s₃ s₄ s₅ s₆ rest : List Char} {space : String} {offset size : UInt64} :
    NameAt s space ('[' :: s₁) → Blanks s₁ s₂ → NumberAt s₂ offset s₃ → Blanks s₃ (':' :: s₄) →
    Blanks s₄ s₅ → NumberAt s₅ size s₆ → Blanks s₆ (']' :: rest) →
    1 ≤ size.toNat → size.toNat ≤ 0x10000 →
    OperandAt s (.varnode space offset size.toNat) rest

/-- One operand or more, divided by commas. -/
inductive OperandsAt : List Char → List Operand → List Char → Prop where
  | last {s rest : List Char} {o : Operand} : OperandAt s o rest → OperandsAt s [o] rest
  | more {s s₁ s₂ s₃ rest : List Char} {o : Operand} {os : List Operand} : OperandAt s o s₁ →
    Blanks s₁ (',' :: s₂) → Blanks s₂ s₃ → OperandsAt s₃ os rest → OperandsAt s (o :: os) rest

/-- The output, if there is one, and the opcode. -/
inductive HeadAt : List Char → Option Operand → String → List Char → Prop where
  | bare {s rest : List Char} {opcode : String} : NameAt s opcode rest → rest.head? ≠ some '[' →
    HeadAt s none opcode rest
  | assigning {s s₁ s₂ s₃ rest : List Char} {o : Operand} {opcode : String} : OperandAt s o s₁ →
    Blanks s₁ ('=' :: s₂) → Blanks s₂ s₃ → NameAt s₃ opcode rest → HeadAt s (some o) opcode rest

/-- A record and the newline that ends it. -/
inductive RecordAt : List Char → Record → List Char → Prop where
  | plain {s s₁ rest : List Char} {output : Option Operand} {opcode : String} :
    HeadAt s output opcode s₁ → Blanks s₁ ('\n' :: rest) → RecordAt s ⟨0, output, opcode, []⟩ rest
  | applied {s s₁ s₂ s₃ rest : List Char} {output : Option Operand} {opcode : String}
    {os : List Operand} : HeadAt s output opcode s₁ → Blanks s₁ s₂ → OperandsAt s₂ os s₃ →
    Blanks s₃ ('\n' :: rest) → RecordAt s ⟨0, output, opcode, os⟩ rest

/-- The records of a unit and its closing brace. -/
inductive RecordsAt : List Char → List Record → List Char → Prop where
  | close {s rest : List Char} : Gap s ('\x7d' :: rest) → RecordsAt s [] rest
  | more {s s₁ s₂ rest : List Char} {r : Record} {rs : List Record} : Gap s s₁ →
    RecordAt s₁ r s₂ → RecordsAt s₂ rs rest → RecordsAt s (r :: rs) rest

inductive UnitAt : List Char → CodeUnit → List Char → Prop where
  | unit {b : Char} {s s₁ s₂ s₃ rest : List Char} {name : String} {rs : List Record} :
    isLineBlank b = true → Blanks s s₁ → NameAt s₁ name s₂ → Blanks s₂ ('\x7b' :: s₃) →
    RecordsAt s₃ rs rest → UnitAt ('u' :: 'n' :: 'i' :: 't' :: b :: s) ⟨name, 0, rs⟩ rest

/-- Units up to the end of the text. -/
inductive UnitsAt : List Char → List CodeUnit → Prop where
  | done {s : List Char} : Gap s [] → UnitsAt s []
  | more {s s₁ s₂ : List Char} {u : CodeUnit} {us : List CodeUnit} : Gap s s₁ → UnitAt s₁ u s₂ →
    UnitsAt s₂ us → UnitsAt s (u :: us)

/-- The text, its comments taken out, is a program whose tree is `p`. -/
structure Derives (s : List Char) (p : Program) : Prop where
  units : UnitsAt s p.units
  distinct : (p.units.map (·.name)).Nodup

end Grammar
end DefUse
