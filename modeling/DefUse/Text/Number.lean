namespace DefUse.Text

/-- Lower-case hexadecimal behind `0x`, without leading zeros. -/
def hex (n : Nat) : String :=
  "0x" ++ String.ofList (Nat.toDigits 16 n)

inductive NumberFault where
  | empty
  | badDigit
  | tooLarge
deriving DecidableEq, Repr

def NumberFault.message : NumberFault → String
  | .empty => "cannot parse integer from empty string"
  | .badDigit => "invalid digit found in string"
  | .tooLarge => "number too large to fit in target type"

/-- The value of an ASCII digit or letter in a radix up to 36. -/
def digit? (radix : Nat) (c : Char) : Option Nat :=
  let d :=
    if '0' ≤ c ∧ c ≤ '9' then c.toNat - '0'.toNat
    else if 'a' ≤ c ∧ c ≤ 'z' then c.toNat - 'a'.toNat + 10
    else if 'A' ≤ c ∧ c ≤ 'Z' then c.toNat - 'A'.toNat + 10
    else radix
  if d < radix then some d else none

theorem digit?_lt {radix d : Nat} {c : Char} (h : digit? radix c = some d) : d < radix := by
  simp only [digit?, Option.ite_none_right_eq_some, Option.some.injEq] at h
  exact h.2 ▸ h.1

/-- Continues a number whose digits so far are worth `acc`. -/
def readDigits (radix : Nat) : Nat → List Char → Except NumberFault Nat
  | acc, [] => .ok acc
  | acc, c :: rest =>
    match digit? radix c with
    | none => .error .badDigit
    | some d =>
      if acc * radix + d < UInt64.size then readDigits radix (acc * radix + d) rest
      else .error .tooLarge

def readNat : (radix : Nat) → List Char → Except NumberFault Nat
  | _, [] => .error .empty
  | radix, c :: rest => readDigits radix 0 (c :: rest)

theorem readDigits_lt {radix acc n : Nat} {cs : List Char} (hacc : acc < UInt64.size)
    (h : readDigits radix acc cs = .ok n) : n < UInt64.size := by
  induction cs generalizing acc with
  | nil =>
    simp only [readDigits, Except.ok.injEq] at h
    exact h ▸ hacc
  | cons c rest ih =>
    simp only [readDigits] at h
    split at h
    · simp at h
    · split at h
      · exact ih (by assumption) h
      · simp at h

/-- A number token: hexadecimal behind `0x` or `0X`, decimal otherwise. -/
def readWord : List Char → Except NumberFault UInt64
  | '0' :: 'x' :: digits => (readNat 16 digits).map UInt64.ofNat
  | '0' :: 'X' :: digits => (readNat 16 digits).map UInt64.ofNat
  | token => (readNat 10 token).map UInt64.ofNat

/-- A decimal count, with an optional plus sign. -/
def readCount : List Char → Except NumberFault Nat
  | '+' :: digits => readNat 10 digits
  | digits => readNat 10 digits

end DefUse.Text
