import DefUse.Program.Printer
import DefUse.Text.Alphabetic
import DefUse.Text.Blank
import DefUse.Text.Numeric

namespace DefUse

inductive ParseFault where
  /-- `found` is missing at the end of a line. -/
  | identifierExpected (found : Option Char)
  | charExpected (wanted : Char) (found : Option Char)
  | numberExpected
  | badNumber (token : String) (fault : Text.NumberFault)
  | unitExpected (found : String)
  | duplicateUnit (name : String)
  | unclosedUnit (name : String)
  | opcodeExpected (found : Operand)
  | badVarnodeSize (size : Nat)
deriving DecidableEq, Repr

structure ParseError where
  line : Nat
  fault : ParseFault
deriving DecidableEq, Repr

namespace ParseFault

def between (c : Char) : String :=
  String.ofList ['\'', c, '\'']

def ending : Option Char → String
  | none => "before end of line"
  | some c => "but found " ++ between c

def message : ParseFault → String
  | identifierExpected found => "expected identifier " ++ ending found
  | charExpected wanted found => "expected " ++ between wanted ++ " " ++ ending found
  | numberExpected => "expected number"
  | badNumber token fault => "invalid number '" ++ token ++ "': " ++ fault.message
  | unitExpected found => "expected 'unit' but found '" ++ found ++ "'"
  | duplicateUnit name => "duplicate unit '" ++ name ++ "'"
  | unclosedUnit name => "unit '" ++ name ++ "' is missing its closing '\x7d'"
  | opcodeExpected found => "expected opcode but found '" ++ found.text ++ "'"
  | badVarnodeSize size => "invalid varnode size " ++ toString size

end ParseFault

def ParseError.message (e : ParseError) : String :=
  "line " ++ toString e.line ++ ": " ++ e.fault.message

/-- What is still to be read, and the line it begins on. -/
structure Cursor where
  rest : List Char
  line : Nat := 1
deriving DecidableEq, Repr

namespace Cursor

def fail {α : Type} (c : Cursor) (fault : ParseFault) : Except ParseError α :=
  .error ⟨c.line, fault⟩

/-- Goes over blanks and comments, and over newlines too if `newlines` says so. A comment runs from a
semicolon up to the end of its line. -/
def skipFrom (newlines comment : Bool) : List Char → (line : Nat) → Cursor
  | [], line => ⟨[], line⟩
  | c :: rest, line =>
    if c = '\n' then
      if newlines then skipFrom newlines false rest (line + 1) else ⟨c :: rest, line⟩
    else if comment then skipFrom newlines true rest line
    else if c = ';' then skipFrom newlines true rest line
    else if Text.isBlank c then skipFrom newlines false rest line
    else ⟨c :: rest, line⟩

def skip (newlines : Bool) (c : Cursor) : Cursor :=
  skipFrom newlines false c.rest c.line

/-- The next character, unless the line ends first. -/
def found? (c : Cursor) : Option Char :=
  match c.rest with
  | [] => none
  | ch :: _ => if ch = '\n' then none else some ch

def isNameStart (c : Char) : Bool :=
  Text.isAlphabetic c || c = '_'

def isNamePart (c : Char) : Bool :=
  Text.isAlphabetic c || Text.isNumeric c || c = '_' || c = '.'

/-- Reads one given character of the line. -/
def require (wanted : Char) (c : Cursor) : Except ParseError Cursor :=
  let c := c.skip false
  if c.found? = some wanted then .ok { c with rest := c.rest.tail }
  else c.fail (.charExpected wanted c.found?)

def identifier (c : Cursor) : Except ParseError (String × Cursor) :=
  let c := c.skip false
  match c.found? with
  | none => c.fail (.identifierExpected none)
  | some ch =>
    if isNameStart ch then
      .ok (String.ofList (c.rest.takeWhile isNamePart),
        { c with rest := c.rest.dropWhile isNamePart })
    else c.fail (.identifierExpected (some ch))

def number (c : Cursor) : Except ParseError (UInt64 × Cursor) :=
  let c := c.skip false
  let token := c.rest.takeWhile Char.isAlphanum
  let after := { c with rest := c.rest.dropWhile Char.isAlphanum }
  if token.isEmpty then c.fail .numberExpected
  else
    match Text.readWord token with
    | .ok word => .ok (word, after)
    | .error fault => after.fail (.badNumber (String.ofList token) fault)

theorem length_skipFrom_le (newlines comment : Bool) (cs : List Char) (line : Nat) :
    (skipFrom newlines comment cs line).rest.length ≤ cs.length := by
  induction cs generalizing comment line with
  | nil => simp [skipFrom]
  | cons c rest ih =>
    have h (b : Bool) (n : Nat) := Nat.le_succ_of_le (ih b n)
    simp only [skipFrom]
    repeat' split
    all_goals first | exact Nat.le_refl _ | exact h _ _

theorem length_skip_le (newlines : Bool) (c : Cursor) :
    (c.skip newlines).rest.length ≤ c.rest.length :=
  length_skipFrom_le ..

theorem rest_of_found? {c : Cursor} {ch : Char} (h : c.found? = some ch) :
    ∃ rest, c.rest = ch :: rest := by
  unfold found? at h
  split at h
  · simp at h
  next x rest hr =>
    split at h
    · simp at h
    · simp only [Option.some.injEq] at h
      exact ⟨rest, h ▸ hr⟩

theorem isNamePart_of_isNameStart {c : Char} (h : isNameStart c = true) : isNamePart c = true := by
  simp only [isNameStart, Bool.or_eq_true] at h
  rcases h with h | h <;> simp [isNamePart, h]

/-- Reading a character leaves less to read. -/
theorem length_of_require {wanted : Char} {c d : Cursor} (h : require wanted c = .ok d) :
    d.rest.length < c.rest.length := by
  simp only [require, fail] at h
  split at h
  next hf =>
    obtain ⟨rest, hr⟩ := rest_of_found? hf
    simp only [Except.ok.injEq] at h
    have hle := length_skip_le false c
    simp only [← h, hr, List.tail_cons, List.length_cons] at hle ⊢
    omega
  · simp at h

theorem length_of_identifier {c d : Cursor} {s : String} (h : identifier c = .ok (s, d)) :
    d.rest.length < c.rest.length := by
  simp only [identifier, fail] at h
  split at h
  · simp at h
  next ch hf =>
    split at h
    next hs =>
      obtain ⟨rest, hr⟩ := rest_of_found? hf
      simp only [Except.ok.injEq, Prod.mk.injEq] at h
      have hle := length_skip_le false c
      have hd := (List.dropWhile_suffix (l := rest) isNamePart).length_le
      simp only [← h.2, hr, List.dropWhile_cons, isNamePart_of_isNameStart hs, if_true,
        List.length_cons] at hle ⊢
      omega
    · simp at h

theorem length_of_number {c d : Cursor} {n : UInt64} (h : number c = .ok (n, d)) :
    d.rest.length < c.rest.length := by
  simp only [number, fail] at h
  split at h
  · simp at h
  next ht =>
    split at h
    · simp only [Except.ok.injEq, Prod.mk.injEq] at h
      have hle := length_skip_le false c
      have hs := congrArg List.length (List.takeWhile_append_dropWhile
        (p := Char.isAlphanum) (l := (c.skip false).rest))
      have hp : 0 < ((c.skip false).rest.takeWhile Char.isAlphanum).length :=
        List.length_pos_iff.mpr (by simpa using ht)
      simp only [← h.2, List.length_append] at hs ⊢
      omega
    · simp at h

end Cursor
end DefUse
