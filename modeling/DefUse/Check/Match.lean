import DefUse.Check.Script

namespace DefUse

inductive MatchError where
  | notFound (directive : Directive)
  | noMoreLines (pattern : String)
  | wrongLine (pattern line : String)
  | forbidden (pattern : String) (line : Nat)
  /-- Lines were asked for that the listing does not have. -/
  | outOfRange (first last : Nat)
deriving DecidableEq, Repr

def MatchError.message : MatchError → String
  | notFound directive =>
    directive.kind.text ++ ": pattern '" ++ directive.pattern ++ "' not found in output"
  | noMoreLines pattern => "CHECK-NEXT: no more lines, expected '" ++ pattern ++ "'"
  | wrongLine pattern line => "CHECK-NEXT: expected '" ++ pattern ++ "' but got '" ++ line ++ "'"
  | forbidden pattern line =>
    "CHECK-NOT: pattern '" ++ pattern ++ "' found at line " ++ toString line
  | outOfRange first last =>
    "range from " ++ toString first ++ " to " ++ toString last ++ " is out of range for the output"

/-- How far matching has come. -/
structure Matching where
  /-- The number of the first line not matched yet. -/
  next : Nat := 0
  /-- Patterns that must not appear before the next match. -/
  forbidden : List String := []
  /-- The lines matched so far. -/
  matched : List (Directive × Nat) := []
deriving DecidableEq, Repr

namespace Matching

def holds (pattern line : String) : Bool :=
  Text.holds pattern.toList line.toList

/-- The lines from `first` up to `last`, which have to be lines of the listing. -/
def slice (lines : List String) (first last : Nat) : Except MatchError (List String) :=
  if first ≤ last ∧ last ≤ lines.length then .ok ((lines.drop first).take (last - first))
  else .error (.outOfRange first last)

/-- No forbidden pattern on the lines from `first` up to `last`. -/
def clear (lines : List String) (first last : Nat) : List String → Except MatchError Unit
  | [] => .ok ()
  | pattern :: rest => do
    match (← slice lines first last).findIdx? (holds pattern) with
    | some i => .error (.forbidden pattern (first + i))
    | none => clear lines first last rest

/-- Takes line `next + skipped` as the match of a directive. -/
def accept (lines : List String) (directive : Directive) (skipped : Nat) (m : Matching) :
    EStateM.Result MatchError Matching Unit :=
  match clear lines m.next (m.next + skipped) m.forbidden with
  | .error e => .error e m
  | .ok _ => .ok () {
      next := m.next + skipped + 1
      forbidden := []
      matched := m.matched ++ [(directive, m.next + skipped)] }

def step (lines : List String) (d : Directive) : EStateM MatchError Matching Unit := fun m =>
  match d.kind with
  | .comment => .ok () m
  | .never => .ok () { m with forbidden := m.forbidden ++ [d.pattern] }
  | .check | .label =>
    match (lines.drop m.next).findIdx? (holds d.pattern) with
    | none => .error (.notFound d) m
    | some skipped => accept lines d skipped m
  | .next =>
    match lines[m.next]? with
    | none => .error (.noMoreLines d.pattern) m
    | some line =>
      if holds d.pattern line then accept lines d 0 m
      else .error (.wrongLine d.pattern line) m

def steps (lines : List String) : List Directive → EStateM MatchError Matching Unit
  | [] => pure ()
  | d :: rest => do
    step lines d
    steps lines rest

/-- After the last match nothing forbidden may follow. -/
def finish (lines : List String) : EStateM MatchError Matching Unit := fun m =>
  match clear lines m.next lines.length m.forbidden with
  | .ok _ => .ok () m
  | .error e => .error e m

/-- Matches a listing from its first line. -/
def start (output : String) (directives : List Directive) :
    EStateM.Result MatchError Matching Unit :=
  let lines := Text.lines output
  (do steps lines directives; finish lines : EStateM MatchError Matching Unit) {}

/-- What is told of the matches found by searching. -/
def log (m : Matching) : String :=
  String.join (m.matched.map fun (d, line) =>
    match d.kind with
    | .check | .label =>
      d.kind.text ++ ": '" ++ d.pattern ++ "' found at line " ++ toString line ++ "\n"
    | _ => "")

end Matching

def validate (output : String) (directives : List Directive) : Except MatchError Unit :=
  match Matching.start output directives with
  | .ok _ _ => .ok ()
  | .error e _ => .error e

end DefUse
