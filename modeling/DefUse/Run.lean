import DefUse.Graph.Consistency
import DefUse.Graph.DeadCode
import DefUse.Graph.Printer
import DefUse.Lift.Record
import DefUse.Plan
import DefUse.Settings
import DefUse.Taint

namespace DefUse

/-- A unit that made it through every pass. -/
structure Report where
  name : String
  graph : Graph
  order : List OpId
  typing : Typing
  removed : Nat
  tainted : Option (List ValueId)
  /-- The sections asked for. -/
  listing : String

inductive Outcome where
  | lifted (report : Report)
  /-- The unit runs without a graph. -/
  | fallback (unit : String) (error : UnitError)
  /-- The graph calls were misused. -/
  | aborted (unit : String) (error : UnitError)

structure Results where
  outcomes : List Outcome
  statistics : Statistics := {}

namespace Outcome

def name : Outcome → String
  | lifted report => report.name
  | fallback unit _ => unit
  | aborted unit _ => unit

def isLifted : Outcome → Bool
  | lifted _ => true
  | _ => false

def error? : Outcome → Option UnitError
  | lifted _ => none
  | fallback _ error => some error
  | aborted _ error => some error

def text : Outcome → String
  | lifted report =>
    "unit " ++ report.name ++ ": translated, " ++ toString report.order.length ++ " ops, "
      ++ toString report.removed ++ " removed\n" ++ report.listing
  | fallback unit error => "unit " ++ unit ++ ": fallback: " ++ error.message ++ "\n"
  | aborted unit error => "unit " ++ unit ++ ": aborted: " ++ error.message ++ "\n"

end Outcome

namespace Results

def outcome? (r : Results) (name : String) : Option Outcome :=
  r.outcomes.find? (·.name = name)

def allLifted (r : Results) : Bool :=
  r.outcomes.all (·.isLifted)

def text (r : Results) (withStats : Bool) : String :=
  String.join (r.outcomes.map Outcome.text) ++ if withStats then r.statistics.text else ""

end Results

/-- The sections of a unit's listing. -/
structure Listing where
  name : String
  graph : Option Graph
  typing : Option Typing
  plan : Option String
  taint : Option (String × List ValueId)

namespace Listing

def graphText (l : Listing) : String :=
  match l.graph with
  | none => ""
  | some g => "Graph for " ++ l.name ++ ":\n" ++ g.text

def typesText (l : Listing) : String :=
  match l.typing with
  | none => ""
  | some t =>
    "Types for " ++ l.name ++ ":\n"
      ++ String.join (t.types.map fun (v, type) => "  " ++ v.text ++ ": " ++ type.text ++ "\n")
      ++ String.join (t.diagnostics.map fun d => "  warning: " ++ d.message ++ "\n")

def planText (l : Listing) : String :=
  match l.plan with
  | none => ""
  | some plan => "Plan for " ++ l.name ++ ":\n" ++ plan

def taintText (l : Listing) : String :=
  match l.taint with
  | none => ""
  | some (client, values) =>
    "Tainted by " ++ client ++ " in " ++ l.name ++ ": "
      ++ ", ".intercalate (values.map ValueId.text) ++ "\n"

def text (l : Listing) : String :=
  l.graphText ++ l.typesText ++ l.planText ++ l.taintText

end Listing

/-- A pass over one unit; what was counted before a failure stays. -/
abbrev Pass (α : Type) := EStateM UnitError Statistics α

namespace Pass

def ofExcept {α : Type} : Except Refusal α → Pass α
  | .ok a => pure a
  | .error e => throw (.graph e)

def lift (m : Machine) (u : CodeUnit) : Pass Graph := fun s =>
  match m.lift u with
  | .ok _ b => .ok b.graph (s.merge b.statistics)
  | .error e b => .error e (s.merge b.statistics)

def verify (s : Settings) (g : Graph) : Pass Unit :=
  if s.verify then ofExcept g.verify else pure ()

/-- The graph without its dead operations, and how many went. -/
def clean (s : Settings) (g : Graph) : Pass (Graph × Nat) :=
  if s.deadCode then
    match g.eliminateDeadCode with
    | .ok removed g => do
      modify (·.recordRemoved removed)
      verify s g
      return (g, removed)
    | .error e _ => throw (.graph e)
  else return (g, 0)

def type (s : Settings) (g : Graph) : Pass Typing := do
  let typing ← ofExcept (Typing.infer g)
  modify (·.recordDiagnostics typing.diagnostics.length)
  match s.mismatch, typing.leastMismatch? with
  | .reject, some (use, expected, found) => throw (.typeRejected use expected found.behavior)
  | _, _ => return typing

def report (m : Machine) (s : Settings) (client : Option TaintClient) (u : CodeUnit) :
    Pass Report := do
  let g ← lift m u
  verify s g
  let (g, removed) ← clean s g
  let typing ← type s g
  let tainted := client.map g.tainted
  let plan ← ofExcept (Plan.make g typing)
  let planText ← if s.printPlan then some <$> ofExcept plan.text else pure none
  let listing : Listing := {
    name := u.name
    graph := if s.printGraph then some g else none
    typing := if s.printTypes then some typing else none
    plan := planText
    taint := client.map fun c => (c.name, g.tainted c) }
  return {
    name := u.name
    graph := g
    order := plan.order
    typing
    removed
    tainted
    listing := listing.text }

end Pass

/-- One unit through all passes. -/
def runUnit (m : Machine) (s : Settings) (client : Option TaintClient) (u : CodeUnit) :
    Outcome × Statistics :=
  match Pass.report m s client u {} with
  | .ok report stats => (.lifted report, stats.recordLifted)
  | .error e stats =>
    if e.isRecoverable then (.fallback u.name e, stats.recordFallback)
    else (.aborted u.name e, stats.recordAborted)

def Results.append (r : Results) (other : Results) : Results :=
  ⟨r.outcomes ++ other.outcomes, r.statistics.merge other.statistics⟩

/-- Units one after the other. -/
def runUnits (m : Machine) (s : Settings) (client : Option TaintClient) (units : List CodeUnit) :
    Results :=
  units.foldl (fun r u =>
    let (outcome, stats) := runUnit m s client u
    r.append ⟨[outcome], stats⟩) ⟨[], {}⟩

/-- Consecutive parts of `size` elements; the last may be shorter. -/
def parts {α : Type} (size : Nat) (xs : List α) : List (List α) :=
  match xs with
  | [] => []
  | x :: rest => (x :: rest.take (size - 1)) :: parts size (rest.drop (size - 1))
termination_by xs.length
decreasing_by
  simp only [List.length_drop, List.length_cons]
  omega

/-- How many units each of `threads` threads gets: none is given a thread for nothing. -/
def partSize (threads units : Nat) : Nat :=
  let threads := max 1 (min threads (max units 1))
  (units + threads - 1) / threads

/-- Each part on a thread of its own; the results are put together in order. -/
def runParts (m : Machine) (s : Settings) (client : Option TaintClient)
    (units : List (List CodeUnit)) : Results :=
  let tasks := units.map fun part => Task.spawn fun _ => runUnits m s client part
  tasks.foldl (fun r task => r.append task.get) ⟨[], {}⟩

/-- No taint client has this name. -/
structure UnknownClient where
  name : String
deriving DecidableEq, Repr

def UnknownClient.message (e : UnknownClient) : String :=
  "Unknown analysis client '" ++ e.name ++ "'"

def Settings.client (s : Settings) : Except UnknownClient (Option TaintClient) :=
  match s.taint with
  | none => .ok none
  | some name =>
    match TaintClient.ofName? name with
    | some client => .ok (some client)
    | none => .error ⟨name⟩

/-- All units of a program. -/
def run (m : Machine) (s : Settings) (p : Program) : Except UnknownClient Results := do
  let client ← s.client
  return runParts m s client (parts (partSize s.threads p.units.length) p.units)

end DefUse
