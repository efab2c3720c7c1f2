import DefUse.Check.Match
import DefUse.Program.Parser
import DefUse.Run

namespace DefUse

inductive Failure where
  | script (error : ScriptError)
  | noRun
  | parse (error : ParseError)
  | flags (error : FlagError)
  | client (error : UnknownClient)
  | mismatch (error : MatchError)
deriving DecidableEq, Repr

def Failure.message : Failure → String
  | script error => error.message
  | noRun => "no RUN directive"
  | parse error => error.message
  | flags error => error.message
  | client error => error.message
  | mismatch error => error.message

namespace Script

/-- The listing of one run with the built-in userops and registers. -/
def output (p : Program) (r : RunLine) : Except Failure String :=
  match Settings.ofFlags r.flags with
  | .error e => .error (.flags e)
  | .ok settings =>
    match run {} settings p with
    | .error e => .error (.client e)
    | .ok result => .ok (result.text settings.printStats)

/-- The runs in turn up to the first that fails. The text is what a verbose check shows: each
listing and the matches in it. -/
def checkRuns (p : Program) (directives : List Directive) :
    List RunLine → String × Except Failure Unit
  | [] => ("", .ok ())
  | r :: rest =>
    match output p r with
    | .error e => ("", .error e)
    | .ok output =>
      match Matching.start output directives with
      | .error e m => (output ++ "\n" ++ m.log, .error (.mismatch e))
      | .ok _ m =>
        let (log, verdict) := checkRuns p directives rest
        (output ++ "\n" ++ m.log ++ log, verdict)

def check (s : Script) : String × Except Failure Unit :=
  if s.runs.isEmpty then ("", .error .noRun)
  else
    match Program.parse s.source with
    | .error e => ("", .error (.parse e))
    | .ok p => checkRuns p s.directives s.runs

end Script

/-- Checks a text that carries its own script. -/
def checkText (text : String) : String × Except Failure Unit :=
  match Script.parse text with
  | .error e => ("", .error (.script e))
  | .ok s => s.check

end DefUse
