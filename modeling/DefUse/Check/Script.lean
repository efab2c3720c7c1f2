import DefUse.Text.Lines

namespace DefUse

inductive DirectiveKind where
  /-- On this line or a later one. -/
  | check
  /-- The same, at the start of a section. -/
  | label
  /-- On the line right after the previous match. -/
  | next
  /-- On no line before the next match. -/
  | never
  | comment
deriving DecidableEq, Repr

def DirectiveKind.text : DirectiveKind → String
  | check => "CHECK"
  | label => "CHECK-LABEL"
  | next => "CHECK-NEXT"
  | never => "CHECK-NOT"
  | comment => "COM"

structure Directive where
  kind : DirectiveKind
  pattern : String
deriving DecidableEq, Repr

structure RunLine where
  command : String
  args : List String
deriving DecidableEq, Repr

/-- The arguments but for the place of the input file. -/
def RunLine.flags (r : RunLine) : List String :=
  r.args.filter (· ≠ "%s")

structure Script where
  runs : List RunLine := []
  directives : List Directive := []
  /-- The whole text; to its units the directives are comments. -/
  source : String
deriving DecidableEq, Repr

inductive ScriptError where
  | emptyRun (line : Nat)
  | unknownDirective (line : Nat) (text : String)
deriving DecidableEq, Repr

def ScriptError.message : ScriptError → String
  | emptyRun line => "line " ++ toString line ++ ": empty RUN directive"
  | unknownDirective line text =>
    "line " ++ toString line ++ ": unknown directive '" ++ text ++ "'"

namespace Script

/-- What a semicolon at the start of a line is followed by. -/
def comment? (line : List Char) : Option (List Char) :=
  (Text.after? [';'] (Text.trimBlanks line)).map Text.dropBlanks

/-- A kind, a colon, and a pattern without the blanks around it. -/
def directive? (comment : List Char) : Option Directive :=
  [DirectiveKind.label, .next, .never, .check, .comment].findSome? fun kind =>
    (Text.after? (kind.text ++ ":").toList comment).map fun pattern =>
      ⟨kind, String.ofList (Text.trimBlanks pattern)⟩

/-- Takes in one line of the text. -/
def addLine (s : Script) (number : Nat) (line : List Char) : Except ScriptError Script :=
  match comment? line with
  | none => .ok s
  | some comment =>
    match Text.after? "RUN:".toList comment with
    | some rest =>
      match (Text.cutWords rest).map String.ofList with
      | [] => .error (.emptyRun number)
      | command :: args => .ok { s with runs := s.runs ++ [⟨command, args⟩] }
    | none =>
      match directive? comment with
      | some directive => .ok { s with directives := s.directives ++ [directive] }
      | none =>
        if (Text.after? "CHECK".toList comment).isSome then
          .error (.unknownDirective number (String.ofList comment))
        else .ok s

def addLines : Script → (number : Nat) → List (List Char) → Except ScriptError Script
  | s, _, [] => .ok s
  | s, number, line :: rest => do
    let s ← s.addLine number line
    addLines s (number + 1) rest

def parse (text : String) : Except ScriptError Script :=
  addLines { source := text } 1 (Text.cutLines text.toList)

end Script
end DefUse
