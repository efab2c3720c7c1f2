import DefUse.Text.Blank

namespace DefUse.Text

/-- A carriage return right before a newline belongs to the line end. Text after the last newline is
a line unless it is empty. -/
def cutLines : List Char → List (List Char)
  | [] => []
  | '\n' :: rest => [] :: cutLines rest
  | '\r' :: '\n' :: rest => [] :: cutLines rest
  | c :: rest =>
    match cutLines rest with
    | [] => [[c]]
    | line :: others => (c :: line) :: others

def lines (text : String) : List String :=
  (cutLines text.toList).map String.ofList

def dropBlanks (cs : List Char) : List Char :=
  cs.dropWhile isBlank

/-- Without the blanks at both ends. -/
def trimBlanks (cs : List Char) : List Char :=
  (dropBlanks (dropBlanks cs).reverse).reverse

/-- What stands between blanks. -/
def cutWords : List Char → List (List Char)
  | [] => []
  | c :: rest =>
    if isBlank c then cutWords rest
    else
      match rest, cutWords rest with
      | d :: _, word :: others => if isBlank d then [c] :: word :: others else (c :: word) :: others
      | _, others => [c] :: others

/-- What follows a heading, if the text begins with it. -/
def after? : (heading : List Char) → List Char → Option (List Char)
  | [], cs => some cs
  | h :: heading, c :: cs => if h = c then after? heading cs else none
  | _ :: _, [] => none

theorem after?_eq_some_iff {heading cs rest : List Char} :
    after? heading cs = some rest ↔ cs = heading ++ rest := by
  induction heading generalizing cs with
  | nil => simp [after?]
  | cons h heading ih =>
    cases cs with
    | nil => simp [after?]
    | cons c cs => by_cases hc : h = c <;> simp [after?, hc, ih, eq_comm]

/-- Whether the pattern stands somewhere in the line. -/
def holds (pattern : List Char) : List Char → Bool
  | [] => pattern.isEmpty
  | c :: rest => pattern.isPrefixOf (c :: rest) || holds pattern rest

theorem holds_iff_infix {pattern line : List Char} : holds pattern line = true ↔ pattern <:+: line := by
  induction line with
  | nil => simp [holds]
  | cons c rest ih => simp [holds, ih, List.infix_cons_iff]

end DefUse.Text
