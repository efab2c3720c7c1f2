import Mathlib.Data.List.DropRight
import DefUse.Check.Verdict
import DefUse.Proofs.Program.Scanning

namespace DefUse

namespace Text

/-- A line up to its comment, without the blanks at its end. -/
def bareLine (line : List Char) : List Char :=
  (line.takeWhile (· ≠ ';')).rdropWhile isBlank

/-- A text with all of its lines made bare. -/
def bare (cs : List Char) : List Char :=
  ['\n'].intercalate ((cs.splitOn '\n').map bareLine)

theorem rdropWhile_cons {α : Type} (p : α → Bool) (a : α) (l : List α) : (a :: l).rdropWhile p =
    if p a = true ∧ l.rdropWhile p = [] then [] else a :: l.rdropWhile p := by
  simp only [List.rdropWhile, List.reverse_cons, List.dropWhile_append, List.reverse_eq_nil_iff]
  generalize l.reverse.dropWhile p = m
  cases m with
  | nil => cases hp : p a <;> simp [hp]
  | cons b m => simp

theorem bareLine_semicolon (line : List Char) : bareLine (';' :: line) = [] := by
  simp [bareLine]

theorem bareLine_cons {c : Char} (hc : c ≠ ';') (line : List Char) :
    bareLine (c :: line) =
      if isBlank c = true ∧ bareLine line = [] then [] else c :: bareLine line := by
  have htake : (c :: line).takeWhile (· ≠ ';') = c :: line.takeWhile (· ≠ ';') := by simp [hc]
  rw [bareLine, htake, rdropWhile_cons]
  rfl

@[simp] theorem bare_nil : bare [] = [] := by
  simp [bare, bareLine]

theorem bare_newline (rest : List Char) : bare ('\n' :: rest) = '\n' :: bare rest := by
  have hsplit : ('\n' :: rest).splitOn '\n' = [] :: rest.splitOn '\n' := by
    simp [List.splitOn, List.splitOnP_cons_eq_if_modifyHead]
  have hne : (rest.splitOn '\n').map bareLine ≠ [] := by simp
  rw [bare, hsplit, List.map_cons, List.intercalate_cons_of_ne_nil hne]
  rfl

theorem splitOn_newline (cs : List Char) : ∃ lines,
    cs.splitOn '\n' = cs.takeWhile (· ≠ '\n') :: lines ∧
      ∀ line, ['\n'].intercalate (line :: lines.map bareLine) =
        line ++ bare (cs.dropWhile (· ≠ '\n')) := by
  induction cs with
  | nil => exact ⟨[], rfl, fun line => by simp⟩
  | cons c rest ih =>
    by_cases hc : c = '\n'
    · have hne : (rest.splitOn '\n').map bareLine ≠ [] := by simp
      refine ⟨rest.splitOn '\n', ?_, ?_⟩
      · simp [hc, List.splitOn, List.splitOnP_cons_eq_if_modifyHead]
      · intro line
        rw [List.intercalate_cons_of_ne_nil hne, hc, List.dropWhile_cons_of_neg (by simp),
          bare_newline, bare]
        simp
    · obtain ⟨lines, hsplit, hjoin⟩ := ih
      refine ⟨lines, ?_, ?_⟩
      · rw [List.splitOn] at hsplit ⊢
        simp [List.splitOnP_cons_eq_if_modifyHead, hc, hsplit]
      · simpa [hc] using hjoin

theorem bare_eq (cs : List Char) :
    bare cs = bareLine (cs.takeWhile (· ≠ '\n')) ++ bare (cs.dropWhile (· ≠ '\n')) := by
  obtain ⟨lines, hsplit, hjoin⟩ := splitOn_newline cs
  rw [← hjoin, bare, hsplit]
  rfl

theorem bare_cons {c : Char} (hc : c ≠ '\n') (rest : List Char) : bare (c :: rest) =
    bareLine (c :: rest.takeWhile (· ≠ '\n')) ++ bare (rest.dropWhile (· ≠ '\n')) := by
  rw [bare_eq]
  simp [hc]

theorem head?_bare_dropWhile (cs : List Char) :
    ∀ x ∈ (bare (cs.dropWhile (· ≠ '\n'))).head?, x = '\n' := by
  induction cs with
  | nil => simp
  | cons c rest ih =>
    by_cases hc : c = '\n'
    · rw [hc, List.dropWhile_cons_of_neg (by simp), bare_newline]
      simp
    · simpa [hc] using ih

theorem bare_visible {c : Char} (hc : Visible c) (rest : List Char) :
    bare (c :: rest) = c :: bare rest := by
  rw [bare_cons hc.ne_newline, bareLine_cons hc.2, hc.1, bare_eq rest]
  rfl

/-- A blank stays if there is something visible behind it on its line. -/
theorem bare_blank {c : Char} (hc : isBlank c = true) (hn : c ≠ '\n') (rest : List Char) :
    bare (c :: rest) = c :: bare rest ∨
      (bare (c :: rest) = bare rest ∧ ∀ x ∈ (bare rest).head?, x = '\n') := by
  have hsemi : c ≠ ';' := by
    rintro rfl
    revert hc
    decide
  rw [bare_cons hn, bareLine_cons hsemi, bare_eq rest]
  by_cases hnil : bareLine (rest.takeWhile (· ≠ '\n')) = []
  · right
    rw [if_pos ⟨hc, hnil⟩, hnil]
    exact ⟨rfl, head?_bare_dropWhile rest⟩
  · left
    rw [if_neg (fun h => hnil h.2)]
    rfl

theorem bare_semicolon (rest : List Char) :
    bare (';' :: rest) = bare (rest.dropWhile (· ≠ '\n')) := by
  rw [bare_cons (by decide), bareLine_semicolon]
  rfl

/-- The first character stays, if it is visible, and otherwise nothing visible takes its place. -/
theorem head?_bare {x : Char} (hx : Visible x) (cs : List Char) :
    (bare cs).head? = some x ↔ cs.head? = some x := by
  cases cs with
  | nil => simp
  | cons c rest =>
    have hnot (h : c = '\n' ∨ c = ';' ∨ isBlank c = true) : c ≠ x := by
      rintro rfl
      rcases h with h | h | h
      · exact hx.ne_newline h
      · exact hx.2 h
      · rw [hx.1] at h
        cases h
    by_cases hn : c = '\n'
    · rw [hn, bare_newline]
      simp
    by_cases hs : c = ';'
    · have hhead := head?_bare_dropWhile rest
      rw [hs, bare_semicolon, ← hs]
      constructor
      · intro h
        exact absurd (hhead x h) hx.ne_newline
      · intro h
        exact absurd (Option.some.inj h) (hnot (Or.inr (Or.inl hs)))
    cases hb : isBlank c with
    | false => rw [bare_visible ⟨hb, hs⟩]; simp
    | true =>
      rcases bare_blank hb hn rest with h | ⟨h, hhead⟩
      · rw [h]
        simp
      · rw [h]
        constructor
        · intro h
          exact absurd (hhead x h) hx.ne_newline
        · intro h
          exact absurd (Option.some.inj h) (hnot (Or.inr (Or.inr hb)))

/-- Runs of visible characters are kept. -/
theorem bare_run {kind : Char → Bool} (hkind : ∀ x, kind x = true → Visible x) (cs : List Char) :
    (bare cs).takeWhile kind = cs.takeWhile kind ∧
      (bare cs).dropWhile kind = bare (cs.dropWhile kind) := by
  induction cs with
  | nil => simp
  | cons c rest ih =>
    cases hc : kind c with
    | true => simp [bare_visible (hkind c hc), hc, ih]
    | false =>
      have hstop : ∀ x ∈ (bare (c :: rest)).head?, kind x = false := by
        intro x hx
        cases hkx : kind x with
        | false => rfl
        | true =>
          have hhead := (head?_bare (hkind x hkx) (c :: rest)).mp hx
          rw [Option.some.inj hhead, hkx] at hc
          cases hc
      rw [List.takeWhile_cons_of_neg (by simp [hc]), List.dropWhile_cons_of_neg (by simp [hc])]
      cases hbare : bare (c :: rest) with
      | nil => simp
      | cons x xs =>
        have hx := hstop x (by rw [hbare]; rfl)
        simp [hx]

end Text

open Text

theorem map_bind_eq {ε α β : Type} {x : Except ε α} {u : α → α} {f g : α → Except ε β}
    (h : ∀ a, x = .ok a → f (u a) = g a) : (x.map u >>= f) = x >>= g := by
  cases hx : x with
  | error e => rfl
  | ok a => exact h a hx

theorem map_bind_eq_map {ε α β : Type} {x : Except ε α} {u : α → α} {w : β → β}
    {f g : α → Except ε β} (h : ∀ a, x = .ok a → f (u a) = (g a).map w) :
    (x.map u >>= f) = (x >>= g).map w := by
  cases hx : x with
  | error e => rfl
  | ok a => exact h a hx

namespace Cursor

/-- The cursor at the same place of the bare text. -/
def bared (c : Cursor) : Cursor :=
  { c with rest := bare c.rest }

theorem skipFrom_bare (newlines comment : Bool) (cs : List Char) (line : Nat) :
    skipFrom newlines false (bare (if comment then cs.dropWhile (· ≠ '\n') else cs)) line =
      (skipFrom newlines comment cs line).bared := by
  induction cs generalizing comment line with
  | nil => cases comment <;> simp [skipFrom, bared]
  | cons c rest ih =>
    by_cases hn : c = '\n'
    · have hsame :
          (if comment then (c :: rest).dropWhile (· ≠ '\n') else c :: rest) = c :: rest := by
        cases comment <;> simp [hn]
      rw [hsame, hn, bare_newline]
      cases newlines with
      | true => simpa [skipFrom] using ih false (line + 1)
      | false => simp [skipFrom, bared, bare_newline]
    cases comment with
    | true => simpa [skipFrom, hn] using ih true line
    | false =>
      by_cases hs : c = ';'
      · rw [if_neg (by decide), hs, bare_semicolon]
        simpa [skipFrom] using ih true line
      cases hb : isBlank c with
      | false =>
        rw [if_neg (by decide), bare_visible ⟨hb, hs⟩]
        simp [skipFrom, hn, hs, hb, bared, bare_visible ⟨hb, hs⟩]
      | true =>
        have hrest := ih false line
        rw [if_neg (by decide)] at hrest ⊢
        rcases bare_blank hb hn rest with h | ⟨h, _⟩
        · simpa [skipFrom, hn, hs, hb, h] using hrest
        · simpa [skipFrom, hn, hs, hb, h] using hrest

theorem skip_bared (newlines : Bool) (c : Cursor) :
    c.bared.skip newlines = (c.skip newlines).bared :=
  skipFrom_bare newlines false c.rest c.line

theorem bare_skip_cons {newlines : Bool} {c : Cursor} {x : Char} {rest : List Char}
    (h : (c.skip newlines).rest = x :: rest) : (c.skip newlines).bared.rest = x :: bare rest := by
  rw [bared, h]
  rcases head?_skip newlines c x (by rw [h]; rfl) with ⟨rfl, _⟩ | hx
  · exact bare_newline rest
  · exact bare_visible hx rest

theorem bare_skip_nil {newlines : Bool} {c : Cursor} (h : (c.skip newlines).rest = []) :
    (c.skip newlines).bared.rest = [] := by
  rw [bared, h]
  exact bare_nil

theorem found?_bared (newlines : Bool) (c : Cursor) :
    (c.skip newlines).bared.found? = (c.skip newlines).found? := by
  cases hr : (c.skip newlines).rest with
  | nil => simp [found?, bare_skip_nil hr, hr]
  | cons x rest => simp [found?, bare_skip_cons hr, hr]

theorem tail_bared (newlines : Bool) (c : Cursor) :
    (c.skip newlines).bared.rest.tail = bare (c.skip newlines).rest.tail := by
  cases hr : (c.skip newlines).rest with
  | nil => simp [bare_skip_nil hr]
  | cons x rest => simp [bare_skip_cons hr]

theorem require_bared (wanted : Char) (c : Cursor) :
    require wanted c.bared = (require wanted c).map bared := by
  simp only [require, skip_bared, found?_bared, tail_bared]
  split
  · rfl
  · rfl

theorem identifier_bared (c : Cursor) :
    identifier c.bared = (identifier c).map (Prod.map id bared) := by
  have hrun := @bare_run isNamePart (fun _ => Grammar.visible_of_isNamePart) (c.skip false).rest
  simp only [identifier, skip_bared, found?_bared]
  split
  · rfl
  · split
    · simp only [bared, hrun]
      rfl
    · rfl

theorem number_bared (c : Cursor) : number c.bared = (number c).map (Prod.map id bared) := by
  have hrun := @bare_run Char.isAlphanum (fun _ => Grammar.visible_of_isAlphanum)
    (c.skip false).rest
  simp only [number, skip_bared]
  simp only [bared, hrun]
  split
  · rfl
  · split <;> rfl

theorem varnode_bared (space : String) (c : Cursor) :
    varnode space c.bared = (varnode space c).map (Prod.map id bared) := by
  rw [varnode, number_bared]
  refine map_bind_eq_map fun a _ => ?_
  simp only [Prod.map, id]
  rw [require_bared]
  refine map_bind_eq_map fun b _ => ?_
  rw [number_bared]
  refine map_bind_eq_map fun d _ => ?_
  simp only [Prod.map, id]
  rw [require_bared]
  refine map_bind_eq_map fun e _ => ?_
  split
  · rfl
  · rfl

/-- A bracket right behind a name stays there. -/
theorem varnode_or_name_bared (name : String) (c : Cursor) :
    (match c.bared.rest with
      | '[' :: rest => varnode name { c.bared with rest }
      | _ => pure (.name name, c.bared)) =
    (match c.rest with
      | '[' :: rest => varnode name { c with rest }
      | _ => pure (.name name, c)).map (Prod.map id bared) := by
  have hbracket : Visible '[' := ⟨by decide, by decide⟩
  have hhead := head?_bare hbracket c.rest
  by_cases h : c.rest.head? = some '['
  · obtain ⟨rest, hr⟩ := List.head?_eq_some_iff.mp h
    have hbare : c.bared.rest = '[' :: bare rest := by rw [bared, hr, bare_visible hbracket]
    rw [hbare, hr]
    exact varnode_bared name { c with rest }
  · split
    next rest hr =>
      have hbare : (bare c.rest).head? = some '[' := by
        rw [show bare c.rest = _ from hr]
        rfl
      exact absurd (hhead.mp hbare) h
    next =>
      split
      next rest hr => exact absurd (by rw [hr]; rfl) h
      next => rfl

theorem operand_bared (c : Cursor) : operand c.bared = (operand c).map (Prod.map id bared) := by
  simp only [operand, skip_bared, found?_bared, tail_bared]
  split
  · change (identifier (bared { c.skip false with rest := (c.skip false).rest.tail }) >>= _) = _
    rw [identifier_bared]
    exact map_bind_eq_map fun a _ => rfl
  · split
    · rw [number_bared]
      exact map_bind_eq_map fun a _ => rfl
    · rw [identifier_bared]
      refine map_bind_eq_map fun a _ => ?_
      exact varnode_or_name_bared a.1 a.2

theorem operands_bared (c : Cursor) : operands c.bared = (operands c).map (Prod.map id bared) := by
  rw [operands_eq, operands_eq c, operand_bared]
  refine map_bind_eq_map fun a ha => ?_
  simp only [Prod.map, id, skip_bared, found?_bared]
  split
  · rfl
  · rw [require_bared]
    refine map_bind_eq_map fun b hb => ?_
    have hlt := Nat.lt_trans (length_of_require hb) (length_of_operand ha)
    rw [operands_bared b]
    exact map_bind_eq_map fun d _ => rfl
termination_by c.rest.length

theorem recordHead_bared (c : Cursor) :
    recordHead c.bared = (recordHead c).map (Prod.map id bared) := by
  rw [recordHead, operand_bared]
  refine map_bind_eq_map fun a _ => ?_
  simp only [Prod.map, id, skip_bared, found?_bared, tail_bared]
  split
  · change (identifier (bared { a.2.skip false with rest := (a.2.skip false).rest.tail }) >>= _) = _
    rw [identifier_bared]
    exact map_bind_eq_map fun b _ => rfl
  · split
    · rfl
    · rfl

theorem record_bared (c : Cursor) : record c.bared = (record c).map (Prod.map id bared) := by
  rw [record, recordHead_bared]
  refine map_bind_eq_map fun a _ => ?_
  simp only [Prod.map, id, skip_bared, found?_bared]
  split
  · rfl
  · rw [operands_bared]
    exact map_bind_eq_map fun b _ => rfl

theorem records_bared (name : String) (c : Cursor) :
    records name c.bared = (records name c).map (Prod.map id bared) := by
  rw [records_eq, records_eq name c, skip_bared]
  cases hr : (c.skip true).rest with
  | nil =>
    rw [bare_skip_nil hr]
    rfl
  | cons x rest =>
    rw [bare_skip_cons hr]
    simp only
    split
    · rfl
    · rw [record_bared]
      refine map_bind_eq_map fun a ha => ?_
      have hlt := Nat.lt_of_lt_of_le (length_of_record ha) (length_skip_le true c)
      simp only [Prod.map, id]
      rw [records_bared name a.2]
      exact map_bind_eq_map fun b _ => rfl
termination_by c.rest.length

theorem codeUnit_bared (taken : List String) (c : Cursor) :
    codeUnit taken c.bared = (codeUnit taken c).map (Prod.map id bared) := by
  rw [codeUnit, identifier_bared]
  refine map_bind_eq_map fun a _ => ?_
  simp only [Prod.map, id]
  split
  · rfl
  · rw [identifier_bared]
    refine map_bind_eq_map fun b _ => ?_
    simp only [Prod.map, id]
    split
    · rfl
    · rw [require_bared]
      refine map_bind_eq_map fun d _ => ?_
      rw [records_bared]
      exact map_bind_eq_map fun e _ => rfl

theorem codeUnits_bared (taken : List String) (c : Cursor) :
    codeUnits taken c.bared = codeUnits taken c := by
  rw [codeUnits_eq, codeUnits_eq taken c, skip_bared]
  cases hr : (c.skip true).rest with
  | nil => rw [bare_skip_nil hr, if_pos rfl, if_pos rfl]
  | cons x rest =>
    rw [bare_skip_cons hr, if_neg (by simp), if_neg (by simp), codeUnit_bared]
    refine map_bind_eq fun a ha => ?_
    have hlt := Nat.lt_of_lt_of_le (length_of_codeUnit ha) (length_skip_le true c)
    simp only [Prod.map, id]
    rw [codeUnits_bared (a.1.name :: taken) a.2]
termination_by c.rest.length

end Cursor

namespace Script

/-- A line that can carry a directive is all comment. -/
theorem bareLine_of_comment? {line comment : List Char} (h : comment? line = some comment) :
    bareLine line = [] := by
  obtain ⟨rest, htrim, _⟩ := Option.map_eq_some_iff.mp h
  rw [after?_eq_some_iff] at htrim
  have hdrop : ∃ t, line.dropWhile isBlank = ';' :: t := by
    obtain ⟨t, ht⟩ := List.rdropWhile_prefix isBlank (line.dropWhile isBlank)
    refine ⟨rest ++ t, ?_⟩
    rw [← ht]
    exact congrArg (· ++ t) htrim
  obtain ⟨t, ht⟩ := hdrop
  have hblank : ∀ x ∈ line.takeWhile isBlank, isBlank x = true := fun x hx =>
    List.mem_takeWhile_imp hx
  have htake : line.takeWhile (· ≠ ';') = line.takeWhile isBlank := by
    conv_lhs => rw [← List.takeWhile_append_dropWhile (p := isBlank) (l := line), ht]
    rw [List.takeWhile_append_of_pos]
    · simp
    · intro x hx
      have hb := hblank x hx
      rw [decide_eq_true_eq]
      rintro rfl
      revert hb
      decide
  rw [bareLine, htake, List.rdropWhile_eq_nil_iff]
  exact hblank

end Script

/-- A program text without comments and without blanks at the ends of its lines. -/
def Program.bareText (text : String) : String :=
  String.ofList (bare text.toList)

/-- The bare text gives the same program with the same line numbers, or the same error at the same
line. A check of it with the same runs and directives has the same outcome, although the lines of
the directives are empty in it. -/
theorem Program.comments_are_invisible (text : String) :
    parse (bareText text) = parse text ∧
    (∀ s : Script, s.source = text → Script.check { s with source := bareText text } = s.check) ∧
    ∀ line comment, Script.comment? line = some comment → bareLine line = [] := by
  have hparse : parse (bareText text) = parse text := by
    rw [parse, bareText, String.toList_ofList]
    exact congrArg (· >>= _) (Cursor.codeUnits_bared [] { rest := text.toList })
  refine ⟨hparse, ?_, fun _ _ => Script.bareLine_of_comment?⟩
  intro s hs
  rw [Script.check, Script.check, hparse, hs]

/-- A check script with directives, remarks, a carriage return and blanks at the ends of lines. -/
def remarked : String :=
  "; RUN: jitir %s\nunit a \x7b ; first \n  RAX = COPY RCX\t \r\n\x7d ;;\n ; CHECK: COPY"

def unremarked : String :=
  "\nunit a \x7b\n  RAX = COPY RCX\n\x7d\n"

theorem remarked_is_bared :
    Program.bareText remarked = unremarked ∧ Program.parse unremarked = Program.parse remarked ∧
    Script.check ⟨[⟨"jitir", ["%s"]⟩], [⟨.check, "COPY"⟩], unremarked⟩ =
      Script.check ⟨[⟨"jitir", ["%s"]⟩], [⟨.check, "COPY"⟩], remarked⟩ ∧
    bareLine " ; CHECK: COPY".toList = [] := by
  have hbare : Program.bareText remarked = unremarked := by decide +kernel
  have hcomment : Script.comment? " ; CHECK: COPY".toList = some "CHECK: COPY".toList := by
    decide +kernel
  obtain ⟨hparse, hcheck, hline⟩ := Program.comments_are_invisible remarked
  rw [hbare] at hparse hcheck
  exact ⟨hbare, hparse, hcheck ⟨_, _, remarked⟩ rfl, hline _ _ hcomment⟩

end DefUse
