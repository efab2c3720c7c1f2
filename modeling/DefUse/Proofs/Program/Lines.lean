import Mathlib.Control.Monad.Basic
import Mathlib.Logic.Relation
import DefUse.Proofs.Program.Moves
import DefUse.Proofs.Program.Parsing

namespace DefUse

namespace Cursor
variable {c d : Cursor}

theorem skip_eq_self (newlines : Bool) (h : ∀ x ∈ c.rest.head?, Text.Visible x) :
    c.skip newlines = c := by
  obtain ⟨rest, line⟩ := c
  cases rest with
  | nil => rfl
  | cons x rest =>
    have hx : Text.Visible x := h x rfl
    simp [skip, skipFrom, hx.ne_newline, hx.1, hx.2]

theorem skip_skip_true (newlines : Bool) (c : Cursor) :
    (c.skip true).skip newlines = c.skip true := by
  refine skip_eq_self newlines fun x hx => ?_
  rcases head?_skip true c x hx with ⟨_, hfalse⟩ | hvisible
  · cases hfalse
  · exact hvisible

/-- From the end of a line, what comes next is on a later one. -/
theorem line_lt_skip (hend : c.found? = none) (hrest : (c.skip true).rest ≠ []) :
    c.line < (c.skip true).line := by
  obtain ⟨rest, line⟩ := c
  cases rest with
  | nil => exact absurd rfl hrest
  | cons x rest =>
    have hx : x = '\n' := by simpa [found?] using hend
    subst hx
    exact (moves_skip_true ⟨rest, line + 1⟩).line_le

theorem line_of_record {r : Record} (h : record c = .ok (r, d)) : r.line = c.line := by
  simp only [record, except_bind_eq_ok, Prod.exists] at h
  obtain ⟨output, opcode, next, _, h⟩ := h
  split at h
  · simp only [pure, Except.pure, Except.ok.injEq, Prod.mk.injEq] at h
    rw [← h.1]
  · simp only [except_bind_eq_ok, Prod.exists, pure, Except.pure, Except.ok.injEq,
      Prod.mk.injEq] at h
    obtain ⟨_, _, _, rfl, _⟩ := h
    rfl

theorem Heads.moves {newlines : Bool} {taken : List String} {name : String} {body : Cursor}
    (h : Heads taken c name body) : Moves newlines c body := by
  obtain ⟨behind, brace, hkeyword, hname, _, hbody⟩ := h
  have hbehind : Moves newlines c behind := (tracks_identifier c).moves hkeyword
  have hbrace : Moves newlines behind brace := (tracks_identifier behind).moves hname
  exact (hbehind.trans hbrace).trans ((tracks_require '\x7b' brace).moves hbody)

theorem Heads.length_lt {taken : List String} {name : String} {body : Cursor}
    (h : Heads taken c name body) : body.rest.length < c.rest.length := by
  obtain ⟨behind, brace, hkeyword, hname, _, hbody⟩ := h
  have := length_of_identifier hkeyword
  have := length_of_identifier hname
  have := length_of_require hbody
  omega

theorem Heads.rest_ne_nil {taken : List String} {name : String} {body : Cursor}
    (h : Heads taken c name body) : c.rest ≠ [] :=
  List.ne_nil_of_length_pos (Nat.zero_lt_of_lt h.length_lt)

theorem rest_ne_nil_of_record {r : Record} (h : record c = .ok (r, d)) : c.rest ≠ [] :=
  List.ne_nil_of_length_pos (Nat.zero_lt_of_lt (length_of_record h))

theorem found?_ne_of_rest {ch wanted : Char} {rest : List Char} (hrest : c.rest = ch :: rest)
    (hch : ch ≠ wanted) : c.found? ≠ some wanted := by
  intro hfound
  obtain ⟨_, hrest', _⟩ := found?_eq_some_iff.mp hfound
  rw [hrest] at hrest'
  exact hch (List.cons.inj hrest').1

/-- A unit whose head cannot be read is refused on the line where it begins. -/
theorem stopsWith_of_codeUnit {taken : List String} {e : ParseError}
    (h : codeUnit taken c = .error e) (hhead : ∀ name body, ¬ Heads taken c name body) :
    StopsWith false c e := by
  rcases except_bind_eq_error.mp h with hfail | ⟨⟨keyword, behind⟩, hkeyword, h⟩
  · exact (tracks_identifier c).stops hfail
  have hbehind : Moves false c behind := (tracks_identifier c).moves hkeyword
  dsimp only at h
  split at h
  next hunit =>
    exact stopsWith_of_fail h hbehind fun _ hpasses =>
      ⟨suffix_of_identifier hkeyword hpasses, hunit⟩
  next hunit =>
    obtain rfl : keyword = "unit" := not_not.mp hunit
    refine StopsWith.behind hbehind ?_
    rcases except_bind_eq_error.mp h with hfail | ⟨⟨name, brace⟩, hname, h⟩
    · exact (tracks_identifier behind).stops hfail
    have hbrace : Moves false behind brace := (tracks_identifier behind).moves hname
    dsimp only at h
    split at h
    next =>
      exact stopsWith_of_fail h hbrace fun _ hpasses => suffix_of_identifier hname hpasses
    next hnew =>
      refine StopsWith.behind hbrace ?_
      rcases except_bind_eq_error.mp h with hfail | ⟨body, hbody, _⟩
      · exact (tracks_require '\x7b' brace).stops hfail
      · exact absurd ⟨behind, brace, hkeyword, hname, hnew, hbody⟩ (hhead name body)

end Cursor

open Cursor

/-- What was read of a text: whole units, perhaps a part of one more, and the place reached. -/
structure Stage where
  units : List CodeUnit
  opened : Option CodeUnit
  cursor : Cursor

namespace Stage

def start (text : String) : Stage :=
  ⟨[], none, { rest := text.toList }⟩

def read (s : Stage) : List CodeUnit :=
  s.units ++ s.opened.toList

def records (s : Stage) : List Record :=
  s.read.flatMap (·.records)

def taken (units : List CodeUnit) : List String :=
  (units.map (·.name)).reverse

theorem read_none (units : List CodeUnit) (c : Cursor) : read ⟨units, none, c⟩ = units :=
  List.append_nil units

theorem read_some (units : List CodeUnit) (u : CodeUnit) (c : Cursor) :
    read ⟨units, some u, c⟩ = units ++ [u] :=
  rfl

theorem records_none (units : List CodeUnit) (c : Cursor) :
    records ⟨units, none, c⟩ = units.flatMap (·.records) := by
  rw [records, read_none]

theorem records_some (units : List CodeUnit) (u : CodeUnit) (c : Cursor) :
    records ⟨units, some u, c⟩ = units.flatMap (·.records) ++ u.records := by
  rw [records, read_some, List.flatMap_append, List.flatMap_singleton]

inductive Step : Stage → Stage → Prop
  | opens {units : List CodeUnit} {name : String} {c body : Cursor} :
    Heads (taken units) (c.skip true) name body →
    Step ⟨units, none, c⟩ ⟨units, some ⟨name, (c.skip true).line, []⟩, body⟩
  | reads {units : List CodeUnit} {u : CodeUnit} {r : Record} {c d : Cursor} :
    (c.skip true).found? ≠ some '\x7d' → record (c.skip true) = .ok (r, d) →
    Step ⟨units, some u, c⟩ ⟨units, some { u with records := u.records ++ [r] }, d⟩
  | closes {units : List CodeUnit} {u : CodeUnit} {c : Cursor} {rest : List Char} :
    (c.skip true).rest = '\x7d' :: rest →
    Step ⟨units, some u, c⟩ ⟨units ++ [u], none, { c.skip true with rest }⟩

abbrev Steps : Stage → Stage → Prop :=
  Relation.ReflTransGen Step

/-- What reading on gives. -/
def finish : Stage → Except ParseError (List CodeUnit)
  | ⟨units, none, c⟩ => do
    let others ← codeUnits (taken units) c
    return units ++ others
  | ⟨units, some u, c⟩ => do
    let (rs, d) ← Cursor.records u.name c
    let others ← codeUnits (u.name :: taken units) d
    return units ++ { u with records := u.records ++ rs } :: others

variable {s t : Stage} {us : List CodeUnit}

theorem parse_eq_ok {text : String} {p : Program} (h : Program.parse text = .ok p) :
    finish (start text) = .ok p.units := by
  simp only [Program.parse, except_bind_eq_ok, pure, Except.pure, Except.ok.injEq] at h
  obtain ⟨units, hunits, rfl⟩ := h
  change (codeUnits [] { rest := text.toList } >>= fun others => return [] ++ others) = _
  rw [hunits]
  rfl

theorem parse_eq_error {text : String} {e : ParseError} (h : Program.parse text = .error e) :
    finish (start text) = .error e := by
  rcases except_bind_eq_error.mp h with hfail | ⟨_, _, h⟩
  · exact except_bind_eq_error.mpr (.inl hfail)
  · cases h

theorem Step.moves (h : Step s t) : Moves true s.cursor t.cursor := by
  cases h with
  | @opens _ _ c _ hheads => exact (moves_skip_true c).trans hheads.moves
  | @reads _ _ _ c _ _ hrecord =>
    exact (moves_skip_true c).trans ((tracks_record _).moves hrecord)
  | @closes _ _ c _ hrest => exact (moves_skip_true c).trans (moves_tail hrest (by decide))

theorem Step.length_lt (h : Step s t) : t.cursor.rest.length < s.cursor.rest.length := by
  cases h with
  | @opens _ _ c _ hheads => exact Nat.lt_of_lt_of_le hheads.length_lt (length_skip_le true c)
  | @reads _ _ _ c _ _ hrecord =>
    exact Nat.lt_of_lt_of_le (length_of_record hrecord) (length_skip_le true c)
  | @closes _ _ c rest hrest =>
    have hle := length_skip_le true c
    rw [hrest] at hle
    exact hle

/-- A step leaves open what the whole reading comes to. -/
theorem Step.finish_eq (h : Step s t) : finish s = finish t := by
  cases h with
  | @opens units name c body hheads =>
    rw [finish, finish, codeUnits_eq, if_neg hheads.rest_ne_nil, hheads.codeUnit_eq]
    cases hrs : Cursor.records name body with
    | error e => rfl
    | ok next =>
      cases hothers : codeUnits (name :: taken units) next.2 <;>
        simp [bind, Except.bind, pure, Except.pure, hothers]
  | @reads units u r c d hbrace hrecord =>
    rw [finish, finish, records_eq]
    split
    next hnil => exact absurd hnil (rest_ne_nil_of_record hrecord)
    next ch rest hrest =>
      have hch : ch ≠ '\x7d' := by
        rintro rfl
        exact hbrace (found?_eq_some_iff.mpr ⟨rest, hrest, by decide⟩)
      rw [if_neg hch, hrecord]
      cases hrs : Cursor.records u.name d <;>
        simp [bind, Except.bind, pure, Except.pure, hrs]
  | @closes units u c rest hrest =>
    rw [finish, finish, records_eq, hrest]
    simp only [if_true, bind, Except.bind, taken, List.map_append, List.map_cons, List.map_nil,
      List.reverse_append, List.reverse_cons, List.reverse_nil, List.nil_append, List.cons_append,
      List.append_nil, List.append_assoc]

/-- Reading ends well only where all units are closed. -/
theorem closed_of_stuck (h : finish s = .ok us) (hstuck : ∀ t, ¬ Step s t) :
    s.opened = none ∧ s.units = us := by
  obtain ⟨units, opened, c⟩ := s
  cases opened with
  | none =>
    simp only [finish, except_bind_eq_ok, pure, Except.pure, Except.ok.injEq] at h
    obtain ⟨others, hothers, rfl⟩ := h
    rw [codeUnits_eq] at hothers
    split at hothers
    next =>
      obtain rfl := Except.ok.inj hothers
      exact ⟨rfl, (List.append_nil units).symm⟩
    next =>
      simp only [except_bind_eq_ok, Prod.exists] at hothers
      obtain ⟨u, d, hu, _⟩ := hothers
      obtain ⟨body, hheads, _⟩ := heads_of_codeUnit hu
      exact absurd (.opens hheads) (hstuck _)
  | some u =>
    simp only [finish, except_bind_eq_ok, Prod.exists] at h
    obtain ⟨rs, d, hrs, _⟩ := h
    rw [records_eq] at hrs
    split at hrs
    next => cases hrs
    next ch rest hrest =>
      split at hrs
      next hch =>
        subst hch
        exact absurd (.closes hrest) (hstuck _)
      next hch =>
        simp only [except_bind_eq_ok, Prod.exists] at hrs
        obtain ⟨r, next, hrecord, _⟩ := hrs
        exact absurd (.reads (found?_ne_of_rest hrest hch) hrecord) (hstuck _)

/-- Reading stops on the line of the first thing that no step can read. -/
theorem stopsWith_of_stuck {e : ParseError} (h : finish s = .error e)
    (hstuck : ∀ t, ¬ Step s t) : StopsWith false (s.cursor.skip true) e := by
  obtain ⟨units, opened, c⟩ := s
  cases opened with
  | none =>
    rcases except_bind_eq_error.mp h with hfail | ⟨_, _, h⟩
    · rw [codeUnits_eq] at hfail
      split at hfail
      next => cases hfail
      next =>
        rcases except_bind_eq_error.mp hfail with hfail | ⟨⟨u, d⟩, hu, _⟩
        · exact stopsWith_of_codeUnit hfail fun name body hheads => hstuck _ (.opens hheads)
        · obtain ⟨body, hheads, _⟩ := heads_of_codeUnit hu
          exact absurd (.opens hheads) (hstuck _)
    · cases h
  | some u =>
    rcases except_bind_eq_error.mp h with hfail | ⟨⟨rs, d⟩, hrs, _⟩
    · rw [records_eq] at hfail
      split at hfail
      next hnil => exact stopsWith_of_fail hfail .here fun _ _ => hnil
      next ch rest hrest =>
        split at hfail
        next => cases hfail
        next hch =>
          rcases except_bind_eq_error.mp hfail with hfail | ⟨⟨r, next⟩, hrecord, _⟩
          · exact (tracks_record _).stops hfail
          · exact absurd (.reads (found?_ne_of_rest hrest hch) hrecord) (hstuck _)
    · rw [records_eq] at hrs
      split at hrs
      next => cases hrs
      next ch rest hrest =>
        split at hrs
        next hch =>
          subst hch
          exact absurd (.closes hrest) (hstuck _)
        next hch =>
          simp only [except_bind_eq_ok, Prod.exists] at hrs
          obtain ⟨r, next, hrecord, _⟩ := hrs
          exact absurd (.reads (found?_ne_of_rest hrest hch) hrecord) (hstuck _)

theorem Steps.moves (h : Steps s t) : Moves true s.cursor t.cursor := by
  induction h with
  | refl => exact .here
  | tail _ hstep ih => exact ih.trans hstep.moves

theorem Steps.finish_eq (h : Steps s t) : finish s = finish t := by
  induction h with
  | refl => rfl
  | tail _ hstep ih => exact ih.trans hstep.finish_eq

theorem exists_stuck (s : Stage) : ∃ t, Steps s t ∧ ∀ u, ¬ Step t u := by
  by_cases hstuck : ∀ u, ¬ Step s u
  · exact ⟨s, .refl, hstuck⟩
  · obtain ⟨next, hnext⟩ := not_forall_not.mp hstuck
    have := hnext.length_lt
    obtain ⟨t, hsteps, ht⟩ := exists_stuck next
    exact ⟨t, .head hnext hsteps, ht⟩
termination_by s.cursor.rest.length

/-- The keyword of the unit stands in the text, on the line that the unit has, before its name. -/
def Opens (text : String) (u : CodeUnit) : Prop :=
  ∃ before after names body, text.toList = before ++ "unit".toList ++ after ∧
    u.line = 1 + before.count '\n' ∧ Heads names ⟨"unit".toList ++ after, u.line⟩ u.name body

/-- The record is read from a piece of the text without newlines, on the line that it has. -/
def Spans (text : String) (r : Record) : Prop :=
  ∃ before piece after, text.toList = before ++ piece ++ after ∧ '\n' ∉ piece ∧
    r.line = 1 + before.count '\n' ∧
    record ⟨piece ++ after, r.line⟩ = .ok (r, ⟨after, r.line⟩)

/-- `n` is a line before the place that is reached, or its line if nothing more is on it. -/
def Past (c : Cursor) (n : Nat) : Prop :=
  n < c.line ∨ n = c.line ∧ c.found? = none

theorem Past.lt_skip {c : Cursor} {n : Nat} (h : Past c n) (hrest : (c.skip true).rest ≠ []) :
    n < (c.skip true).line := by
  rcases h with hlt | ⟨rfl, hend⟩
  · exact Nat.lt_of_lt_of_le hlt (moves_skip_true c).line_le
  · exact line_lt_skip hend hrest

theorem Past.le {c : Cursor} {n : Nat} (h : Past c n) : n ≤ c.line := by
  rcases h with hlt | ⟨rfl, _⟩
  · exact Nat.le_of_lt hlt
  · exact Nat.le_refl _

variable {text : String}

theorem opens_of_heads {names : List String} {name : String} {c body : Cursor}
    (hreached : Moves true (start text).cursor (c.skip true))
    (h : Heads names (c.skip true) name body) (rs : List Record) :
    Opens text ⟨name, (c.skip true).line, rs⟩ := by
  have ⟨behind, _, hkeyword, _⟩ := h
  have hrest := rest_of_identifier hkeyword
  rw [skip_skip_true] at hrest
  obtain ⟨before, hbefore, _⟩ := hreached.passes
  refine ⟨before, behind.rest, names, body, ?_, hbefore.line, ?_⟩
  · rw [List.append_assoc, ← hrest]
    exact hbefore.split
  · rw [← hrest]
    exact h

theorem spans_of_record {r : Record} {c d : Cursor}
    (hreached : Moves true (start text).cursor c) (h : record c = .ok (r, d)) :
    Spans text r := by
  have hmoves : Moves false c d := (tracks_record c).moves h
  obtain ⟨before, hbefore, _⟩ := hreached.passes
  obtain ⟨piece, hpiece, hline⟩ := hmoves.passes
  have hc : c = ⟨piece ++ d.rest, r.line⟩ := by
    rw [← hpiece.split, line_of_record h]
  have hd : d = ⟨d.rest, r.line⟩ := by
    rw [line_of_record h, ← hmoves.line_eq]
  refine ⟨before, piece, d.rest, ?_, hline rfl, ?_, ?_⟩
  · rw [List.append_assoc, ← hpiece.split]
    exact hbefore.split
  · rw [line_of_record h]
    exact hbefore.line
  · rw [← hc, ← hd]
    exact h

structure Faithful (text : String) (s : Stage) : Prop where
  reached : Moves true (start text).cursor s.cursor
  opens : ∀ u ∈ s.read, Opens text u
  spans : ∀ r ∈ s.records, Spans text r
  increasing : (s.records.map (·.line)).Pairwise (· < ·)
  past : ∀ r ∈ s.records, Past s.cursor r.line

theorem faithful_start (text : String) : Faithful text (start text) where
  reached := .here
  opens := List.forall_mem_nil _
  spans := List.forall_mem_nil _
  increasing := .nil
  past := List.forall_mem_nil _

theorem Faithful.opening {units : List CodeUnit} {name : String} {c body : Cursor}
    (h : Faithful text ⟨units, none, c⟩) (hheads : Heads (taken units) (c.skip true) name body) :
    Faithful text ⟨units, some ⟨name, (c.skip true).line, []⟩, body⟩ := by
  have hreached := h.reached.trans (moves_skip_true c)
  have hrecords : records ⟨units, some ⟨name, (c.skip true).line, []⟩, body⟩ =
      records ⟨units, none, c⟩ := by
    rw [records_some, records_none, List.append_nil]
  refine ⟨hreached.trans hheads.moves, ?_, hrecords ▸ h.spans, hrecords ▸ h.increasing, ?_⟩
  · intro u hu
    rw [read_some, List.mem_append, List.mem_singleton] at hu
    rcases hu with hu | rfl
    · exact h.opens u (by rw [read_none]; exact hu)
    · exact opens_of_heads hreached hheads []
  · intro r hr
    rw [hrecords] at hr
    have hlt := (h.past r hr).lt_skip hheads.rest_ne_nil
    rw [← hheads.moves.line_eq] at hlt
    exact .inl hlt

/-- The record that is read comes on a later line than the earlier ones and ends its line. -/
theorem Faithful.reading {units : List CodeUnit} {u : CodeUnit} {r : Record} {c d : Cursor}
    (h : Faithful text ⟨units, some u, c⟩) (hrecord : record (c.skip true) = .ok (r, d)) :
    Faithful text ⟨units, some { u with records := u.records ++ [r] }, d⟩ := by
  have hreached := h.reached.trans (moves_skip_true c)
  have hmoves : Moves false (c.skip true) d := (tracks_record _).moves hrecord
  have hline : r.line = d.line := (line_of_record hrecord).trans hmoves.line_eq.symm
  have hearlier : ∀ q ∈ records ⟨units, some u, c⟩, q.line < r.line := by
    intro q hq
    have hlt := (h.past q hq).lt_skip (rest_ne_nil_of_record hrecord)
    rw [← line_of_record hrecord] at hlt
    exact hlt
  have hrecords : records ⟨units, some { u with records := u.records ++ [r] }, d⟩ =
      records ⟨units, some u, c⟩ ++ [r] := by
    rw [records_some, records_some, List.append_assoc]
  refine ⟨hreached.trans ((tracks_record _).moves hrecord), ?_, ?_, ?_, ?_⟩
  · intro v hv
    rw [read_some, List.mem_append, List.mem_singleton] at hv
    rcases hv with hv | rfl
    · exact h.opens v (List.mem_append_left _ hv)
    · exact h.opens u (List.mem_append_right _ (List.mem_singleton_self u))
  · rw [hrecords, List.forall_mem_append, List.forall_mem_singleton]
    exact ⟨h.spans, spans_of_record hreached hrecord⟩
  · rw [hrecords, List.map_append, List.pairwise_append]
    refine ⟨h.increasing, List.pairwise_singleton _ _, ?_⟩
    simpa using hearlier
  · rw [hrecords, List.forall_mem_append, List.forall_mem_singleton]
    refine ⟨?_, .inr ⟨hline, (record_sound hrecord).1⟩⟩
    intro q hq
    have hlt := hearlier q hq
    rw [hline] at hlt
    exact .inl hlt

theorem Faithful.closing {units : List CodeUnit} {u : CodeUnit} {c : Cursor} {rest : List Char}
    (h : Faithful text ⟨units, some u, c⟩) (hrest : (c.skip true).rest = '\x7d' :: rest) :
    Faithful text ⟨units ++ [u], none, { c.skip true with rest }⟩ := by
  have hread : read ⟨units ++ [u], none, { c.skip true with rest }⟩ =
      read ⟨units, some u, c⟩ := by
    rw [read_none, read_some]
  have hrecords : records ⟨units ++ [u], none, { c.skip true with rest }⟩ =
      records ⟨units, some u, c⟩ := by
    rw [records, hread, records]
  refine ⟨?_, hread ▸ h.opens, hrecords ▸ h.spans, hrecords ▸ h.increasing, ?_⟩
  · exact (h.reached.trans (moves_skip_true c)).trans (moves_tail hrest (by decide))
  · intro r hr
    rw [hrecords] at hr
    exact .inl ((h.past r hr).lt_skip (by rw [hrest]; exact List.cons_ne_nil _ _))

theorem Faithful.step (h : Faithful text s) (hstep : Step s t) : Faithful text t := by
  cases hstep with
  | opens hheads => exact h.opening hheads
  | reads _ hrecord => exact h.reading hrecord
  | closes hrest => exact h.closing hrest

theorem faithful_of_steps (h : Steps (start text) s) : Faithful text s := by
  induction h with
  | refl => exact faithful_start text
  | tail _ hstep ih => exact ih.step hstep

theorem steps_of_parse {p : Program} (h : Program.parse text = .ok p) :
    ∃ c, Steps (start text) ⟨p.units, none, c⟩ := by
  obtain ⟨⟨units, opened, c⟩, hsteps, hstuck⟩ := exists_stuck (start text)
  have hfinish := hsteps.finish_eq.symm.trans (parse_eq_ok h)
  obtain ⟨rfl, rfl⟩ := closed_of_stuck hfinish hstuck
  exact ⟨c, hsteps⟩

theorem stopsWith_of_parse {e : ParseError} (h : Program.parse text = .error e)
    (hsteps : Steps (start text) s) (hstuck : ∀ t, ¬ Step s t) :
    StopsWith false (s.cursor.skip true) e :=
  stopsWith_of_stuck (hsteps.finish_eq.symm.trans (parse_eq_error h)) hstuck

end Stage

open Stage

/-- The line at each place is one more than the newlines before it. So it is for the keywords of
units and for records, which take one line each and stand in the order of their lines. The line of an
error is that of the first thing that could not be read: reading stops at a place on that line, which
the error fits, and no record that was read lies behind it. -/
theorem Program.lines_are_faithful (text : String) :
    (∀ s, Steps (start text) s → Moves true (start text).cursor s.cursor) ∧
    (∀ c, Moves true (start text).cursor c →
      ∃ before, text.toList = before ++ c.rest ∧ c.line = 1 + before.count '\n') ∧
    (∀ p, parse text = .ok p →
      (∃ c, Steps (start text) ⟨p.units, none, c⟩) ∧
      (∀ u ∈ p.units, Opens text u ∧ ∀ r ∈ u.records, Spans text r) ∧
      ((p.units.flatMap (·.records)).map (·.line)).Pairwise (· < ·)) ∧
    ∀ e, parse text = .error e →
      1 ≤ e.line ∧ e.line ≤ 1 + text.toList.count '\n' ∧
      (∃ last stop before, Steps (start text) last ∧ (∀ t, ¬ Step last t) ∧
        Moves false (last.cursor.skip true) stop ∧ e.line = (last.cursor.skip true).line ∧
        text.toList = before ++ stop.rest ∧ e.line = stop.line ∧
        stop.line = 1 + before.count '\n' ∧ e.fault.Fits before stop) ∧
      ∀ s, Steps (start text) s → ∀ r ∈ s.records, r.line ≤ e.line := by
  refine ⟨fun s hs => hs.moves, ?_, ?_, ?_⟩
  · intro c hc
    obtain ⟨before, hbefore, _⟩ := hc.passes
    exact ⟨before, hbefore.split, hbefore.line⟩
  · intro p hp
    obtain ⟨c, hsteps⟩ := steps_of_parse hp
    have hfaithful := faithful_of_steps hsteps
    have hspans := hfaithful.spans
    have hincreasing := hfaithful.increasing
    rw [records_none] at hspans hincreasing
    refine ⟨⟨c, hsteps⟩, ?_, hincreasing⟩
    intro u hu
    refine ⟨hfaithful.opens u (by rw [read_none]; exact hu), ?_⟩
    intro r hr
    exact hspans r (List.mem_flatMap_of_mem hu hr)
  · intro e he
    obtain ⟨last, hlast, hstuck⟩ := exists_stuck (start text)
    obtain ⟨stop, passed, hmoves, hpassed, hline, hfits⟩ := stopsWith_of_parse he hlast hstuck
    obtain ⟨earlier, hearlier, _⟩ := (hlast.moves.trans (moves_skip_true _)).passes
    have hbefore := hearlier.trans hpassed
    have hcount : (earlier ++ passed).count '\n' ≤ text.toList.count '\n' :=
      List.Sublist.count_le '\n' (List.IsPrefix.sublist ⟨stop.rest, hbefore.split.symm⟩)
    have hstop : e.line = 1 + (earlier ++ passed).count '\n' := hline.trans hbefore.line
    refine ⟨by omega, by omega, ?_, ?_⟩
    · exact ⟨last, stop, earlier ++ passed, hlast, hstuck, hmoves, hline.trans hmoves.line_eq,
        hbefore.split, hline, hbefore.line, hfits.append earlier⟩
    · intro s hs r hr
      -- reading goes on from there to where it stops
      obtain ⟨final, hfinal, hdone⟩ := exists_stuck s
      obtain ⟨place, _, hplace, _, hend, _⟩ := stopsWith_of_parse he (hs.trans hfinal) hdone
      have hpast : r.line ≤ s.cursor.line := ((faithful_of_steps hs).past r hr).le
      have hon := (hfinal.moves.trans (moves_skip_true _)).line_le
      rw [hend, hplace.line_eq]
      exact hpast.trans hon

/-- A unit with a record, up to where it may be closed. -/
def openedUnit : String :=
  "\nunit a \x7b ; one\n  CALL f\n"

/-- The second text ends a record with a comma, and its line is the one that is reported although
the text goes on. -/
theorem openedUnit_lines :
    (∃ p, Program.parse (openedUnit ++ "\x7d") = .ok p ∧ p.units.map (·.line) = [2] ∧
      ∀ u ∈ p.units, Opens (openedUnit ++ "\x7d") u ∧
        ∀ r ∈ u.records, Spans (openedUnit ++ "\x7d") r) ∧
    Program.parse (openedUnit ++ " CALL f,\n\x7d") = .error ⟨4, .identifierExpected none⟩ ∧
    ∃ s r, Steps (start (openedUnit ++ " CALL f,\n\x7d")) s ∧ r ∈ s.records ∧ r.line = 3 ∧
      r.line ≤ 4 := by
  have hok : Program.parse (openedUnit ++ "\x7d") =
      .ok ⟨[⟨"a", 2, [⟨3, none, "CALL", [.name "f"]⟩]⟩]⟩ := by decide +kernel
  have herror : Program.parse (openedUnit ++ " CALL f,\n\x7d") =
      .error ⟨4, .identifierExpected none⟩ := by decide +kernel
  have hopens : Step (start (openedUnit ++ " CALL f,\n\x7d"))
      ⟨[], some ⟨"a", 2, []⟩, ⟨" ; one\n  CALL f\n CALL f,\n\x7d".toList, 2⟩⟩ := by
    refine .opens ⟨⟨" a \x7b ; one\n  CALL f\n CALL f,\n\x7d".toList, 2⟩,
      ⟨" \x7b ; one\n  CALL f\n CALL f,\n\x7d".toList, 2⟩, ?_, ?_, ?_, ?_⟩ <;> decide +kernel
  have hreads : Step
      ⟨[], some ⟨"a", 2, []⟩, ⟨" ; one\n  CALL f\n CALL f,\n\x7d".toList, 2⟩⟩
      ⟨[], some ⟨"a", 2, [⟨3, none, "CALL", [.name "f"]⟩]⟩, ⟨"\n CALL f,\n\x7d".toList, 3⟩⟩ := by
    refine .reads ?_ ?_ <;> decide +kernel
  have hsteps := (Relation.ReflTransGen.single hopens).tail hreads
  obtain ⟨_, _, haccepted, _⟩ := Program.lines_are_faithful (openedUnit ++ "\x7d")
  obtain ⟨_, _, _, hrejected⟩ := Program.lines_are_faithful (openedUnit ++ " CALL f,\n\x7d")
  have hread : ⟨3, none, "CALL", [.name "f"]⟩ ∈ records
      ⟨[], some ⟨"a", 2, [⟨3, none, "CALL", [.name "f"]⟩]⟩, ⟨"\n CALL f,\n\x7d".toList, 3⟩⟩ :=
    List.mem_singleton_self _
  exact ⟨⟨_, hok, rfl, (haccepted _ hok).2.1⟩, herror, _, _, hsteps, hread, rfl,
    (hrejected _ herror).2.2.2 _ hsteps _ hread⟩

end DefUse
