import Mathlib.Data.List.TakeWhile
import DefUse.Proofs.Program.Characters

namespace DefUse

namespace Grammar
variable {kind : Char → Bool} {s t u : List Char}

theorem Behind.trans (hst : Behind kind s t) (htu : Behind kind t u) : Behind kind s u := by
  induction hst with
  | here => exact htu
  | skip hc _ ih => exact .skip hc (ih htu)

theorem Blanks.gap (h : Blanks s t) : Gap s t := by
  induction h with
  | here => exact .here
  | skip hc _ ih =>
    rw [isLineBlank, Bool.and_eq_true] at hc
    exact .skip hc.1 ih

theorem behind_dropWhile (kind : Char → Bool) (s : List Char) :
    Behind kind s (s.dropWhile kind) := by
  induction s with
  | nil => exact .here
  | cons c rest ih =>
    rw [List.dropWhile_cons]
    split
    next hc => exact .skip hc ih
    next => exact .here

/-- A derivation that stops before something else has taken all that there is to skip. -/
theorem Behind.dropWhile_eq (h : Behind kind s t) (ht : ∀ c ∈ t.head?, kind c = false) :
    s.dropWhile kind = t := by
  induction h with
  | @here t =>
    cases t with
    | nil => rfl
    | cons c rest => rw [List.dropWhile_cons, ht c rfl, if_neg (by decide)]
  | skip hc _ ih =>
    rw [List.dropWhile_cons, if_pos hc]
    exact ih ht

theorem NameAt.starts {rest : List Char} {name : String} (h : NameAt s name rest) :
    ∃ x cs, s = x :: cs ∧ NameStart x := by
  obtain ⟨x, cs, hname, hx⟩ := h.identifier.start
  exact ⟨x, cs ++ rest, by rw [h.split, hname]; rfl, hx⟩

theorem NumberAt.starts {rest : List Char} {w : UInt64} (h : NumberAt s w rest) :
    ∃ x cs, s = x :: cs ∧ x.isDigit = true := by
  obtain ⟨token, rfl, hw⟩ := h.split
  obtain ⟨x, cs, rfl, hx⟩ := hw.starts
  exact ⟨x, cs ++ rest, rfl, hx⟩

theorem plain_cons {c : Char} (hc : c ≠ ';') (rest : List Char) :
    plain false (c :: rest) = c :: plain false rest := by
  by_cases hn : c = '\n' <;> simp [plain, hc, hn]

theorem plain_append (hs : ';' ∉ s) (t : List Char) :
    plain false (s ++ t) = s ++ plain false t := by
  induction s with
  | nil => rfl
  | cons c rest ih =>
    rw [List.mem_cons, not_or] at hs
    rw [List.cons_append, plain_cons (Ne.symm hs.1), ih hs.2, List.cons_append]

theorem head?_plain_true (s : List Char) : ∀ c ∈ (plain true s).head?, c = '\n' := by
  induction s with
  | nil => simp [plain]
  | cons c rest ih =>
    by_cases hn : c = '\n'
    · simp [plain, hn]
    · simpa [plain, hn] using ih

/-- Taking comments out leaves the first character, unless a comment begins there. -/
theorem head?_plain {P : Char → Prop} (hn : P '\n') (h : ∀ c ∈ s.head?, P c) :
    ∀ c ∈ (plain false s).head?, P c := by
  cases s with
  | nil => simp [plain]
  | cons c rest =>
    by_cases hc : c = ';'
    · intro d hd
      have hplain : plain false (c :: rest) = plain true rest := by simp [plain, hc]
      rw [hplain] at hd
      rw [head?_plain_true rest d hd]
      exact hn
    · rw [plain_cons hc]
      exact h

theorem head?_of_plain {P : Char → Prop} (hs : P ';') (h : ∀ c ∈ (plain false s).head?, P c) :
    ∀ c ∈ s.head?, P c := by
  cases s with
  | nil => simp
  | cons c rest =>
    rintro d ⟨⟩
    by_cases hc : c = ';'
    · exact hc ▸ hs
    · rw [plain_cons hc] at h
      exact h c rfl

theorem plain_eq_cons {c : Char} (hc : c ≠ '\n') (h : plain false s = c :: t) :
    ∃ rest, s = c :: rest ∧ plain false rest = t := by
  cases s with
  | nil => cases h
  | cons d rest =>
    by_cases hd : d = ';'
    · have hplain : plain false (d :: rest) = plain true rest := by simp [plain, hd]
      rw [hplain] at h
      exact absurd (head?_plain_true rest c (by rw [h]; rfl)) hc
    · rw [plain_cons hd] at h
      obtain ⟨rfl, rfl⟩ := List.cons.inj h
      exact ⟨rest, rfl, rfl⟩

theorem plain_eq_append {token : List Char} (ht : '\n' ∉ token)
    (h : plain false s = token ++ t) : ∃ rest, s = token ++ rest ∧ plain false rest = t := by
  induction token generalizing s with
  | nil => exact ⟨s, rfl, h⟩
  | cons c token ih =>
    rw [List.mem_cons, not_or] at ht
    obtain ⟨rest, rfl, hrest⟩ := plain_eq_cons (Ne.symm ht.1) h
    obtain ⟨rest, rfl, hlast⟩ := ih ht.2 hrest
    exact ⟨rest, rfl, hlast⟩

end Grammar

open Grammar
namespace Cursor

/-- What is left to read, without the comments. -/
def shown (c : Cursor) : List Char :=
  plain false c.rest

/-- The kind of characters that skipping goes over. -/
def skipped (newlines : Bool) : Char → Bool :=
  if newlines then Text.isBlank else isLineBlank

theorem skipped_newline (newlines : Bool) : skipped newlines '\n' = newlines := by
  cases newlines <;> decide

theorem skipped_of_ne {c : Char} (hc : c ≠ '\n') (newlines : Bool) :
    skipped newlines c = Text.isBlank c := by
  cases newlines <;> simp [skipped, isLineBlank, hc]

theorem skipped_of_isBlank {c : Char} (hc : Text.isBlank c = false) (newlines : Bool) :
    skipped newlines c = false := by
  cases newlines <;> simp [skipped, isLineBlank, hc]

theorem plain_skipFrom (newlines comment : Bool) (cs : List Char) (line : Nat) :
    plain false (skipFrom newlines comment cs line).rest =
      (plain comment cs).dropWhile (skipped newlines) := by
  induction cs generalizing comment line with
  | nil => rfl
  | cons c rest ih =>
    by_cases hn : c = '\n'
    · have hskip := skipped_newline newlines
      cases newlines <;> simp [skipFrom, plain, hn, hskip, ih]
    · by_cases hcomment : comment || c = ';'
      · have hstep : skipFrom newlines comment (c :: rest) line =
            skipFrom newlines true rest line := by
          cases comment <;> simp_all [skipFrom]
        rw [hstep, ih, plain, if_neg hn, if_pos hcomment]
      · rw [Bool.or_eq_true, not_or, decide_eq_true_eq, Bool.not_eq_true] at hcomment
        obtain ⟨rfl, hsemi⟩ := hcomment
        rw [plain_cons hsemi, List.dropWhile_cons, skipped_of_ne hn]
        cases hb : Text.isBlank c with
        | true => simp [skipFrom, hn, hsemi, hb, ih]
        | false => simp [skipFrom, hn, hsemi, hb, plain_cons hsemi]

theorem head?_skipFrom (newlines comment : Bool) (cs : List Char) (line : Nat) :
    ∀ x ∈ (skipFrom newlines comment cs line).rest.head?,
      (x = '\n' ∧ newlines = false) ∨ Text.Visible x := by
  induction cs generalizing comment line with
  | nil => simp [skipFrom]
  | cons c rest ih =>
    simp only [skipFrom]
    split
    next hn =>
      split
      · exact ih _ _
      next hstop => simp [hn, hstop]
    next =>
      split
      · exact ih _ _
      · split
        · exact ih _ _
        next hs =>
          split
          · exact ih _ _
          next hb => simp [Text.Visible, hs, hb]

/-- Skipping stops at something visible, or at a newline that it must not pass. -/
theorem head?_skip (newlines : Bool) (c : Cursor) :
    ∀ x ∈ (c.skip newlines).rest.head?, (x = '\n' ∧ newlines = false) ∨ Text.Visible x :=
  head?_skipFrom newlines false c.rest c.line

variable {c d : Cursor}

theorem shown_skip (newlines : Bool) (c : Cursor) :
    (c.skip newlines).shown = c.shown.dropWhile (skipped newlines) :=
  plain_skipFrom newlines false c.rest c.line

theorem shown_of_skip {newlines : Bool} {x : Char} {r : List Char}
    (h : (c.skip newlines).rest = x :: r) : (c.skip newlines).shown = x :: plain false r := by
  have hx : x ≠ ';' := by
    rcases head?_skip newlines c x (by rw [h]; rfl) with ⟨rfl, _⟩ | hx
    · decide
    · exact hx.2
  rw [shown, h, plain_cons hx]

theorem rest_of_shown {newlines : Bool} {x : Char} {t : List Char}
    (h : (c.skip newlines).shown = x :: t) :
    ∃ r, (c.skip newlines).rest = x :: r ∧ plain false r = t := by
  cases hr : (c.skip newlines).rest with
  | nil =>
    rw [shown, hr] at h
    cases h
  | cons y r =>
    rw [shown_of_skip hr] at h
    obtain ⟨rfl, rfl⟩ := List.cons.inj h
    exact ⟨r, rfl, rfl⟩

theorem found?_eq_some_iff {x : Char} :
    c.found? = some x ↔ ∃ r, c.rest = x :: r ∧ x ≠ '\n' := by
  unfold found?
  cases c.rest with
  | nil => simp
  | cons y r =>
    by_cases hy : y = '\n'
    · simp only [hy, if_true]
      constructor
      · intro h
        cases h
      · rintro ⟨_, hr, hx⟩
        exact absurd (List.cons.inj hr).1.symm hx
    · simp only [hy, if_false, Option.some.injEq]
      constructor
      · rintro rfl
        exact ⟨r, rfl, hy⟩
      · rintro ⟨_, hr, _⟩
        exact (List.cons.inj hr).1

theorem found?_of_shown {newlines : Bool} {x : Char} {t : List Char}
    (h : (c.skip newlines).shown = x :: t) (hx : Text.isBlank x = false) :
    (c.skip newlines).found? = some x := by
  obtain ⟨r, hr, _⟩ := rest_of_shown h
  refine found?_eq_some_iff.mpr ⟨r, hr, ?_⟩
  rintro rfl
  rw [Text.isBlank_newline] at hx
  cases hx

/-- Skipping stops where a derivation of blanks does, if something else follows. -/
theorem shown_skip_eq (newlines : Bool) {s : List Char} {x : Char} {cs : List Char}
    (hs : s = x :: cs) (hx : skipped newlines x = false)
    (h : Behind (skipped newlines) c.shown s) : (c.skip newlines).shown = s := by
  rw [shown_skip]
  apply h.dropWhile_eq
  rw [hs]
  rintro y ⟨⟩
  exact hx

theorem blanks_skip (c : Cursor) : Blanks c.shown (c.skip false).shown := by
  rw [shown_skip]
  exact behind_dropWhile isLineBlank c.shown

theorem gap_skip (c : Cursor) : Gap c.shown (c.skip true).shown := by
  rw [shown_skip]
  exact behind_dropWhile Text.isBlank c.shown

/-- What a character that is found leaves to read. -/
theorem blanks_of_found? {x : Char} (h : (c.skip false).found? = some x) :
    Blanks c.shown (x :: shown { c.skip false with rest := (c.skip false).rest.tail }) := by
  obtain ⟨r, hr, _⟩ := found?_eq_some_iff.mp h
  have hskip := blanks_skip c
  rw [shown_of_skip hr] at hskip
  rwa [shown, hr, List.tail_cons]

theorem require_sound {wanted : Char} (h : require wanted c = .ok d) :
    Blanks c.shown (wanted :: d.shown) := by
  simp only [require, fail] at h
  split at h
  next hf =>
    obtain rfl := Except.ok.inj h
    exact blanks_of_found? hf
  next => cases h

theorem require_complete {wanted : Char} (hw : Text.isBlank wanted = false) {t : List Char}
    (h : Blanks c.shown (wanted :: t)) : ∃ d, require wanted c = .ok d ∧ d.shown = t := by
  have hshown := shown_skip_eq false rfl (skipped_of_isBlank hw false) h
  obtain ⟨r, hr, ht⟩ := rest_of_shown hshown
  have hf := found?_of_shown hshown hw
  refine ⟨{ c.skip false with rest := r }, ?_, ht⟩
  simp only [require, hf, if_true, hr, List.tail_cons]

/-- What a run of characters of a kind is, when the text is seen without its comments. -/
theorem plain_run (kind : Char → Bool) (hsemi : kind ';' = false) (hnewline : kind '\n' = false)
    (cs : List Char) :
    plain false cs = cs.takeWhile kind ++ plain false (cs.dropWhile kind) ∧
      ∀ x ∈ (plain false (cs.dropWhile kind)).head?, kind x = false := by
  have hnot : ';' ∉ cs.takeWhile kind := by
    intro hmem
    rw [List.mem_takeWhile_imp hmem] at hsemi
    cases hsemi
  refine ⟨?_, ?_⟩
  · conv_lhs => rw [← List.takeWhile_append_dropWhile (p := kind) (l := cs)]
    exact plain_append hnot _
  · refine head?_plain (P := fun x => kind x = false) hnewline fun x hx => ?_
    have hstop := List.head?_dropWhile_not kind cs
    rw [Option.mem_def.mp hx] at hstop
    exact hstop

/-- A token at the front of what is shown is the run that is read. -/
theorem run_of_plain (kind : Char → Bool) (hsemi : kind ';' = false) (hnewline : kind '\n' = false)
    {cs token t : List Char} (h : plain false cs = token ++ t) (htoken : ∀ x ∈ token, kind x = true)
    (ht : ∀ x ∈ t.head?, kind x = false) :
    cs.takeWhile kind = token ∧ plain false (cs.dropWhile kind) = t := by
  have hnot : '\n' ∉ token := by
    intro hmem
    rw [htoken _ hmem] at hnewline
    cases hnewline
  obtain ⟨r, rfl, rfl⟩ := plain_eq_append hnot h
  have hr : ∀ x ∈ r.head?, kind x = false :=
    head?_of_plain (P := fun x => kind x = false) hsemi ht
  rw [List.takeWhile_append_of_pos htoken, List.dropWhile_append_of_pos htoken]
  cases r with
  | nil => simp
  | cons x r => simp [hr x rfl]

theorem identifier_sound {name : String} (h : identifier c = .ok (name, d)) :
    ∃ s, Blanks c.shown s ∧ NameAt s name d.shown := by
  simp only [identifier, fail] at h
  split at h
  · cases h
  next x hf =>
    split at h
    next hstart =>
      obtain ⟨r, hr, _⟩ := found?_eq_some_iff.mp hf
      simp only [Except.ok.injEq, Prod.mk.injEq] at h
      obtain ⟨rfl, rfl⟩ := h
      obtain ⟨hsplit, hlongest⟩ := plain_run isNamePart (by decide) (by decide)
        (c.skip false).rest
      refine ⟨(c.skip false).shown, blanks_skip c, ?_⟩
      refine ⟨?_, ⟨?_, ?_⟩, ?_⟩
      · rw [String.toList_ofList]
        exact hsplit
      · refine ⟨x, r.takeWhile isNamePart, ?_, isNameStart_iff.mp hstart⟩
        rw [String.toList_ofList, hr,
          List.takeWhile_cons_of_pos (isNamePart_of_isNameStart hstart)]
      · intro y hy
        rw [String.toList_ofList] at hy
        exact isNamePart_iff.mp (List.mem_takeWhile_imp hy)
      · intro y hy hpart
        rw [← isNamePart_iff, hlongest y hy] at hpart
        cases hpart
    next => cases h

theorem identifier_complete {name : String} {s r : List Char} (hb : Blanks c.shown s)
    (h : NameAt s name r) : ∃ d, identifier c = .ok (name, d) ∧ d.shown = r := by
  obtain ⟨x, cs, hs, hx⟩ := h.starts
  have hblank := isBlank_of_namePart hx.namePart
  have hshown := shown_skip_eq false hs (skipped_of_isBlank hblank false) hb
  have hf := found?_of_shown (hshown.trans hs) hblank
  obtain ⟨htoken, hlast⟩ := run_of_plain isNamePart (by decide) (by decide)
    (hshown.trans h.split) (fun y hy => isNamePart_iff.mpr (h.identifier.parts y hy))
    (fun y hy => by
      rw [Bool.eq_false_iff, Ne, isNamePart_iff]
      exact h.longest y hy)
  refine ⟨{ c.skip false with rest := (c.skip false).rest.dropWhile isNamePart }, ?_, hlast⟩
  simp only [identifier, hf, isNameStart_iff.mpr hx, if_true, htoken, String.ofList_toList]

theorem number_sound {w : UInt64} (h : number c = .ok (w, d)) :
    ∃ s, Blanks c.shown s ∧ NumberAt s w d.shown := by
  simp only [number, fail] at h
  split at h
  · cases h
  · split at h
    next word hword =>
      simp only [Except.ok.injEq, Prod.mk.injEq] at h
      obtain ⟨rfl, rfl⟩ := h
      obtain ⟨hsplit, hlongest⟩ := plain_run Char.isAlphanum (by decide) (by decide)
        (c.skip false).rest
      exact ⟨(c.skip false).shown, blanks_skip c, ⟨_, hsplit, readWord_eq_ok_iff.mp hword⟩,
        hlongest⟩
    next => cases h

theorem number_complete {w : UInt64} {s r : List Char} (hb : Blanks c.shown s)
    (h : NumberAt s w r) : ∃ d, number c = .ok (w, d) ∧ d.shown = r := by
  obtain ⟨x, cs, hs, hx⟩ := h.starts
  have hblank := isBlank_of_namePart (namePart_of_isDigit hx)
  have hshown := shown_skip_eq false hs (skipped_of_isBlank hblank false) hb
  obtain ⟨token, hsplit, hw⟩ := h.split
  obtain ⟨htoken, hlast⟩ := run_of_plain Char.isAlphanum (by decide) (by decide)
    (hshown.trans hsplit) (fun y hy => hw.isAlphanum hy) h.longest
  have hne : token.isEmpty = false := by
    obtain ⟨y, ys, rfl, _⟩ := hw.starts
    rfl
  refine ⟨{ c.skip false with rest := (c.skip false).rest.dropWhile Char.isAlphanum }, ?_, hlast⟩
  simp only [number, htoken, hne, Bool.false_eq_true, if_false, readWord_eq_ok_iff.mpr hw]

end Cursor
end DefUse
