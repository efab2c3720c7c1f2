import DefUse.Proofs.Program.Reading

namespace DefUse
open Grammar

namespace Cursor
variable {c d : Cursor} {s rest : List Char}

theorem records_sound {name : String} {rs : List Record} (h : records name c = .ok (rs, d)) :
    RecordsAt c.shown (rs.map Record.unlined) d.shown := by
  fun_induction records name c generalizing rs d with
  | case1 => cases h
  | case2 c rest hr =>
    have hgap := gap_skip c
    rw [shown_of_skip hr] at hgap
    simp only [Except.ok.injEq, Prod.mk.injEq] at h
    obtain ⟨rfl, rfl⟩ := h
    exact .close hgap
  | case3 => cases h
  | case4 => cases h
  | case5 c ch rest hr hb first next hf others last hrest ih =>
    have hothers := ih hrest
    simp only [Except.ok.injEq, Prod.mk.injEq] at h
    obtain ⟨rfl, rfl⟩ := h
    obtain ⟨hnone, s, hblanks, hrecord⟩ := record_sound hf
    -- The brace of the unit is still to come, so the line has ended with a newline.
    obtain ⟨t, ht⟩ : ∃ t, next.rest = '\n' :: t := by
      cases hnext : next.rest with
      | nil =>
        rw [shown, hnext] at hothers
        exact absurd rfl hothers.ne_nil
      | cons x t =>
        simp only [found?, hnext] at hnone
        split at hnone
        next hx => exact ⟨t, by rw [hx]⟩
        next => cases hnone
    have hshown : next.shown = '\n' :: plain false t := by
      rw [shown, ht, plain_cons (by decide)]
    rw [hshown] at hothers
    exact .more ((gap_skip c).trans hblanks.gap) (hrecord _ hshown)
      (hothers.uncons Text.isBlank_newline)

theorem records_of_record {name : String} {x : Char} {q : Record} {next : Cursor} {t : List Char}
    (hr : (c.skip true).rest = x :: t) (hx : x ≠ '\x7d')
    (hq : record (c.skip true) = .ok (q, next)) :
    records name c = do
      let (others, d) ← records name next
      return (q :: others, d) := by
  rw [records_eq, hr]
  simp only [if_neg hx, hq]
  rfl

theorem records_complete (name : String) {rs : List Record} (hgap : Gap c.shown s)
    (h : RecordsAt s rs rest) :
    ∃ qs d, records name c = .ok (qs, d) ∧ qs.map Record.unlined = rs ∧ d.shown = rest := by
  induction h generalizing c with
  | close hclose =>
    have hshown := shown_skip_eq true rfl (by decide) (hgap.trans hclose)
    obtain ⟨r, hr, rfl⟩ := rest_of_shown hshown
    refine ⟨[], { c.skip true with rest := r }, ?_, rfl, rfl⟩
    rw [records]
    simp only [hr, if_true]
  | more hmore hat _ ih =>
    obtain ⟨x, cs, hs, hx⟩ := hat.starts
    have hshown := shown_skip_eq true hs hx.isBlank (hgap.trans hmore)
    obtain ⟨r, hr, _⟩ := rest_of_shown (hshown.trans hs)
    obtain ⟨q, next, hq, rfl, hnext⟩ := record_complete (c := c.skip true) (hshown ▸ .here) hat
    obtain ⟨qs, d, hqs, rfl, rfl⟩ := ih (c := next) (by
      rw [hnext]
      exact .skip Text.isBlank_newline .here)
    refine ⟨q :: qs, d, ?_, rfl, rfl⟩
    rw [records_of_record hr (hx.ne (by decide) (by decide)) hq, hqs]
    rfl

/-- At `c` stand the keyword of a unit, a name that is none of `taken` and, before `body`, an opening
brace. -/
def Heads (taken : List String) (c : Cursor) (name : String) (body : Cursor) : Prop :=
  ∃ behind brace, identifier c = .ok ("unit", behind) ∧ identifier behind = .ok (name, brace) ∧
    name ∉ taken ∧ require '\x7b' brace = .ok body

theorem Heads.codeUnit_eq {taken : List String} {name : String} {body : Cursor}
    (h : Heads taken c name body) : codeUnit taken c = do
      let (rs, d) ← records name body
      return (⟨name, c.line, rs⟩, d) := by
  obtain ⟨behind, brace, hkeyword, hname, hnew, hbody⟩ := h
  simp only [codeUnit, hkeyword, hname, hbody, bind, Except.bind, ne_eq, not_true_eq_false,
    if_false, if_neg hnew]

theorem heads_of_codeUnit {taken : List String} {u : CodeUnit} (h : codeUnit taken c = .ok (u, d)) :
    ∃ body, Heads taken c u.name body ∧ records u.name body = .ok (u.records, d) := by
  simp only [codeUnit, fail, except_bind_eq_ok, Prod.exists] at h
  obtain ⟨keyword, behind, hkeyword, h⟩ := h
  split at h
  · cases h
  next hunit =>
    obtain rfl : keyword = "unit" := not_not.mp hunit
    simp only [except_bind_eq_ok, Prod.exists] at h
    obtain ⟨name, brace, hname, h⟩ := h
    split at h
    · cases h
    next hnew =>
      simp only [except_bind_eq_ok, Prod.exists, pure, Except.pure, Except.ok.injEq,
        Prod.mk.injEq] at h
      obtain ⟨body, hbody, rs, d, hrs, rfl, rfl⟩ := h
      exact ⟨body, ⟨behind, brace, hkeyword, hname, hnew, hbody⟩, hrs⟩

theorem codeUnit_sound {taken : List String} {u : CodeUnit} (h : codeUnit taken c = .ok (u, d)) :
    (∃ s, Blanks c.shown s ∧ UnitAt s u.unlined d.shown) ∧ u.name ∉ taken := by
  obtain ⟨body, ⟨behind, brace, hkeyword, hname, hnew, hbody⟩, hrs⟩ := heads_of_codeUnit h
  obtain ⟨s, hs, hat⟩ := identifier_sound hkeyword
  obtain ⟨s₁, hs₁, hat₁⟩ := identifier_sound hname
  refine ⟨⟨s, hs, ?_⟩, hnew⟩
  -- The keyword has gone on as far as it could, so a blank divides it from the name.
  have hstop := hat.longest
  rw [hat.split]
  generalize behind.shown = t at hs₁ hstop
  cases hs₁ with
  | here =>
    obtain ⟨x, cs, rfl, hx⟩ := hat₁.starts
    exact absurd hx.namePart (hstop x rfl)
  | skip hb hblanks => exact .unit hb hblanks hat₁ (require_sound hbody) (records_sound hrs)

theorem codeUnit_complete {taken : List String} {u : CodeUnit} (hb : Blanks c.shown s)
    (h : UnitAt s u rest) (hnew : u.name ∉ taken) :
    ∃ q d, codeUnit taken c = .ok (q, d) ∧ q.unlined = u ∧ d.shown = rest := by
  cases h with
  | @unit b s s₁ s₂ s₃ _ name rs hblank hblanks hname hbrace hrs =>
    have hkeyword : NameAt ('u' :: 'n' :: 'i' :: 't' :: b :: s) "unit" (b :: s) := by
      refine ⟨rfl, by decide, ?_⟩
      rintro x ⟨⟩
      rw [isLineBlank, Bool.and_eq_true] at hblank
      exact not_namePart_of_isBlank hblank.1
    obtain ⟨c₁, h₁, hc₁⟩ := identifier_complete hb hkeyword
    have hb₁ : Blanks c₁.shown s₁ := by
      rw [hc₁]
      exact .skip hblank hblanks
    obtain ⟨c₂, h₂, rfl⟩ := identifier_complete hb₁ hname
    obtain ⟨c₃, h₃, rfl⟩ := require_complete (by decide) hbrace
    obtain ⟨qs, d, h₄, rfl, rfl⟩ := records_complete name .here hrs
    have hheads : Heads taken c name c₃ := ⟨c₁, c₂, h₁, h₂, hnew, h₃⟩
    refine ⟨⟨name, c.line, qs⟩, d, ?_, rfl, rfl⟩
    rw [hheads.codeUnit_eq, h₄]
    rfl

theorem codeUnits_sound {taken : List String} {us : List CodeUnit}
    (h : codeUnits taken c = .ok us) :
    UnitsAt c.shown (us.map CodeUnit.unlined) ∧ (us.map (·.name)).Nodup ∧
      ∀ u ∈ us, u.name ∉ taken := by
  fun_induction codeUnits taken c generalizing us with
  | case1 taken c hnil =>
    obtain rfl := Except.ok.inj h
    have hshown : (c.skip true).shown = [] := by
      rw [shown, hnil]
      rfl
    have hgap := gap_skip c
    rw [hshown] at hgap
    exact ⟨.done hgap, List.nodup_nil, by simp⟩
  | case2 => cases h
  | case3 => cases h
  | case4 taken c hne first next hu others hrest ih =>
    obtain rfl := Except.ok.inj h
    obtain ⟨⟨s, hs, hat⟩, hnew⟩ := codeUnit_sound hu
    obtain ⟨hunits, hdistinct, hfresh⟩ := ih hrest
    refine ⟨.more ((gap_skip c).trans hs.gap) hat hunits, ?_, ?_⟩
    · rw [List.map_cons, List.nodup_cons]
      refine ⟨fun hmem => ?_, hdistinct⟩
      obtain ⟨u, hu, heq⟩ := List.mem_map.mp hmem
      exact hfresh u hu (heq ▸ List.mem_cons_self)
    · intro u hu
      rcases List.mem_cons.mp hu with rfl | hu
      · exact hnew
      · exact fun hmem => hfresh u hu (List.mem_cons_of_mem _ hmem)

theorem codeUnits_of_codeUnit {taken : List String} {u : CodeUnit} {next : Cursor}
    (hne : (c.skip true).rest ≠ []) (hu : codeUnit taken (c.skip true) = .ok (u, next)) :
    codeUnits taken c = do
      let others ← codeUnits (u.name :: taken) next
      return u :: others := by
  rw [codeUnits_eq, if_neg hne, hu]
  rfl

theorem codeUnits_complete {taken : List String} {us : List CodeUnit} (hgap : Gap c.shown s)
    (h : UnitsAt s us) (hdistinct : (us.map (·.name)).Nodup) (hnew : ∀ u ∈ us, u.name ∉ taken) :
    ∃ qs, codeUnits taken c = .ok qs ∧ qs.map CodeUnit.unlined = us := by
  induction h generalizing c taken with
  | done hdone =>
    have hshown : (c.skip true).shown = [] := by
      rw [shown_skip]
      apply (hgap.trans hdone).dropWhile_eq
      rintro x ⟨⟩
    have hrest : (c.skip true).rest = [] := by
      cases hr : (c.skip true).rest with
      | nil => rfl
      | cons x r =>
        rw [shown_of_skip hr] at hshown
        cases hshown
    exact ⟨[], by rw [codeUnits, if_pos hrest], rfl⟩
  | @more _ s₁ _ u us hmore hat _ ih =>
    have hs₁ : ∃ cs, s₁ = 'u' :: cs := by
      cases hat
      exact ⟨_, rfl⟩
    obtain ⟨cs, rfl⟩ := hs₁
    have hshown := shown_skip_eq true rfl (by decide) (hgap.trans hmore)
    obtain ⟨r, hr, _⟩ := rest_of_shown hshown
    rw [List.map_cons, List.nodup_cons] at hdistinct
    obtain ⟨q, next, hq, rfl, rfl⟩ := codeUnit_complete (c := c.skip true) (hshown ▸ .here) hat
      (hnew u List.mem_cons_self)
    have hfresh : ∀ v ∈ us, v.name ∉ q.name :: taken := by
      intro v hv hmem
      rcases List.mem_cons.mp hmem with heq | hmem
      · exact hdistinct.1 (List.mem_map.mpr ⟨v, hv, heq⟩)
      · exact hnew v (List.mem_cons_of_mem _ hv) hmem
    obtain ⟨qs, hqs, rfl⟩ := ih .here hdistinct.2 hfresh
    refine ⟨q :: qs, ?_, rfl⟩
    rw [codeUnits_of_codeUnit (by simp [hr]) hq, hqs]
    rfl

end Cursor

namespace Program

theorem derives_of_parse {t : String} {p : Program} (h : parse t = .ok p) :
    Derives (plain false t.toList) p.unlined := by
  simp only [parse, except_bind_eq_ok, pure, Except.pure, Except.ok.injEq] at h
  obtain ⟨us, hus, rfl⟩ := h
  obtain ⟨hunits, hdistinct, _⟩ := Cursor.codeUnits_sound hus
  refine ⟨hunits, ?_⟩
  have hnames : (us.map CodeUnit.unlined).map (·.name) = us.map (·.name) := by
    rw [List.map_map]
    rfl
  rw [unlined, hnames]
  exact hdistinct

theorem parse_of_derives {t : String} {p : Program} (h : Derives (plain false t.toList) p) :
    ∃ q, parse t = .ok q ∧ q.unlined = p := by
  have hfresh : ∀ u ∈ p.units, u.name ∉ ([] : List String) := by simp
  obtain ⟨qs, hqs, hunits⟩ := Cursor.codeUnits_complete (c := { rest := t.toList }) .here h.units
    h.distinct hfresh
  refine ⟨⟨qs⟩, ?_, ?_⟩
  · rw [parse, hqs]
    rfl
  · rw [unlined, hunits]

/-- The reader accepts the texts of the grammar and no others, and up to the line numbers it returns
the derived program. -/
theorem parse_iff_derives (t : String) (p : Program) :
    (∃ q, parse t = .ok q ∧ q.unlined = p.unlined) ↔
      Derives (plain false t.toList) p.unlined := by
  constructor
  · rintro ⟨q, hq, hp⟩
    rw [← hp]
    exact derives_of_parse hq
  · exact parse_of_derives

end Program
end DefUse
