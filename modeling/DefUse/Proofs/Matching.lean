import Mathlib.Data.List.Basic
import DefUse.Check.Match

namespace DefUse

/-- Whether a directive asks for a line of its own. -/
def DirectiveKind.seeks : DirectiveKind → Bool
  | check | label | next => true
  | never | comment => false

/-- The pattern stands in line `i`. -/
def Shows (lines : List String) (pattern : String) (i : Nat) : Prop :=
  ∃ line, lines[i]? = some line ∧ pattern.toList <:+: line.toList

/-- Line `n` is one that a directive may take when `first` is the first line not taken yet. -/
structure Answers (lines : List String) (d : Directive) (first n : Nat) : Prop where
  le : first ≤ n
  shows : Shows lines d.pattern n
  next : d.kind = .next → n = first

theorem Shows.lt_length {lines : List String} {pattern : String} {i : Nat}
    (h : Shows lines pattern i) : i < lines.length := by
  obtain ⟨_, hline, _⟩ := h
  exact (List.getElem?_eq_some_iff.mp hline).1

/-- The other directives only comment or forbid. -/
theorem Directive.kind_of_not_seeks {d : Directive} (h : d.kind.seeks = false) :
    d.kind = .comment ∨ d.kind = .never := by
  cases hkind : d.kind with
  | comment => exact .inl rfl
  | never => exact .inr rfl
  | check | label | next =>
    rw [hkind] at h
    cases h

namespace Matching

/-- How many of the directives ask for a line. -/
def sought (ds : List Directive) : Nat :=
  ds.countP (·.kind.seeks)

/-- The line after the first `count` places, `first` when there are none. -/
def past (first : Nat) : (places : List Nat) → (count : Nat) → Nat
  | n :: rest, count + 1 => past (n + 1) rest count
  | _, _ => first

/-- Lines from `first` on, one for each directive that asks for a line and in their order. A directive
belongs to the places between which it stands, those of the directives before it and the next one. -/
structure Places (lines : List String) (first : Nat) (ds : List Directive) (places : List Nat) :
    Prop where
  length_eq : places.length = sought ds
  increasing : places.Pairwise (· < ·)
  first_le : ∀ n ∈ places, first ≤ n
  shown : ∀ before d after, ds = before ++ d :: after → d.kind.seeks = true →
    ∃ n, places[sought before]? = some n ∧ Shows lines d.pattern n
  next : ∀ before d after, ds = before ++ d :: after → d.kind = .next →
    places[sought before]? = some (past first places (sought before))
  never : ∀ before d after, ds = before ++ d :: after → d.kind = .never →
    ∀ i, past first places (sought before) ≤ i → (∀ n, places[sought before]? = some n → i < n) →
      ¬Shows lines d.pattern i

section Places
variable {lines : List String} {first n : Nat} {d : Directive} {ds : List Directive}
  {places rest : List Nat}

theorem sought_nil : sought [] = 0 := rfl

theorem sought_cons_of_seeks (hd : d.kind.seeks = true) (ds : List Directive) :
    sought (d :: ds) = sought ds + 1 :=
  List.countP_cons_of_pos hd

theorem sought_cons_of_not_seeks (hd : d.kind.seeks = false) (ds : List Directive) :
    sought (d :: ds) = sought ds :=
  List.countP_cons_of_neg (by simp [hd])

theorem past_cons (first n : Nat) (rest : List Nat) (count : Nat) :
    past first (n :: rest) (count + 1) = past (n + 1) rest count := rfl

theorem past_zero (first : Nat) (places : List Nat) : past first places 0 = first := by
  cases places <;> rfl

/-- What holds of every directive and those before it, by the first one and the others. -/
theorem forall_split_cons {P : List Directive → Directive → Prop} :
    (∀ before e after, d :: ds = before ++ e :: after → P before e) ↔
      P [] d ∧ ∀ before e after, ds = before ++ e :: after → P (d :: before) e := by
  constructor
  · intro h
    exact ⟨h [] d ds rfl, fun before e after hds => h (d :: before) e after (by rw [hds]; rfl)⟩
  · rintro ⟨hfirst, hothers⟩ before e after hcons
    rcases List.cons_eq_append_iff.mp hcons with ⟨rfl, heq⟩ | ⟨others, rfl, hds⟩
    · obtain ⟨rfl, rfl⟩ := List.cons.inj heq
      exact hfirst
    · exact hothers others e after hds

theorem places_nil (lines : List String) (first : Nat) : Places lines first [] [] where
  length_eq := rfl
  increasing := List.Pairwise.nil
  first_le := List.forall_mem_nil _
  shown _ _ _ h := by simp at h
  next _ _ _ h := by simp at h
  never _ _ _ h := by simp at h

/-- A directive that asks for no line may forbid those up to the next place. -/
theorem places_cons_of_not_seeks (hd : d.kind.seeks = false) :
    Places lines first (d :: ds) places ↔
      (d.kind = .never → ∀ i, first ≤ i → (∀ n, places.head? = some n → i < n) →
        ¬Shows lines d.pattern i) ∧ Places lines first ds places := by
  constructor
  · intro h
    obtain ⟨_, hshown⟩ := forall_split_cons.mp h.shown
    obtain ⟨_, hnext⟩ := forall_split_cons.mp h.next
    obtain ⟨hforbids, hnever⟩ := forall_split_cons.mp h.never
    have hlength := h.length_eq
    simp only [sought_cons_of_not_seeks hd] at hlength hshown hnext hnever
    simp only [sought_nil, past_zero, ← List.head?_eq_getElem?] at hforbids
    exact ⟨hforbids, hlength, h.increasing, h.first_le, hshown, hnext, hnever⟩
  · rintro ⟨hforbids, h⟩
    refine ⟨?_, h.increasing, h.first_le, ?_, ?_, ?_⟩
    · rw [sought_cons_of_not_seeks hd, h.length_eq]
    · refine forall_split_cons.mpr ⟨fun he => ?_, ?_⟩
      · rw [hd] at he
        cases he
      · simpa only [sought_cons_of_not_seeks hd] using h.shown
    · refine forall_split_cons.mpr ⟨fun he => ?_, ?_⟩
      · rw [he] at hd
        cases hd
      · simpa only [sought_cons_of_not_seeks hd] using h.next
    · refine forall_split_cons.mpr ⟨?_, ?_⟩
      · simpa only [sought_nil, past_zero, ← List.head?_eq_getElem?] using hforbids
      · simpa only [sought_cons_of_not_seeks hd] using h.never

/-- A directive that asks for a line takes the first place, and the rest follow that line. -/
theorem places_cons_of_seeks (hd : d.kind.seeks = true) :
    Places lines first (d :: ds) (n :: rest) ↔
      Answers lines d first n ∧ Places lines (n + 1) ds rest := by
  constructor
  · intro h
    obtain ⟨hfirst, hshown⟩ := forall_split_cons.mp h.shown
    obtain ⟨hnext, hnexts⟩ := forall_split_cons.mp h.next
    obtain ⟨_, hnever⟩ := forall_split_cons.mp h.never
    obtain ⟨hlt, hincreasing⟩ := List.pairwise_cons.mp h.increasing
    have hlength := h.length_eq
    rw [sought_cons_of_seeks hd, List.length_cons] at hlength
    simp only [sought_cons_of_seeks hd] at hshown hnexts hnever
    refine ⟨⟨h.first_le n List.mem_cons_self, ?_, fun he => Option.some.inj (hnext he)⟩, ?_⟩
    · obtain ⟨k, hk, hshows⟩ := hfirst hd
      exact Option.some.inj hk ▸ hshows
    · exact ⟨Nat.succ.inj hlength, hincreasing, hlt, hshown, hnexts, hnever⟩
  · rintro ⟨⟨hle, hshows, hnext⟩, h⟩
    refine ⟨?_, List.pairwise_cons.mpr ⟨h.first_le, h.increasing⟩, ?_, ?_, ?_, ?_⟩
    · rw [sought_cons_of_seeks hd, List.length_cons, h.length_eq]
    · intro k hk
      rcases List.mem_cons.mp hk with rfl | hk
      · exact hle
      · have hlt := h.first_le k hk
        omega
    · refine forall_split_cons.mpr ⟨fun _ => ⟨n, rfl, hshows⟩, ?_⟩
      simpa only [sought_cons_of_seeks hd, List.getElem?_cons_succ] using h.shown
    · refine forall_split_cons.mpr ⟨fun he => congrArg some (hnext he), ?_⟩
      simpa only [sought_cons_of_seeks hd, List.getElem?_cons_succ, past_cons] using h.next
    · refine forall_split_cons.mpr ⟨fun he => ?_, ?_⟩
      · rw [he] at hd
        cases hd
      · simpa only [sought_cons_of_seeks hd, List.getElem?_cons_succ, past_cons] using h.never

end Places

section Steps
variable {lines : List String} {first last : Nat} {d : Directive} {m m' : Matching}

theorem holds_iff {pattern line : String} :
    holds pattern line = true ↔ pattern.toList <:+: line.toList :=
  Text.holds_iff_infix

theorem slice_of_le (hle : first ≤ last) (hlast : last ≤ lines.length) :
    slice lines first last = .ok ((lines.drop first).take (last - first)) :=
  if_pos ⟨hle, hlast⟩

/-- The lines `first` up to `last` of a listing that has them hold no forbidden pattern exactly where
none of them shows one; otherwise the first such pattern is reported. -/
theorem clear_cases (hle : first ≤ last) (hlast : last ≤ lines.length) (patterns : List String) :
    (clear lines first last patterns = .ok () ∧
      ∀ pattern ∈ patterns, ∀ i, first ≤ i → i < last → ¬Shows lines pattern i) ∨
    ∃ pattern ∈ patterns, ∃ i, first ≤ i ∧ i < last ∧ Shows lines pattern i ∧
      clear lines first last patterns = .error (.forbidden pattern i) := by
  induction patterns with
  | nil => exact .inl ⟨rfl, List.forall_mem_nil _⟩
  | cons pattern rest ih =>
    simp only [clear, slice_of_le hle hlast, bind, Except.bind]
    cases hfound : ((lines.drop first).take (last - first)).findIdx? (holds pattern) with
    | some i =>
      obtain ⟨hlt, hholds, _⟩ := List.findIdx?_eq_some_iff_getElem.mp hfound
      rw [List.length_take] at hlt
      rw [List.getElem_take, List.getElem_drop] at hholds
      exact .inr ⟨pattern, List.mem_cons_self, first + i, by omega, by omega,
        ⟨_, List.getElem?_eq_getElem _, holds_iff.mp hholds⟩, rfl⟩
    | none =>
      rcases ih with ⟨hclear, hrest⟩ | ⟨other, hmem, hother⟩
      · refine .inl ⟨hclear, List.forall_mem_cons.mpr ⟨?_, hrest⟩⟩
        rintro i hi hlt ⟨line, hline, hin⟩
        have hmem : line ∈ (lines.drop first).take (last - first) := by
          refine List.mem_of_getElem? (i := i - first) ?_
          rw [List.getElem?_take_of_lt (by omega), List.getElem?_drop, Nat.add_sub_cancel' hi]
          exact hline
        have hnot := List.findIdx?_eq_none_iff.mp hfound line hmem
        rw [holds_iff.mpr hin] at hnot
        cases hnot
      · exact .inr ⟨other, List.mem_cons_of_mem _ hmem, hother⟩

/-- What is known once line `n` is taken for a directive. -/
def taken (m : Matching) (d : Directive) (n : Nat) : Matching where
  next := n + 1
  forbidden := []
  matched := m.matched ++ [(d, n)]

/-- A search finds the first line that will do, or fails where there is none. -/
theorem search_cases (hd : d.kind = .check ∨ d.kind = .label) :
    (step lines d m = .error (.notFound d) m ∧ ∀ n, ¬Answers lines d m.next n) ∨
    ∃ skipped, Answers lines d m.next (m.next + skipped) ∧
      (∀ n, Answers lines d m.next n → m.next + skipped ≤ n) ∧
      step lines d m = accept lines d skipped m := by
  have hat {n : Nat} (hn : Answers lines d m.next n) :
      ∃ line, (lines.drop m.next)[n - m.next]? = some line ∧ holds d.pattern line = true := by
    obtain ⟨line, hline, hin⟩ := hn.shows
    refine ⟨line, ?_, holds_iff.mpr hin⟩
    rw [List.getElem?_drop, Nat.add_sub_cancel' hn.le, hline]
  cases hfound : (lines.drop m.next).findIdx? (holds d.pattern) with
  | none =>
    refine .inl ⟨by rcases hd with hd | hd <;> simp only [step, hd, hfound], fun n hn => ?_⟩
    obtain ⟨line, hline, hholds⟩ := hat hn
    have hnot := List.findIdx?_eq_none_iff.mp hfound line (List.mem_of_getElem? hline)
    rw [hholds] at hnot
    cases hnot
  | some skipped =>
    obtain ⟨hlt, hholds, hbefore⟩ := List.findIdx?_eq_some_iff_getElem.mp hfound
    refine .inr ⟨skipped, ⟨by omega, ?_, ?_⟩, fun n hn => ?_,
      by rcases hd with hd | hd <;> simp only [step, hd, hfound]⟩
    · rw [List.getElem_drop] at hholds
      exact ⟨_, List.getElem?_eq_getElem _, holds_iff.mp hholds⟩
    · intro hnext
      rw [hnext] at hd
      simp at hd
    · -- a line before the one found does not hold the pattern
      obtain ⟨line, hline, hholds⟩ := hat hn
      obtain ⟨hlt, rfl⟩ := List.getElem?_eq_some_iff.mp hline
      have hle := hn.le
      by_contra hgt
      exact hbefore (n - m.next) (by omega) hholds

/-- The line directly after the last match is taken, or there is no line to take. -/
theorem next_cases (hd : d.kind = .next) :
    (∃ e, step lines d m = .error e m ∧ (∀ first last, e ≠ .outOfRange first last) ∧
      ∀ n, ¬Answers lines d m.next n) ∨
    (Answers lines d m.next m.next ∧ step lines d m = accept lines d 0 m) := by
  simp only [step, hd]
  cases hline : lines[m.next]? with
  | none =>
    refine .inl ⟨_, rfl, nofun, fun n hn => ?_⟩
    obtain ⟨line, hline', _⟩ := hn.shows
    rw [hn.next hd, hline] at hline'
    cases hline'
  | some line =>
    by_cases hholds : holds d.pattern line = true
    · exact .inr ⟨⟨Nat.le_refl _, ⟨line, hline, holds_iff.mp hholds⟩, fun _ => rfl⟩, if_pos hholds⟩
    · simp only [hholds]
      refine .inl ⟨_, rfl, nofun, fun n hn => ?_⟩
      obtain ⟨line', hline', hin⟩ := hn.shows
      rw [hn.next hd, hline, Option.some.injEq] at hline'
      exact hholds (holds_iff.mpr (hline' ▸ hin))

/-- A directive that asks for a line goes on to the first line it may take, or fails where there is
none. -/
theorem step_cases (hd : d.kind.seeks = true) :
    (∃ e, step lines d m = .error e m ∧ (∀ first last, e ≠ .outOfRange first last) ∧
      ∀ n, ¬Answers lines d m.next n) ∨
    ∃ skipped, Answers lines d m.next (m.next + skipped) ∧
      (∀ n, Answers lines d m.next n → m.next + skipped ≤ n) ∧
      step lines d m = accept lines d skipped m := by
  have hsearch (hkind : d.kind = .check ∨ d.kind = .label) := @search_cases lines d m hkind
  cases hkind : d.kind with
  | check | label =>
    rcases hsearch (by simp [hkind]) with ⟨hstep, hnone⟩ | hfound
    · exact .inl ⟨_, hstep, nofun, hnone⟩
    · exact .inr hfound
  | next =>
    rcases next_cases hkind with hnone | ⟨hanswers, hstep⟩
    · exact .inl hnone
    · exact .inr ⟨0, hanswers, fun n hn => hn.le, hstep⟩
  | never | comment =>
    rw [hkind] at hd
    cases hd

/-- The lines up to the one a directive goes on to are lines of the listing, so it takes that one
unless one of them shows what is forbidden. -/
theorem accept_cases {skipped : Nat} (h : Answers lines d m.next (m.next + skipped)) :
    (accept lines d skipped m = .ok () (m.taken d (m.next + skipped)) ∧
      ∀ pattern ∈ m.forbidden, ∀ i, m.next ≤ i → i < m.next + skipped → ¬Shows lines pattern i) ∨
    ∃ pattern ∈ m.forbidden, ∃ i, accept lines d skipped m = .error (.forbidden pattern i) m := by
  unfold accept
  rcases clear_cases h.le (Nat.le_of_lt h.shows.lt_length) m.forbidden with
    ⟨hclear, hnone⟩ | ⟨pattern, hmem, i, _, _, _, hclear⟩
  · rw [hclear]
    exact .inl ⟨rfl, hnone⟩
  · rw [hclear]
    exact .inr ⟨pattern, hmem, i, rfl⟩

theorem step_comment (hd : d.kind = .comment) : step lines d m = .ok () m := by
  simp only [step, hd]

theorem step_never (hd : d.kind = .never) :
    step lines d m = .ok () { m with forbidden := m.forbidden ++ [d.pattern] } := by
  simp only [step, hd]

/-- A step that passes has taken a line of the listing where its directive asks for one, past lines
that show nothing forbidden. -/
theorem answers_of_step (hd : d.kind.seeks = true) (h : step lines d m = .ok () m') :
    ∃ n, Answers lines d m.next n ∧ m' = m.taken d n ∧
      ∀ pattern ∈ m.forbidden, ∀ i, m.next ≤ i → i < n → ¬Shows lines pattern i := by
  rcases @step_cases lines d m hd with ⟨e, he, _⟩ | ⟨skipped, hanswers, _, hstep⟩
  · rw [he] at h
    cases h
  · rw [hstep] at h
    rcases accept_cases hanswers with ⟨haccept, hclear⟩ | ⟨_, _, _, haccept⟩
    · rw [haccept] at h
      cases h
      exact ⟨_, hanswers, rfl, hclear⟩
    · rw [haccept] at h
      cases h

/-- What matching keeps to: the line to look at next is at most the one past the last, and no lines
are asked for that the listing does not have. -/
def InRange (lines : List String) : EStateM.Result MatchError Matching Unit → Prop
  | .ok _ m => m.next ≤ lines.length
  | .error e _ => ∀ first last, e ≠ .outOfRange first last

theorem step_inRange (d : Directive) (hle : m.next ≤ lines.length) :
    InRange lines (step lines d m) := by
  cases hseeks : d.kind.seeks with
  | true =>
    rcases @step_cases lines d m hseeks with ⟨e, he, hrange, _⟩ | ⟨skipped, hanswers, _, hstep⟩
    · rw [he]
      exact hrange
    · rw [hstep]
      rcases accept_cases hanswers with ⟨haccept, _⟩ | ⟨_, _, _, haccept⟩ <;> rw [haccept]
      · exact hanswers.shows.lt_length
      · exact fun first last he => by cases he
  | false =>
    rcases Directive.kind_of_not_seeks hseeks with hkind | hkind
    · rw [step_comment hkind]
      exact hle
    · rw [step_never hkind]
      exact hle

theorem steps_inRange (ds : List Directive) (hle : m.next ≤ lines.length) :
    InRange lines (steps lines ds m) := by
  induction ds generalizing m with
  | nil => exact hle
  | cons d ds ih =>
    have hstep := step_inRange d hle
    simp only [steps, bind, EStateM.bind]
    cases h : step lines d m with rw [h] at hstep
    | error e k => exact hstep
    | ok _ k => exact ih hstep

theorem finish_cases (hle : m.next ≤ lines.length) :
    (finish lines m = .ok () m ∧
      ∀ pattern ∈ m.forbidden, ∀ i, m.next ≤ i → ¬Shows lines pattern i) ∨
    ∃ pattern ∈ m.forbidden, ∃ i, finish lines m = .error (.forbidden pattern i) m := by
  unfold finish
  rcases clear_cases hle (Nat.le_refl _) m.forbidden with
    ⟨hclear, hnone⟩ | ⟨pattern, hmem, i, _, _, _, hclear⟩
  · rw [hclear]
    exact .inl ⟨rfl, fun pattern hmem i hi hshows =>
      hnone pattern hmem i hi hshows.lt_length hshows⟩
  · rw [hclear]
    exact .inr ⟨pattern, hmem, i, rfl⟩

/-- From the first line to the last, no line is asked for that the listing does not have. -/
theorem start_inRange (output : String) (ds : List Directive) :
    InRange (Text.lines output) (start output ds) := by
  have hsteps := @steps_inRange (Text.lines output) {} ds (Nat.zero_le _)
  simp only [start, bind, EStateM.bind]
  cases h : steps (Text.lines output) ds {} with rw [h] at hsteps
  | error e m => exact hsteps
  | ok _ m =>
    rcases finish_cases hsteps with ⟨hfinish, _⟩ | ⟨_, _, _, hfinish⟩ <;> simp only [hfinish]
    · exact hsteps
    · exact fun first last he => by cases he

/-- Matching that passes has found lines for its directives, and up to the first of them no line
shows what was forbidden before. -/
theorem exists_places {ds : List Directive} (h : steps lines ds m = .ok () m')
    (hlast : ∀ pattern ∈ m'.forbidden, ∀ i, m'.next ≤ i → ¬Shows lines pattern i) :
    ∃ places, Places lines m.next ds places ∧ ∀ pattern ∈ m.forbidden, ∀ i, m.next ≤ i →
      (∀ n, places.head? = some n → i < n) → ¬Shows lines pattern i := by
  induction ds generalizing m with
  | nil =>
    cases h
    exact ⟨[], places_nil lines m'.next, fun pattern hmem i hle _ => hlast pattern hmem i hle⟩
  | cons d ds ih =>
    simp only [steps, bind, EStateM.bind] at h
    cases hstep : step lines d m with
    | error e k =>
      rw [hstep] at h
      cases h
    | ok _ k =>
      rw [hstep] at h
      obtain ⟨places, hplaces, hforbidden⟩ := ih h
      cases hseeks : d.kind.seeks with
      | true =>
        obtain ⟨n, hanswers, rfl, hclear⟩ := answers_of_step hseeks hstep
        refine ⟨n :: places, (places_cons_of_seeks hseeks).mpr ⟨hanswers, hplaces⟩, ?_⟩
        exact fun pattern hmem i hi hbefore => hclear pattern hmem i hi (hbefore n rfl)
      | false =>
        rcases Directive.kind_of_not_seeks hseeks with hkind | hkind
        · rw [step_comment hkind] at hstep
          cases hstep
          exact ⟨places, (places_cons_of_not_seeks hseeks).mpr ⟨by simp [hkind], hplaces⟩,
            hforbidden⟩
        · rw [step_never hkind] at hstep
          cases hstep
          refine ⟨places, (places_cons_of_not_seeks hseeks).mpr ⟨fun _ => ?_, hplaces⟩, ?_⟩
          · exact hforbidden d.pattern (by simp)
          · exact fun pattern hmem => hforbidden pattern (List.mem_append_left _ hmem)

/-- Where nothing is forbidden and no directive is tied to the line before, each search ends no later
than any lines there are for the directives, so the others are still ahead. -/
theorem steps_of_places {ds : List Directive} {first : Nat} {places : List Nat}
    (hplain : ∀ d ∈ ds, d.kind ≠ .next ∧ d.kind ≠ .never) (h : Places lines first ds places)
    (hle : m.next ≤ first) (hforbidden : m.forbidden = []) :
    ∃ m', steps lines ds m = .ok () m' ∧ m'.forbidden = [] := by
  induction ds generalizing m first places with
  | nil => exact ⟨m, rfl, hforbidden⟩
  | cons d ds ih =>
    obtain ⟨⟨hnext, hnever⟩, hrest⟩ := List.forall_mem_cons.mp hplain
    simp only [steps, bind, EStateM.bind]
    cases hseeks : d.kind.seeks with
    | true =>
      cases places with
      | nil =>
        have hlength := h.length_eq
        rw [sought_cons_of_seeks hseeks] at hlength
        cases hlength
      | cons n places =>
        obtain ⟨hn, hplaces⟩ := (places_cons_of_seeks hseeks).mp h
        have hanswers : Answers lines d m.next n :=
          ⟨Nat.le_trans hle hn.le, hn.shows, fun he => absurd he hnext⟩
        rcases @step_cases lines d m hseeks with ⟨_, _, _, hnone⟩ | ⟨skipped, hskipped, hmin, hstep⟩
        · exact absurd hanswers (hnone n)
        · have haccept : accept lines d skipped m = .ok () (m.taken d (m.next + skipped)) := by
            simp only [accept, hforbidden, clear, taken]
          rw [hstep, haccept]
          exact ih hrest hplaces (Nat.succ_le_succ (hmin n hanswers)) rfl
    | false =>
      rw [step_comment ((Directive.kind_of_not_seeks hseeks).resolve_right hnever)]
      exact ih hrest ((places_cons_of_not_seeks hseeks).mp h).2 hle hforbidden

theorem steps_filter_comment (lines : List String) (ds : List Directive) :
    steps lines (ds.filter (·.kind ≠ .comment)) = steps lines ds := by
  induction ds with
  | nil => rfl
  | cons d ds ih =>
    by_cases hkind : d.kind = .comment
    · rw [List.filter_cons_of_neg (by simp [hkind]), ih]
      funext m
      simp only [steps, bind, EStateM.bind, step_comment hkind]
    · rw [List.filter_cons_of_pos (by simp [hkind])]
      simp only [steps, ih]

end Steps
end Matching

open Matching in
/-- A listing that passes shows each pattern that is asked for, in order: on strictly later lines, on
the very next line where that is asked, and with no forbidden pattern on the lines between. Comments
make no difference. Directives that only search, and forbid nothing, pass whenever there are such
lines. No lines are ever asked for that the listing does not have. -/
theorem validate_matches (output : String) (ds : List Directive) :
    (validate output ds = .ok () → ∃ places, Places (Text.lines output) 0 ds places) ∧
    validate output (ds.filter (·.kind ≠ .comment)) = validate output ds ∧
    ((∀ d ∈ ds, d.kind ≠ .next ∧ d.kind ≠ .never) →
      (∃ places, Places (Text.lines output) 0 ds places) → validate output ds = .ok ()) ∧
    ∀ first last, validate output ds ≠ .error (.outOfRange first last) := by
  have hstart := start_inRange output ds
  refine ⟨?_, ?_, ?_, ?_⟩
  · intro h
    have hsteps := @steps_inRange (Text.lines output) {} ds (Nat.zero_le _)
    simp only [validate, start, bind, EStateM.bind] at h
    cases hrun : steps (Text.lines output) ds {} with rw [hrun] at h hsteps
    | error e m => cases h
    | ok _ m =>
      rcases finish_cases hsteps with ⟨_, hlast⟩ | ⟨_, _, _, hfinish⟩
      · obtain ⟨places, hplaces, _⟩ := exists_places hrun hlast
        exact ⟨places, hplaces⟩
      · simp only [hfinish] at h
        cases h
  · simp only [validate, start, steps_filter_comment]
  · rintro hplain ⟨places, hplaces⟩
    obtain ⟨m, hsteps, hforbidden⟩ :=
      steps_of_places (m := {}) hplain hplaces (Nat.le_refl 0) rfl
    simp only [validate, start, bind, EStateM.bind, hsteps, finish, hforbidden, clear]
  · intro first last h
    unfold validate at h
    cases hrun : start output ds with rw [hrun] at h hstart
    | error e m => exact hstart first last (Except.error.inj h)
    | ok _ m => cases h

/-- The listing of two sections. -/
def sections : String := "unit a: 2 ops\nPlan for a:\n  COPY\nunit b: 1 ops\nPlan for b:\n"

open Matching in
theorem sections_match :
    (validate sections [⟨.label, "unit a"⟩, ⟨.next, "Plan"⟩, ⟨.comment, "COPY"⟩, ⟨.never, "STORE"⟩,
        ⟨.label, "unit b"⟩, ⟨.never, "COPY"⟩] = .ok () ∧
      ∃ places, Places (Text.lines sections) 0 [⟨.label, "unit a"⟩, ⟨.next, "Plan"⟩,
        ⟨.comment, "COPY"⟩, ⟨.never, "STORE"⟩, ⟨.label, "unit b"⟩, ⟨.never, "COPY"⟩] places) ∧
    Places (Text.lines sections) 0 [⟨.check, "Plan"⟩, ⟨.comment, ""⟩, ⟨.label, "unit"⟩] [1, 3] ∧
      validate sections [⟨.check, "Plan"⟩, ⟨.comment, ""⟩, ⟨.label, "unit"⟩] = .ok () := by
  have hplaces :
      Places (Text.lines sections) 0 [⟨.check, "Plan"⟩, ⟨.comment, ""⟩, ⟨.label, "unit"⟩] [1, 3] := by
    refine (places_cons_of_seeks rfl).mpr ⟨⟨by decide, ⟨"Plan for a:", ?_, ?_⟩, nofun⟩, ?_⟩
    · decide +kernel
    · decide +kernel
    refine (places_cons_of_not_seeks rfl).mpr ⟨nofun, ?_⟩
    refine (places_cons_of_seeks rfl).mpr ⟨⟨by decide, ⟨"unit b: 1 ops", ?_, ?_⟩, nofun⟩, ?_⟩
    · decide +kernel
    · decide +kernel
    exact places_nil _ _
  have hpass : validate sections [⟨.label, "unit a"⟩, ⟨.next, "Plan"⟩, ⟨.comment, "COPY"⟩,
      ⟨.never, "STORE"⟩, ⟨.label, "unit b"⟩, ⟨.never, "COPY"⟩] = .ok () := by decide +kernel
  exact ⟨⟨hpass, (validate_matches sections _).1 hpass⟩, hplaces,
    (validate_matches sections _).2.2.1 (by decide) ⟨[1, 3], hplaces⟩⟩

end DefUse
