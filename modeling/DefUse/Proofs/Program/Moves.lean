import DefUse.Proofs.Program.Reading

namespace DefUse

namespace Cursor

/-- The cursors that the moves of readers lead to from `c`. Without `newlines` no move leaves the
line. -/
inductive Moves (newlines : Bool) (c : Cursor) : Cursor → Prop
  | here : Moves newlines c c
  | skip {d : Cursor} (far : Bool) :
    Moves newlines c d → (far = true → newlines = true) → Moves newlines c (d.skip far)
  | take {d : Cursor} {ch : Char} :
    Moves newlines c d → d.found? = some ch → Moves newlines c { d with rest := d.rest.tail }
  | run {d : Cursor} (kind : Char → Bool) :
    Moves newlines c d → kind '\n' = false →
    Moves newlines c { d with rest := d.rest.dropWhile kind }

/-- `d` stands behind `passed`, and its line counts the newlines in there. -/
structure Passes (c d : Cursor) (passed : List Char) : Prop where
  split : c.rest = passed ++ d.rest
  line : d.line = c.line + passed.count '\n'

variable {newlines : Bool} {c d : Cursor} {passed before : List Char}

theorem Passes.refl (c : Cursor) : Passes c c [] :=
  ⟨rfl, rfl⟩

theorem Passes.trans {e : Cursor} (hcd : Passes c d passed) (hde : Passes d e before) :
    Passes c e (passed ++ before) := by
  constructor
  · rw [hcd.split, hde.split, List.append_assoc]
  · rw [hde.line, hcd.line, List.count_append, Nat.add_assoc]

/-- What is passed between two places is determined by the places. -/
theorem Passes.eq (h : Passes c d passed) (hsplit : c.rest = before ++ d.rest) :
    passed = before :=
  List.append_cancel_right (h.split.symm.trans hsplit)

theorem Passes.on_line {rest : List Char} (hsplit : c.rest = passed ++ rest)
    (hline : '\n' ∉ passed) : Passes c { c with rest } passed := by
  refine ⟨hsplit, ?_⟩
  rw [List.count_eq_zero_of_not_mem hline, Nat.add_zero]

theorem skipFrom_passes (newlines comment : Bool) (cs : List Char) (line : Nat) :
    ∃ passed, Passes ⟨cs, line⟩ (skipFrom newlines comment cs line) passed ∧
      (newlines = false → '\n' ∉ passed) := by
  induction cs generalizing comment line with
  | nil => exact ⟨[], Passes.refl _, by simp⟩
  | cons ch rest ih =>
    have hpass (comment : Bool) (hch : ch ≠ '\n') :
        ∃ passed, Passes ⟨ch :: rest, line⟩ (skipFrom newlines comment rest line) passed ∧
          (newlines = false → '\n' ∉ passed) := by
      obtain ⟨passed, hpassed, hstays⟩ := ih comment line
      have hone : Passes ⟨ch :: rest, line⟩ ⟨rest, line⟩ [ch] :=
        Passes.on_line rfl (by simpa using hch.symm)
      refine ⟨[ch] ++ passed, hone.trans hpassed, ?_⟩
      intro hn
      simp [hch.symm, hstays hn]
    simp only [skipFrom]
    split
    next hch =>
      subst hch
      split
      next hn =>
        obtain ⟨passed, hpassed, _⟩ := ih false (line + 1)
        have hone : Passes ⟨'\n' :: rest, line⟩ ⟨rest, line + 1⟩ ['\n'] := ⟨rfl, rfl⟩
        exact ⟨['\n'] ++ passed, hone.trans hpassed, by simp [hn]⟩
      next => exact ⟨[], Passes.refl _, by simp⟩
    next hch =>
      repeat' split
      · exact hpass true hch
      · exact hpass true hch
      · exact hpass false hch
      · exact ⟨[], Passes.refl _, by simp⟩

theorem skip_passes (far : Bool) (c : Cursor) :
    ∃ passed, Passes c (c.skip far) passed ∧ (far = false → '\n' ∉ passed) :=
  skipFrom_passes far false c.rest c.line

namespace Moves

theorem trans {e : Cursor} (hcd : Moves newlines c d) (hde : Moves newlines d e) :
    Moves newlines c e := by
  induction hde with
  | here => exact hcd
  | skip far _ hfar ih => exact .skip far ih hfar
  | take _ hfound ih => exact .take ih hfound
  | run kind _ hkind ih => exact .run kind ih hkind

/-- Moves go forward over a part of the text and keep the count of lines. -/
theorem passes (h : Moves newlines c d) :
    ∃ passed, Passes c d passed ∧ (newlines = false → '\n' ∉ passed) := by
  induction h with
  | here => exact ⟨[], Passes.refl c, by simp⟩
  | @skip d far _ hfar ih =>
    obtain ⟨passed, hpassed, hstays⟩ := ih
    obtain ⟨more, hmore, hstill⟩ := skip_passes far d
    refine ⟨passed ++ more, hpassed.trans hmore, ?_⟩
    intro hn
    have hfar : far = false := by
      rw [Bool.eq_false_iff]
      intro htrue
      rw [hfar htrue] at hn
      cases hn
    simp [hstays hn, hstill hfar]
  | @take d ch _ hfound ih =>
    obtain ⟨passed, hpassed, hstays⟩ := ih
    obtain ⟨rest, hrest, hch⟩ := found?_eq_some_iff.mp hfound
    have hone : Passes d { d with rest := d.rest.tail } [ch] :=
      Passes.on_line (by rw [hrest]; rfl) (by simpa using hch.symm)
    refine ⟨passed ++ [ch], hpassed.trans hone, ?_⟩
    intro hn
    simp [hstays hn, hch.symm]
  | @run d kind _ hkind ih =>
    obtain ⟨passed, hpassed, hstays⟩ := ih
    have hrun : '\n' ∉ d.rest.takeWhile kind := by
      intro hmem
      rw [List.mem_takeWhile_imp hmem] at hkind
      cases hkind
    have hmore : Passes d { d with rest := d.rest.dropWhile kind } (d.rest.takeWhile kind) :=
      Passes.on_line List.takeWhile_append_dropWhile.symm hrun
    refine ⟨passed ++ d.rest.takeWhile kind, hpassed.trans hmore, ?_⟩
    intro hn
    simp only [List.mem_append, not_or]
    exact ⟨hstays hn, hrun⟩

theorem line_eq (h : Moves false c d) : d.line = c.line := by
  obtain ⟨passed, hpassed, hstays⟩ := h.passes
  rw [hpassed.line, List.count_eq_zero_of_not_mem (hstays rfl), Nat.add_zero]

theorem line_le (h : Moves newlines c d) : c.line ≤ d.line := by
  obtain ⟨passed, hpassed, _⟩ := h.passes
  rw [hpassed.line]
  exact Nat.le_add_right _ _

end Moves

theorem moves_skip (c : Cursor) : Moves newlines c (c.skip false) :=
  .skip false .here (by simp)

theorem moves_skip_true (c : Cursor) : Moves true c (c.skip true) :=
  .skip true .here fun _ => rfl

theorem moves_tail {ch : Char} {rest : List Char} (hrest : c.rest = ch :: rest) (hch : ch ≠ '\n') :
    Moves newlines c { c with rest } := by
  have htake : Moves newlines c { c with rest := c.rest.tail } :=
    .take .here (found?_eq_some_iff.mpr ⟨rest, hrest, hch⟩)
  rw [hrest] at htake
  exact htake

end Cursor

/-- What an error says about the place where reading stopped and about the text before it. -/
def ParseFault.Fits (before : List Char) (stop : Cursor) : ParseFault → Prop
  | identifierExpected found =>
    found = stop.found? ∧ ∀ ch ∈ stop.found?, Cursor.isNameStart ch = false
  | charExpected wanted found => found = stop.found? ∧ stop.found? ≠ some wanted
  | numberExpected => ∀ ch ∈ stop.found?, ch.isAlphanum = false
  | badNumber token fault =>
    token.toList <:+ before ∧ Text.readWord token.toList = .error fault
  | unitExpected name => name.toList <:+ before ∧ name ≠ "unit"
  | duplicateUnit name => name.toList <:+ before
  | unclosedUnit _ => stop.rest = []
  | opcodeExpected _ => stop.found? ≠ some '='
  | badVarnodeSize _ => [']'] <:+ before

theorem ParseFault.Fits.append {fault : ParseFault} {before : List Char} {stop : Cursor}
    (h : fault.Fits before stop) (earlier : List Char) : fault.Fits (earlier ++ before) stop := by
  have hsuffix {token : List Char} (ht : token <:+ before) : token <:+ earlier ++ before :=
    ht.trans (List.suffix_append earlier before)
  cases fault with
  | badNumber => exact ⟨hsuffix h.1, h.2⟩
  | unitExpected => exact ⟨hsuffix h.1, h.2⟩
  | duplicateUnit => exact hsuffix h
  | badVarnodeSize => exact hsuffix h
  | identifierExpected => exact h
  | charExpected => exact h
  | numberExpected => exact h
  | unclosedUnit => exact h
  | opcodeExpected => exact h

namespace Cursor
variable {newlines : Bool} {c d stop : Cursor} {α β : Type}

/-- Reading from `c` stopped with `e` at a cursor that moves lead to. -/
def StopsWith (newlines : Bool) (c : Cursor) (e : ParseError) : Prop :=
  ∃ stop before, Moves newlines c stop ∧ Passes c stop before ∧ e.line = stop.line ∧
    e.fault.Fits before stop

theorem StopsWith.behind {e : ParseError} (hmoves : Moves newlines c d)
    (h : StopsWith newlines d e) : StopsWith newlines c e := by
  obtain ⟨stop, before, hstop, hbefore, hline, hfits⟩ := h
  obtain ⟨passed, hpassed, _⟩ := hmoves.passes
  exact ⟨stop, passed ++ before, hmoves.trans hstop, hpassed.trans hbefore, hline,
    hfits.append passed⟩

theorem stopsWith_of_fail {fault : ParseFault} {e : ParseError}
    (h : (stop.fail fault : Except ParseError α) = .error e) (hmoves : Moves newlines c stop)
    (hfits : ∀ before, Passes c stop before → fault.Fits before stop) : StopsWith newlines c e := by
  obtain rfl := Except.error.inj h
  obtain ⟨before, hbefore, _⟩ := hmoves.passes
  exact ⟨stop, before, hmoves, hbefore, rfl, hfits before hbefore⟩

/-- A result of reading from `c`: moves lead to the cursor of a value, and to the place of an
error. -/
def Tracks (newlines : Bool) (c : Cursor) (place : α → Cursor) :
    Except ParseError α → Prop
  | .ok a => Moves newlines c (place a)
  | .error e => StopsWith newlines c e

namespace Tracks
variable {place : α → Cursor} {next : β → Cursor} {x : Except ParseError α}

theorem of_fail (hmoves : Moves newlines c stop) {fault : ParseFault}
    (hfits : ∀ before, Passes c stop before → fault.Fits before stop) :
    Tracks newlines c place (stop.fail fault) :=
  stopsWith_of_fail (α := α) rfl hmoves hfits

theorem moves {a : α} (h : Tracks newlines c place x) (hx : x = .ok a) :
    Moves newlines c (place a) := by
  rw [hx] at h
  exact h

theorem stops {e : ParseError} (h : Tracks newlines c place x) (hx : x = .error e) :
    StopsWith newlines c e := by
  rw [hx] at h
  exact h

theorem behind (hmoves : Moves newlines c d) (h : Tracks newlines d place x) :
    Tracks newlines c place x := by
  cases x with
  | ok a => exact hmoves.trans h
  | error e => exact StopsWith.behind hmoves h

/-- The second reader may look back over what the first one passed. -/
theorem and_then {f : α → Except ParseError β} (hx : Tracks newlines c place x)
    (hf : ∀ a, x = .ok a → Tracks newlines c next (f a)) : Tracks newlines c next (x >>= f) := by
  cases x with
  | ok a => exact hf a rfl
  | error e => exact hx

theorem bind {f : α → Except ParseError β} (hx : Tracks newlines c place x)
    (hf : ∀ a, Tracks newlines (place a) next (f a)) : Tracks newlines c next (x >>= f) :=
  hx.and_then fun a ha => behind (hx.moves ha) (hf a)

end Tracks

theorem tracks_require (wanted : Char) (c : Cursor) : Tracks newlines c id (require wanted c) := by
  simp only [require]
  split
  next hfound => exact .take (moves_skip c) hfound
  next hfound => exact Tracks.of_fail (moves_skip c) fun _ _ => ⟨rfl, hfound⟩

theorem rest_of_require {wanted : Char} (h : require wanted c = .ok d) :
    ∃ blanks, c.rest = blanks ++ [wanted] ++ d.rest := by
  obtain ⟨blanks, hblanks, _⟩ := skip_passes false c
  simp only [require, fail] at h
  split at h
  next hfound =>
    obtain ⟨rest, hrest⟩ := rest_of_found? hfound
    obtain rfl := Except.ok.inj h
    refine ⟨blanks, ?_⟩
    rw [hblanks.split, hrest]
    simp
  next => cases h

theorem tracks_identifier (c : Cursor) : Tracks newlines c Prod.snd (identifier c) := by
  simp only [identifier]
  split
  next hnone =>
    refine Tracks.of_fail (moves_skip c) fun _ _ => ⟨hnone.symm, ?_⟩
    simp [hnone]
  next ch hfound =>
    split
    next => exact .run isNamePart (moves_skip c) (by decide)
    next hch =>
      refine Tracks.of_fail (moves_skip c) fun _ _ => ⟨hfound.symm, ?_⟩
      simpa [hfound] using hch

theorem rest_of_identifier {name : String} (h : identifier c = .ok (name, d)) :
    (c.skip false).rest = name.toList ++ d.rest := by
  simp only [identifier, fail] at h
  split at h
  · cases h
  · split at h
    · simp only [Except.ok.injEq, Prod.mk.injEq] at h
      obtain ⟨rfl, rfl⟩ := h
      rw [String.toList_ofList, List.takeWhile_append_dropWhile]
    · cases h

/-- A name that was just read ends what was passed. -/
theorem suffix_of_identifier {name : String} (h : identifier c = .ok (name, d))
    {before : List Char} (hpasses : Passes c d before) : name.toList <:+ before := by
  obtain ⟨blanks, hblanks, _⟩ := skip_passes false c
  have hsplit : c.rest = (blanks ++ name.toList) ++ d.rest := by
    rw [hblanks.split, rest_of_identifier h, List.append_assoc]
  exact ⟨blanks, (hpasses.eq hsplit).symm⟩

theorem tracks_number (c : Cursor) : Tracks newlines c Prod.snd (number c) := by
  have hrun : Moves newlines c
      { c.skip false with rest := (c.skip false).rest.dropWhile Char.isAlphanum } :=
    .run Char.isAlphanum (moves_skip c) (by decide)
  simp only [number]
  split
  next hempty =>
    refine Tracks.of_fail (moves_skip c) fun _ _ ch hch => ?_
    obtain ⟨rest, hrest, _⟩ := found?_eq_some_iff.mp hch
    rw [hrest] at hempty
    simpa [List.takeWhile_cons] using hempty
  next =>
    split
    next => exact hrun
    next fault hfault =>
      refine Tracks.of_fail hrun fun before hbefore => ?_
      obtain ⟨blanks, hblanks, _⟩ := skip_passes false c
      have hsplit : c.rest = (blanks ++ (c.skip false).rest.takeWhile Char.isAlphanum) ++
          (c.skip false).rest.dropWhile Char.isAlphanum := by
        rw [List.append_assoc, List.takeWhile_append_dropWhile, hblanks.split]
      refine ⟨⟨blanks, ?_⟩, ?_⟩
      · rw [String.toList_ofList]
        exact (hbefore.eq hsplit).symm
      · rw [String.toList_ofList]
        exact hfault

theorem tracks_varnode (space : String) (c : Cursor) :
    Tracks newlines c Prod.snd (varnode space c) := by
  refine (tracks_number c).bind fun offset => ?_
  refine (tracks_require ':' _).bind fun d => ?_
  refine (tracks_number d).bind fun size => ?_
  refine (tracks_require ']' _).and_then fun last hlast => ?_
  have hmoves : Moves newlines size.2 last := (tracks_require ']' size.2).moves hlast
  split
  next => exact hmoves
  next =>
    refine Tracks.of_fail hmoves fun before hbefore => ?_
    obtain ⟨blanks, hsplit⟩ := rest_of_require hlast
    exact ⟨blanks, (hbefore.eq hsplit).symm⟩

theorem tracks_operand (c : Cursor) : Tracks newlines c Prod.snd (operand c) := by
  refine Tracks.behind (moves_skip c) ?_
  simp only [operand]
  split
  next hfound =>
    refine Tracks.behind (.take .here hfound) ?_
    exact (tracks_identifier _).bind fun _ => .here
  next =>
    split
    next => exact (tracks_number _).bind fun _ => .here
    next =>
      refine (tracks_identifier _).bind fun name => ?_
      split
      next rest hrest =>
        exact Tracks.behind (moves_tail hrest (by decide)) (tracks_varnode _ _)
      next => exact .here

theorem tracks_operands (c : Cursor) : Tracks newlines c Prod.snd (operands c) := by
  rw [operands_eq]
  refine (tracks_operand c).and_then fun first hfirst => ?_
  refine Tracks.behind ((tracks_operand c).moves hfirst) ?_
  dsimp only
  split
  next => exact moves_skip first.2
  next =>
    refine (tracks_require ',' first.2).and_then fun next hnext => ?_
    refine Tracks.behind ((tracks_require ',' first.2).moves hnext) ?_
    have := length_of_operand hfirst
    have := length_of_require hnext
    exact (tracks_operands next).bind fun _ => .here
termination_by c.rest.length

theorem tracks_recordHead (c : Cursor) : Tracks newlines c Prod.snd (recordHead c) := by
  refine (tracks_operand c).bind fun first => ?_
  refine Tracks.behind (moves_skip first.2) ?_
  dsimp only
  split
  next hfound =>
    refine Tracks.behind (.take .here hfound) ?_
    exact (tracks_identifier _).bind fun _ => .here
  next hfound =>
    split
    next => exact .here
    next => exact Tracks.of_fail .here fun _ _ => hfound

theorem tracks_record (c : Cursor) : Tracks newlines c Prod.snd (record c) := by
  refine (tracks_recordHead c).bind fun head => ?_
  refine Tracks.behind (moves_skip head.2) ?_
  dsimp only
  split
  next => exact .here
  next => exact (tracks_operands _).bind fun _ => .here

end Cursor
end DefUse
