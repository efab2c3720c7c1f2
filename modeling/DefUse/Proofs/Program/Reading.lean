import DefUse.Program.Parser
import DefUse.Proofs.Program.Scanning

namespace DefUse
open Grammar

theorem except_bind_eq_ok {ε α β : Type} {x : Except ε α} {f : α → Except ε β} {b : β} :
    (x >>= f) = .ok b ↔ ∃ a, x = .ok a ∧ f a = .ok b := by
  cases x <;> simp [bind, Except.bind]

theorem except_bind_eq_error {ε α β : Type} {x : Except ε α} {f : α → Except ε β} {e : ε} :
    (x >>= f) = .error e ↔ x = .error e ∨ ∃ a, x = .ok a ∧ f a = .error e := by
  cases x <;> simp [bind, Except.bind]

namespace Grammar
variable {s rest : List Char}

theorem NameStart.ne_at {x : Char} (h : NameStart x) : x ≠ '@' := by
  rintro rfl
  exact absurd (isNameStart_iff.mpr h) (by decide)

/-- The characters that an operand can begin with. -/
def OperandStart (c : Char) : Prop :=
  c = '@' ∨ NamePart c

theorem OperandStart.isBlank {c : Char} (h : OperandStart c) : Text.isBlank c = false := by
  rcases h with rfl | h
  · decide
  · exact isBlank_of_namePart h

theorem OperandStart.ne {c x : Char} (h : OperandStart c) (hx : Cursor.isNamePart x = false)
    (hat : x ≠ '@') : c ≠ x := by
  rintro rfl
  rcases h with rfl | h
  · exact hat rfl
  · rw [isNamePart_iff.mpr h] at hx
    cases hx

theorem OperandAt.starts {o : Operand} (h : OperandAt s o rest) :
    ∃ x cs, s = x :: cs ∧ OperandStart x := by
  cases h with
  | userop => exact ⟨'@', _, rfl, Or.inl rfl⟩
  | address h =>
    obtain ⟨x, cs, hs, hx⟩ := h.starts
    exact ⟨x, cs, hs, Or.inr (namePart_of_isDigit hx)⟩
  | name h =>
    obtain ⟨x, cs, hs, hx⟩ := h.starts
    exact ⟨x, cs, hs, Or.inr hx.namePart⟩
  | varnode h =>
    obtain ⟨x, cs, hs, hx⟩ := h.starts
    exact ⟨x, cs, hs, Or.inr hx.namePart⟩

theorem OperandsAt.starts {os : List Operand} (h : OperandsAt s os rest) :
    ∃ x cs, s = x :: cs ∧ OperandStart x := by
  cases h with
  | last h => exact h.starts
  | more h _ _ _ => exact h.starts

theorem HeadAt.starts {output : Option Operand} {opcode : String}
    (h : HeadAt s output opcode rest) : ∃ x cs, s = x :: cs ∧ OperandStart x := by
  cases h with
  | bare h _ =>
    obtain ⟨x, cs, hs, hx⟩ := h.starts
    exact ⟨x, cs, hs, Or.inr hx.namePart⟩
  | assigning h _ _ _ => exact h.starts

theorem RecordAt.starts {r : Record} (h : RecordAt s r rest) :
    ∃ x cs, s = x :: cs ∧ OperandStart x := by
  cases h with
  | plain h _ => exact h.starts
  | applied h _ _ _ => exact h.starts

/-- Blanks are no bracket. -/
theorem Blanks.head?_ne {x : Char} (h : Blanks s (x :: rest)) (hx : x ≠ '[') :
    s.head? ≠ some '[' := by
  cases h with
  | here => simpa using hx
  | skip hc _ =>
    rintro ⟨⟩
    revert hc
    decide

theorem Gap.uncons {b x : Char} (h : Gap (b :: s) (x :: rest)) (hb : Text.isBlank b = true)
    (hx : Text.isBlank x = false) : Gap s (x :: rest) := by
  cases h with
  | here =>
    rw [hb] at hx
    cases hx
  | skip _ h => exact h

theorem RecordsAt.uncons {b : Char} {rs : List Record} (h : RecordsAt (b :: s) rs rest)
    (hb : Text.isBlank b = true) : RecordsAt s rs rest := by
  cases h with
  | close hgap => exact .close (Gap.uncons hgap hb (by decide))
  | more hgap hr hrs =>
    obtain ⟨x, cs, rfl, hx⟩ := hr.starts
    exact .more (Gap.uncons hgap hb hx.isBlank) hr hrs

theorem RecordsAt.ne_nil {rs : List Record} (h : RecordsAt s rs rest) : s ≠ [] := by
  rintro rfl
  cases h with
  | close hgap => cases hgap
  | more hgap hr _ =>
    obtain ⟨x, cs, rfl, _⟩ := hr.starts
    cases hgap

end Grammar

namespace Cursor
variable {c d : Cursor} {s t rest : List Char}

theorem varnode_sound {space : String} {o : Operand} (hname : NameAt s space ('[' :: c.shown))
    (h : varnode space c = .ok (o, d)) :
    OperandAt s o d.shown ∧ ∀ name, o ≠ .name name := by
  simp only [varnode, except_bind_eq_ok, Prod.exists] at h
  obtain ⟨offset, c₁, h₁, c₂, h₂, size, c₃, h₃, c₄, h₄, h⟩ := h
  split at h
  next hsize =>
    simp only [pure, Except.pure, Except.ok.injEq, Prod.mk.injEq] at h
    obtain ⟨rfl, rfl⟩ := h
    obtain ⟨_, hb₁, hn₁⟩ := number_sound h₁
    obtain ⟨_, hb₂, hn₂⟩ := number_sound h₃
    refine ⟨?_, by simp⟩
    exact .varnode hname hb₁ hn₁ (require_sound h₂) hb₂ hn₂ (require_sound h₄) hsize.1 hsize.2
  next => cases h

theorem operand_sound {o : Operand} (h : operand c = .ok (o, d)) :
    ∃ s, Blanks c.shown s ∧ OperandAt s o d.shown ∧
      ∀ name, o = .name name → d.shown.head? ≠ some '[' := by
  have hskip := blanks_skip c
  simp only [operand] at h
  split at h
  next hf =>
    simp only [except_bind_eq_ok, Prod.exists, pure, Except.pure, Except.ok.injEq,
      Prod.mk.injEq] at h
    obtain ⟨name, e, hname, rfl, rfl⟩ := h
    obtain ⟨t, hb, hn⟩ := identifier_sound hname
    exact ⟨_, blanks_of_found? hf, .userop hb hn, fun _ h => by cases h⟩
  next =>
    split at h
    · simp only [except_bind_eq_ok, Prod.exists, pure, Except.pure, Except.ok.injEq,
        Prod.mk.injEq] at h
      obtain ⟨word, e, hword, rfl, rfl⟩ := h
      obtain ⟨t, hb, hn⟩ := number_sound hword
      exact ⟨t, hskip.trans hb, .address hn, fun _ h => by cases h⟩
    · simp only [except_bind_eq_ok, Prod.exists] at h
      obtain ⟨name, e, hname, h⟩ := h
      obtain ⟨t, hb, hn⟩ := identifier_sound hname
      refine ⟨t, hskip.trans hb, ?_⟩
      split at h
      next r hr =>
        have hshown : e.shown = '[' :: plain false r := by
          rw [shown, hr, plain_cons (by decide)]
        rw [hshown] at hn
        obtain ⟨hvarnode, hne⟩ := varnode_sound (c := { e with rest := r }) hn h
        exact ⟨hvarnode, fun name' ho => absurd ho (hne name')⟩
      next hr =>
        simp only [pure, Except.pure, Except.ok.injEq, Prod.mk.injEq] at h
        obtain ⟨rfl, rfl⟩ := h
        refine ⟨.name hn, fun _ _ hbracket => ?_⟩
        have hhead : ∀ x ∈ e.rest.head?, x ≠ '[' := by
          intro x hx hx'
          cases hrest : e.rest with
          | nil =>
            rw [hrest] at hx
            cases hx
          | cons y r =>
            rw [hrest] at hx
            cases hx
            exact hr r (hx' ▸ hrest)
        exact head?_plain (P := fun x => x ≠ '[') (by decide) hhead '[' hbracket rfl

theorem varnode_complete (space : String) {offset size : UInt64} {s₂ s₃ s₄ s₅ s₆ : List Char}
    (hb₁ : Blanks c.shown s₂) (hn₁ : NumberAt s₂ offset s₃) (hb₂ : Blanks s₃ (':' :: s₄))
    (hb₃ : Blanks s₄ s₅) (hn₂ : NumberAt s₅ size s₆) (hb₄ : Blanks s₆ (']' :: rest))
    (hmin : 1 ≤ size.toNat) (hmax : size.toNat ≤ 0x10000) :
    ∃ d, varnode space c = .ok (.varnode space offset size.toNat, d) ∧ d.shown = rest := by
  obtain ⟨c₁, h₁, rfl⟩ := number_complete hb₁ hn₁
  obtain ⟨c₂, h₂, rfl⟩ := require_complete (by decide) hb₂
  obtain ⟨c₃, h₃, rfl⟩ := number_complete hb₃ hn₂
  obtain ⟨c₄, h₄, rfl⟩ := require_complete (by decide) hb₄
  refine ⟨c₄, ?_, rfl⟩
  have hsize : 0 < size.toNat ∧ size.toNat ≤ maxVarnodeSize := ⟨hmin, hmax⟩
  simp only [varnode, h₁, h₂, h₃, h₄, bind, Except.bind, if_pos hsize]
  rfl

/-- What is read behind a first character that is no at sign. -/
theorem operand_of_found {x : Char} (hf : (c.skip false).found? = some x) (hx : x ≠ '@') :
    operand c = if x.isDigit then do
        let (word, d) ← (c.skip false).number
        return (.address word, d)
      else do
        let (name, d) ← (c.skip false).identifier
        match d.rest with
        | '[' :: rest => varnode name { d with rest }
        | _ => return (.name name, d) := by
  simp only [operand]
  split
  next hat =>
    rw [hf] at hat
    exact absurd (Option.some.inj hat) hx
  next => exact if_congr (by simp [hf]) rfl rfl

/-- The operand is read, unless it is a name and the reader takes it for the space of a varnode. -/
theorem operand_complete {o : Operand} (hb : Blanks c.shown s) (h : OperandAt s o rest)
    (hrest : rest.head? ≠ some '[') : ∃ d, operand c = .ok (o, d) ∧ d.shown = rest := by
  obtain ⟨x, cs, hs, hx⟩ := h.starts
  have hshown := shown_skip_eq false hs (skipped_of_isBlank hx.isBlank false) hb
  have hself : Blanks (c.skip false).shown s := hshown ▸ .here
  have hfound := found?_of_shown (hshown.trans hs) hx.isBlank
  obtain ⟨r, hr, hcs⟩ := rest_of_shown (hshown.trans hs)
  cases h with
  | @userop s' t rest name hblanks hname =>
    obtain ⟨rfl, rfl⟩ := List.cons.inj hs
    have hb' : Blanks (shown ⟨r, (c.skip false).line⟩) t := by
      rw [shown, hcs]
      exact hblanks
    obtain ⟨d, hd, rfl⟩ := identifier_complete hb' hname
    refine ⟨d, ?_, rfl⟩
    simp only [operand, hfound, hr, List.tail_cons, hd, bind, Except.bind]
    rfl
  | address hnumber =>
    obtain ⟨y, ys, hs', hy⟩ := hnumber.starts
    obtain ⟨rfl, _⟩ := List.cons.inj (hs'.symm.trans hs)
    obtain ⟨d, hd, rfl⟩ := number_complete hself hnumber
    refine ⟨d, ?_, rfl⟩
    rw [operand_of_found hfound (by rintro rfl; cases hy), if_pos hy, hd]
    rfl
  | name hname =>
    obtain ⟨y, ys, hs', hy⟩ := hname.starts
    obtain ⟨rfl, _⟩ := List.cons.inj (hs'.symm.trans hs)
    obtain ⟨d, hd, rfl⟩ := identifier_complete hself hname
    refine ⟨d, ?_, rfl⟩
    rw [operand_of_found hfound hy.ne_at, if_neg (by simp [hy.isDigit]), hd]
    simp only [bind, Except.bind]
    split
    next q hq =>
      rw [shown, hq, plain_cons (by decide)] at hrest
      exact absurd rfl hrest
    next => rfl
  | @varnode _ _ _ _ _ _ _ _ space _ _ hname hb₁ hn₁ hb₂ hb₃ hn₂ hb₄ hmin hmax =>
    obtain ⟨y, ys, hs', hy⟩ := hname.starts
    obtain ⟨rfl, _⟩ := List.cons.inj (hs'.symm.trans hs)
    obtain ⟨e, he, hbracket⟩ := identifier_complete hself hname
    obtain ⟨q, hq, rfl⟩ := plain_eq_cons (by decide) hbracket
    obtain ⟨d, hd, rfl⟩ := varnode_complete (c := { e with rest := q }) space hb₁ hn₁ hb₂ hb₃
      hn₂ hb₄ hmin hmax
    refine ⟨d, ?_, rfl⟩
    rw [operand_of_found hfound hy.ne_at, if_neg (by simp [hy.isDigit]), he]
    simp only [bind, Except.bind, hq]
    exact hd

theorem operands_sound {os : List Operand} (h : operands c = .ok (os, d)) :
    ∃ s e, Blanks c.shown s ∧ OperandsAt s os e ∧ Blanks e d.shown ∧ d.found? = none := by
  fun_induction operands c generalizing os d with
  | case1 => cases h
  | case2 c first next ho hf =>
    obtain ⟨s, hb, hat, _⟩ := operand_sound ho
    simp only [Except.ok.injEq, Prod.mk.injEq] at h
    obtain ⟨rfl, rfl⟩ := h
    exact ⟨s, next.shown, hb, .last hat, blanks_skip next, hf⟩
  | case3 => cases h
  | case4 => cases h
  | case5 c first next ho hf next' hc others last hrest ih =>
    obtain ⟨s, hb, hat, _⟩ := operand_sound ho
    obtain ⟨t, e, ht, hats, he, hnone⟩ := ih hrest
    simp only [Except.ok.injEq, Prod.mk.injEq] at h
    obtain ⟨rfl, rfl⟩ := h
    exact ⟨s, e, hb, .more hat (require_sound hc) ht hats, he, hnone⟩

theorem found?_eq_none_of_newline (h : (c.skip false).shown = '\n' :: rest) :
    (c.skip false).found? = none := by
  obtain ⟨r, hr, _⟩ := rest_of_shown h
  simp [found?, hr]

theorem operands_of_operand {o : Operand} {next : Cursor} (h : operand c = .ok (o, next)) :
    operands c = if (next.skip false).found? = none then .ok ([o], next.skip false) else do
      let d ← require ',' next
      let (others, d) ← operands d
      return (o :: others, d) := by
  rw [operands_eq, h]
  rfl

theorem operands_complete {os : List Operand} {e : List Char} (hb : Blanks c.shown s)
    (h : OperandsAt s os e) (hend : Blanks e ('\n' :: rest)) :
    ∃ d, operands c = .ok (os, d) ∧ d.shown = '\n' :: rest := by
  induction h generalizing c with
  | last hat =>
    obtain ⟨next, ho, rfl⟩ := operand_complete hb hat (hend.head?_ne (by decide))
    have hshown := shown_skip_eq false rfl (by decide) hend
    refine ⟨next.skip false, ?_, hshown⟩
    rw [operands_of_operand ho, if_pos (found?_eq_none_of_newline hshown)]
  | more hat hcomma hblanks _ ih =>
    obtain ⟨next, ho, rfl⟩ := operand_complete hb hat (hcomma.head?_ne (by decide))
    have hshown := shown_skip_eq false rfl (by decide) hcomma
    have hfound := found?_of_shown hshown (by decide)
    obtain ⟨next', hc, rfl⟩ := require_complete (by decide) hcomma
    obtain ⟨d, hd, hlast⟩ := ih hblanks hend
    refine ⟨d, ?_, hlast⟩
    rw [operands_of_operand ho, if_neg (by simp [hfound]), hc]
    simp only [bind, Except.bind, hd]
    rfl

theorem recordHead_sound {output : Option Operand} {opcode : String}
    (h : recordHead c = .ok ((output, opcode), d)) :
    ∃ s e, Blanks c.shown s ∧ HeadAt s output opcode e ∧ Blanks e d.shown := by
  simp only [recordHead, fail, except_bind_eq_ok, Prod.exists] at h
  obtain ⟨first, next, ho, h⟩ := h
  obtain ⟨s, hb, hat, hbracket⟩ := operand_sound ho
  split at h
  next hf =>
    simp only [except_bind_eq_ok, Prod.exists, pure, Except.pure, Except.ok.injEq,
      Prod.mk.injEq] at h
    obtain ⟨name, e, hname, ⟨rfl, rfl⟩, rfl⟩ := h
    obtain ⟨t, ht, hn⟩ := identifier_sound hname
    exact ⟨s, _, hb, .assigning hat (blanks_of_found? hf) ht hn, .here⟩
  next =>
    split at h
    next name =>
      simp only [pure, Except.pure, Except.ok.injEq, Prod.mk.injEq] at h
      obtain ⟨⟨rfl, rfl⟩, rfl⟩ := h
      cases hat with
      | name hn => exact ⟨s, _, hb, .bare hn (hbracket _ rfl), blanks_skip next⟩
    next => cases h

/-- The opcode is read as such, unless an equals sign makes an output of it. -/
theorem recordHead_complete {output : Option Operand} {opcode : String} {e : List Char} {x : Char}
    (hb : Blanks c.shown s) (h : HeadAt s output opcode e) (hend : Blanks e (x :: rest))
    (hx : skipped false x = false) (hequals : x ≠ '=') :
    ∃ d, recordHead c = .ok ((output, opcode), d) ∧ (d.skip false).shown = x :: rest := by
  cases h with
  | bare hname hbracket =>
    obtain ⟨next, ho, rfl⟩ := operand_complete hb (.name hname) hbracket
    have hshown := shown_skip_eq false rfl hx hend
    refine ⟨next.skip false, ?_, ?_⟩
    · have hfound : (next.skip false).found? ≠ some '=' := by
        intro hf
        obtain ⟨r, hr, _⟩ := found?_eq_some_iff.mp hf
        rw [shown_of_skip hr] at hshown
        exact hequals (List.cons.inj hshown).1.symm
      simp only [recordHead, ho, bind, Except.bind, if_neg hfound]
      rfl
    · exact shown_skip_eq false rfl hx (hshown ▸ .here)
  | assigning hat hsign hblanks hname =>
    obtain ⟨next, ho, rfl⟩ := operand_complete hb hat (hsign.head?_ne (by decide))
    have hshown := shown_skip_eq false rfl (by decide) hsign
    have hfound := found?_of_shown hshown (by decide)
    obtain ⟨r, hr, rfl⟩ := rest_of_shown hshown
    obtain ⟨d, hd, rfl⟩ := identifier_complete (c := { next.skip false with rest := r }) hblanks
      hname
    refine ⟨d, ?_, shown_skip_eq false rfl hx hend⟩
    simp only [recordHead, ho, bind, Except.bind, if_pos hfound, hr, List.tail_cons, hd]
    rfl

/-- A record that is read has a derivation, if its line ends with a newline. -/
theorem record_sound {r : Record} (h : record c = .ok (r, d)) :
    d.found? = none ∧ ∃ s, Blanks c.shown s ∧
      ∀ rest, d.shown = '\n' :: rest → RecordAt s r.unlined rest := by
  simp only [record, except_bind_eq_ok, Prod.exists] at h
  obtain ⟨output, opcode, next, hhead, h⟩ := h
  obtain ⟨s, e, hb, hat, he⟩ := recordHead_sound hhead
  have hnext := he.trans (blanks_skip next)
  split at h
  next hf =>
    simp only [pure, Except.pure, Except.ok.injEq, Prod.mk.injEq] at h
    obtain ⟨rfl, rfl⟩ := h
    refine ⟨hf, s, hb, fun rest hrest => ?_⟩
    rw [hrest] at hnext
    exact .plain hat hnext
  next =>
    simp only [except_bind_eq_ok, Prod.exists, pure, Except.pure, Except.ok.injEq,
      Prod.mk.injEq] at h
    obtain ⟨os, d, hos, rfl, rfl⟩ := h
    obtain ⟨t, e', ht, hats, he', hnone⟩ := operands_sound hos
    refine ⟨hnone, s, hb, fun rest hrest => ?_⟩
    rw [hrest] at he'
    exact .applied hat (hnext.trans ht) hats he'

theorem record_complete {r : Record} (hb : Blanks c.shown s) (h : RecordAt s r rest) :
    ∃ q d, record c = .ok (q, d) ∧ q.unlined = r ∧ d.shown = '\n' :: rest := by
  cases h with
  | @plain _ _ output opcode hat hend =>
    obtain ⟨next, hhead, hshown⟩ := recordHead_complete hb hat hend (by decide) (by decide)
    refine ⟨⟨c.line, output, opcode, []⟩, next.skip false, ?_, rfl, hshown⟩
    simp only [record, hhead, bind, Except.bind, if_pos (found?_eq_none_of_newline hshown)]
    rfl
  | @applied _ _ _ _ output opcode os hat hblanks hats hend =>
    obtain ⟨x, cs, rfl, hx⟩ := hats.starts
    obtain ⟨next, hhead, hshown⟩ := recordHead_complete hb hat hblanks
      (skipped_of_isBlank hx.isBlank false) (hx.ne (by decide) (by decide))
    have hfound : (next.skip false).found? ≠ none := by
      rw [found?_of_shown hshown hx.isBlank]
      simp
    obtain ⟨d, hd, hlast⟩ := operands_complete (c := next.skip false) (hshown ▸ .here) hats hend
    refine ⟨⟨c.line, output, opcode, os⟩, d, ?_, rfl, hlast⟩
    simp only [record, hhead, bind, Except.bind, if_neg hfound, hd]
    rfl

end Cursor
end DefUse
