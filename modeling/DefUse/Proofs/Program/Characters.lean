import Mathlib.Data.List.Induction
import DefUse.Program.Cursor
import DefUse.Proofs.Program.Grammar

namespace DefUse
open Grammar

/-- A property of the ASCII characters, checked one by one. -/
theorem forall_ascii {P : Char → Prop} (h : ∀ n < 128, P (Char.ofNat n)) {c : Char}
    (hc : c.toNat < 128) : P c := by
  have hn := h c.toNat hc
  rwa [Char.ofNat_toNat] at hn

namespace Text

/-- No range of one list meets a range of the other. -/
def Ranges.apart (a b : Ranges) : Bool :=
  a.all fun x => b.all fun y => x.2 < y.1 || y.2 < x.1

theorem Ranges.has_eq_false {a b : Ranges} (h : a.apart b = true) {point : Nat}
    (ha : a.has point = true) : b.has point = false := by
  obtain ⟨x, hx, hx1, hx2⟩ := (a.has_iff point).mp ha
  rw [Bool.eq_false_iff]
  intro hb
  obtain ⟨y, hy, hy1, hy2⟩ := (b.has_iff point).mp hb
  have hxy := List.all_eq_true.mp (List.all_eq_true.mp h x hx) y hy
  simp only [Bool.or_eq_true, decide_eq_true_eq] at hxy
  omega

theorem isAlphabetic_of_isBlank {c : Char} (h : isBlank c = true) : isAlphabetic c = false := by
  by_cases hc : c.toNat < 128
  · exact forall_ascii (P := fun c => isBlank c = true → isAlphabetic c = false)
      (by decide +kernel) hc h
  · have happart : Ranges.apart blankRanges alphabeticRanges = true := by decide +kernel
    rw [isAlphabetic, if_neg hc]
    exact Ranges.has_eq_false happart h

theorem isNumeric_of_isBlank {c : Char} (h : isBlank c = true) : isNumeric c = false := by
  by_cases hc : c.toNat < 128
  · exact forall_ascii (P := fun c => isBlank c = true → isNumeric c = false)
      (by decide +kernel) hc h
  · have happart : Ranges.apart blankRanges numericRanges = true := by decide +kernel
    rw [isNumeric, if_neg hc]
    exact Ranges.has_eq_false happart h

/-- Neither a blank nor the mark of a comment. -/
def Visible (c : Char) : Prop :=
  isBlank c = false ∧ c ≠ ';'

theorem Visible.ne_newline {c : Char} (h : Visible c) : c ≠ '\n' := by
  rintro rfl
  rw [Visible, isBlank_newline] at h
  cases h.1

end Text

namespace Grammar

theorem NameStart.namePart {c : Char} (h : NameStart c) : NamePart c := by
  rcases h with h | h
  · exact Or.inl h
  · exact Or.inr (Or.inr (Or.inl h))

theorem not_namePart_of_isBlank {c : Char} (h : Text.isBlank c = true) : ¬ NamePart c := by
  rintro (hc | hc | rfl | rfl)
  · rw [Text.isAlphabetic_of_isBlank h] at hc
    cases hc
  · rw [Text.isNumeric_of_isBlank h] at hc
    cases hc
  · revert h
    decide
  · revert h
    decide

theorem isBlank_of_namePart {c : Char} (h : NamePart c) : Text.isBlank c = false := by
  rw [Bool.eq_false_iff]
  exact fun hb => not_namePart_of_isBlank hb h

theorem isNamePart_iff {c : Char} : Cursor.isNamePart c = true ↔ NamePart c := by
  simp only [Cursor.isNamePart, NamePart, Bool.or_eq_true, decide_eq_true_eq, or_assoc]

theorem visible_of_isNamePart {c : Char} (h : Cursor.isNamePart c = true) : Text.Visible c := by
  refine ⟨isBlank_of_namePart (isNamePart_iff.mp h), ?_⟩
  rintro rfl
  revert h
  decide

theorem isNameStart_iff {c : Char} : Cursor.isNameStart c = true ↔ NameStart c := by
  simp only [Cursor.isNameStart, NameStart, Bool.or_eq_true, decide_eq_true_eq]

theorem identifier_iff (name : String) :
    Identifier name ↔ name.toList.head?.any Cursor.isNameStart = true ∧
      name.toList.all Cursor.isNamePart = true := by
  simp only [List.all_eq_true, isNamePart_iff]
  constructor
  · rintro ⟨⟨c, cs, hname, hc⟩, hparts⟩
    refine ⟨?_, hparts⟩
    rw [hname]
    exact isNameStart_iff.mpr hc
  · rintro ⟨hstart, hparts⟩
    refine ⟨?_, hparts⟩
    cases hname : name.toList with
    | nil =>
      rw [hname] at hstart
      cases hstart
    | cons c cs =>
      rw [hname] at hstart
      exact ⟨c, cs, rfl, isNameStart_iff.mp hstart⟩

instance (name : String) : Decidable (Identifier name) :=
  decidable_of_iff (name.toList.head?.any Cursor.isNameStart = true ∧
    name.toList.all Cursor.isNamePart = true) (identifier_iff name).symm

theorem toNat_lt_of_isAlphanum {c : Char} (h : c.isAlphanum = true) : c.toNat < 128 := by
  unfold Char.isAlphanum Char.isAlpha Char.isUpper Char.isLower Char.isDigit at h
  simp only [Bool.or_eq_true, Bool.and_eq_true, decide_eq_true_eq, UInt32.le_iff_toNat_le,
    ge_iff_le] at h
  have hc : c.toNat = c.val.toNat := rfl
  have hZ : 'Z'.val.toNat = 90 := rfl
  have hz : 'z'.val.toNat = 122 := rfl
  have h9 : '9'.val.toNat = 57 := rfl
  omega

theorem namePart_of_isAlphanum {c : Char} (h : c.isAlphanum = true) : NamePart c := by
  rw [← isNamePart_iff]
  exact forall_ascii (P := fun c => c.isAlphanum = true → Cursor.isNamePart c = true)
    (by decide +kernel) (toNat_lt_of_isAlphanum h) h

theorem visible_of_isAlphanum {c : Char} (h : c.isAlphanum = true) : Text.Visible c :=
  visible_of_isNamePart (isNamePart_iff.mpr (namePart_of_isAlphanum h))

theorem namePart_of_isDigit {c : Char} (h : c.isDigit = true) : NamePart c := by
  apply namePart_of_isAlphanum
  rw [Char.isAlphanum, h, Bool.or_true]

theorem NameStart.isDigit {c : Char} (h : NameStart c) : c.isDigit = false := by
  rw [Bool.eq_false_iff]
  intro hd
  have halnum : c.isAlphanum = true := by rw [Char.isAlphanum, hd, Bool.or_true]
  have hstart := forall_ascii (P := fun c => c.isDigit = true → Cursor.isNameStart c = false)
    (by decide +kernel) (toNat_lt_of_isAlphanum halnum) hd
  rw [isNameStart_iff.mpr h] at hstart
  cases hstart

theorem Digit.toNat_lt {radix d : Nat} {c : Char} (hr : radix ≤ 16) (h : Digit radix c d) :
    c.toNat < 128 := by
  obtain ⟨hd, hc⟩ := h
  have hdigit : (Nat.digitChar d).toNat < 128 := by
    have hall : ∀ d < 16, (Nat.digitChar d).toNat < 128 := by decide
    exact hall d (Nat.lt_of_lt_of_le hd hr)
  rw [← hc] at hdigit
  unfold Char.toLower at hdigit
  split at hdigit
  next hupper =>
    have hZ := hupper.2
    rw [UInt32.le_iff_toNat_le] at hZ
    have hn : c.toNat = c.val.toNat := rfl
    have h90 : 'Z'.val.toNat = 90 := rfl
    omega
  next => exact hdigit

theorem digit?_toNat_lt {radix d : Nat} {c : Char} (h : Text.digit? radix c = some d) :
    c.toNat < 128 := by
  simp only [Text.digit?, Option.ite_none_right_eq_some] at h
  by_contra hc
  have hge : ∀ x : Char, x.toNat < 128 → ¬ c ≤ x := by
    intro x hx hle
    have := UInt32.le_iff_toNat_le.mp hle
    have hn : c.toNat = c.val.toNat := rfl
    have hm : x.toNat = x.val.toNat := rfl
    omega
  have h9 := hge '9' (by decide)
  have hz := hge 'z' (by decide)
  have hZ := hge 'Z' (by decide)
  simp only [h9, hz, hZ, and_false, if_false] at h
  omega

theorem digit?_eq_some_iff {radix d : Nat} {c : Char} (hr : radix = 10 ∨ radix = 16) :
    Text.digit? radix c = some d ↔ Digit radix c d := by
  have hcheck : ∀ r ∈ [10, 16], ∀ n < 128, ∀ d < r,
      (Text.digit? r (Char.ofNat n) = some d ↔ (Char.ofNat n).toLower = Nat.digitChar d) := by
    decide +kernel
  have hmem : radix ∈ [10, 16] := by simpa using hr
  constructor
  · intro h
    have hd : d < radix := Text.digit?_lt h
    refine ⟨hd, ?_⟩
    have hn := hcheck radix hmem c.toNat (digit?_toNat_lt h) d hd
    rw [Char.ofNat_toNat] at hn
    exact hn.mp h
  · intro h
    have hn := hcheck radix hmem c.toNat (h.toNat_lt (by omega)) d h.1
    rw [Char.ofNat_toNat] at hn
    exact hn.mpr h.2

theorem readDigits_concat (radix acc : Nat) (cs : List Char) (c : Char) :
    Text.readDigits radix acc (cs ++ [c]) =
      (Text.readDigits radix acc cs >>= fun n => Text.readDigits radix n [c]) := by
  induction cs generalizing acc with
  | nil => rfl
  | cons x rest ih =>
    simp only [List.cons_append, Text.readDigits]
    cases Text.digit? radix x with
    | none => rfl
    | some d =>
      simp only [ih]
      split <;> rfl

theorem readDigits_singleton {radix n m : Nat} {c : Char} :
    Text.readDigits radix n [c] = .ok m ↔
      ∃ d, Text.digit? radix c = some d ∧ n * radix + d < UInt64.size ∧ n * radix + d = m := by
  simp only [Text.readDigits]
  cases Text.digit? radix c with
  | none => simp
  | some d => by_cases h : n * radix + d < UInt64.size <;> simp [h]

theorem Digits.ne_nil {radix n : Nat} {cs : List Char} (h : Digits radix cs n) : cs ≠ [] := by
  cases h <;> simp

theorem Digits.digit_of_mem {radix n : Nat} {cs : List Char} (h : Digits radix cs n) {c : Char}
    (hc : c ∈ cs) : ∃ d, Digit radix c d := by
  induction h with
  | one hd =>
    rw [List.mem_singleton] at hc
    exact ⟨_, hc ▸ hd⟩
  | more _ hd ih =>
    rcases List.mem_append.mp hc with hc | hc
    · exact ih hc
    · rw [List.mem_singleton] at hc
      exact ⟨_, hc ▸ hd⟩

theorem Digits.readDigits_eq {radix n : Nat} {cs : List Char} (hr : radix = 10 ∨ radix = 16)
    (h : Digits radix cs n) (hn : n < UInt64.size) : Text.readDigits radix 0 cs = .ok n := by
  induction h with
  | one hd =>
    apply readDigits_singleton.mpr
    exact ⟨_, (digit?_eq_some_iff hr).mpr hd, by omega, by omega⟩
  | @more cs n c d _ hd ih =>
    have hle : n ≤ n * radix := Nat.le_mul_of_pos_right n (by omega)
    rw [readDigits_concat, ih (by omega)]
    apply readDigits_singleton.mpr
    exact ⟨d, (digit?_eq_some_iff hr).mpr hd, hn, rfl⟩

theorem digits_of_readDigits {radix n : Nat} {cs : List Char} (hr : radix = 10 ∨ radix = 16)
    (hcs : cs ≠ []) (h : Text.readDigits radix 0 cs = .ok n) : Digits radix cs n := by
  induction cs using List.reverseRecOn generalizing n with
  | nil => exact absurd rfl hcs
  | append_singleton cs c ih =>
    rw [readDigits_concat] at h
    cases hread : Text.readDigits radix 0 cs with
    | error e =>
      rw [hread] at h
      cases h
    | ok k =>
      rw [hread] at h
      obtain ⟨d, hd, _, rfl⟩ := readDigits_singleton.mp h
      have hdigit : Digit radix c d := (digit?_eq_some_iff hr).mp hd
      by_cases hnil : cs = []
      · subst hnil
        obtain rfl : 0 = k := Except.ok.inj hread
        rw [Nat.zero_mul, Nat.zero_add]
        exact .one hdigit
      · exact .more (ih hnil hread) hdigit

theorem readNat_eq_ok_iff {radix n : Nat} {cs : List Char} (hr : radix = 10 ∨ radix = 16) :
    Text.readNat radix cs = .ok n ↔ Digits radix cs n ∧ n < UInt64.size := by
  cases cs with
  | nil =>
    constructor
    · intro h
      cases h
    · exact fun h => absurd rfl h.1.ne_nil
  | cons c rest =>
    constructor
    · intro h
      exact ⟨digits_of_readDigits hr (List.cons_ne_nil c rest) h,
        Text.readDigits_lt (by decide) h⟩
    · exact fun h => h.1.readDigits_eq hr h.2

theorem readNat_word_iff {radix : Nat} {cs : List Char} {w : UInt64}
    (hr : radix = 10 ∨ radix = 16) :
    (Text.readNat radix cs).map UInt64.ofNat = .ok w ↔ Digits radix cs w.toNat := by
  have hw : w.toNat < UInt64.size := w.toNat_lt
  constructor
  · intro h
    cases hread : Text.readNat radix cs with
    | error e =>
      rw [hread] at h
      cases h
    | ok n =>
      rw [hread] at h
      obtain ⟨hdigits, hn⟩ := (readNat_eq_ok_iff hr).mp hread
      obtain rfl : UInt64.ofNat n = w := Except.ok.inj h
      have hvalue : (UInt64.ofNat n).toNat = n := by
        rw [UInt64.toNat_ofNat']
        exact Nat.mod_eq_of_lt hn
      rwa [hvalue]
  · intro h
    rw [(readNat_eq_ok_iff hr).mpr ⟨h, hw⟩]
    simp [Except.map]

/-- The reader of number tokens accepts the numerals of the grammar. -/
theorem readWord_eq_ok_iff {token : List Char} {w : UInt64} :
    Text.readWord token = .ok w ↔ Numeral token w := by
  have hdecimal : ∀ x cs n, x = 'x' ∨ x = 'X' → ¬ Digits 10 ('0' :: x :: cs) n := by
    intro x cs n hx h
    obtain ⟨d, hd, hlow⟩ := h.digit_of_mem (c := x) (by simp)
    have hnone : ∀ d < 10, 'x'.toLower ≠ Nat.digitChar d ∧ 'X'.toLower ≠ Nat.digitChar d := by
      decide
    rcases hx with rfl | rfl
    · exact (hnone d hd).1 hlow
    · exact (hnone d hd).2 hlow
  have hhex : ∀ x cs, x = 'x' ∨ x = 'X' → (Numeral ('0' :: x :: cs) w ↔ Digits 16 cs w.toNat) := by
    intro x cs hx
    constructor
    · intro h
      cases h with
      | decimal h => exact absurd h (hdecimal x cs _ hx)
      | hexadecimal _ h => exact h
    · exact .hexadecimal hx
  unfold Text.readWord
  split
  next digits => rw [readNat_word_iff (Or.inr rfl), hhex _ _ (Or.inl rfl)]
  next digits => rw [readNat_word_iff (Or.inr rfl), hhex _ _ (Or.inr rfl)]
  next hx hX =>
    rw [readNat_word_iff (Or.inl rfl)]
    constructor
    · exact .decimal
    · intro h
      cases h with
      | decimal h => exact h
      | hexadecimal hx' _ =>
        rcases hx' with rfl | rfl
        · exact absurd rfl (hx _)
        · exact absurd rfl (hX _)

theorem Digit.isAlphanum {radix d : Nat} {c : Char} (hr : radix ≤ 16) (h : Digit radix c d) :
    c.isAlphanum = true := by
  have hcheck : ∀ n < 128, ∀ d < 16, (Char.ofNat n).toLower = Nat.digitChar d →
      (Char.ofNat n).isAlphanum = true := by decide +kernel
  have hn := hcheck c.toNat (h.toNat_lt hr) d (Nat.lt_of_lt_of_le h.1 hr)
  rw [Char.ofNat_toNat] at hn
  exact hn h.2

theorem Digit.isDigit {d : Nat} {c : Char} (h : Digit 10 c d) : c.isDigit = true := by
  have hcheck : ∀ n < 128, ∀ d < 10, (Char.ofNat n).toLower = Nat.digitChar d →
      (Char.ofNat n).isDigit = true := by decide +kernel
  have hn := hcheck c.toNat (h.toNat_lt (by decide)) d h.1
  rw [Char.ofNat_toNat] at hn
  exact hn h.2

theorem Numeral.isAlphanum {token : List Char} {w : UInt64} (h : Numeral token w) {c : Char}
    (hc : c ∈ token) : c.isAlphanum = true := by
  cases h with
  | decimal h =>
    obtain ⟨d, hd⟩ := h.digit_of_mem hc
    exact hd.isAlphanum (by decide)
  | hexadecimal hx h =>
    rcases List.mem_cons.mp hc with rfl | hc
    · decide
    · rcases List.mem_cons.mp hc with rfl | hc
      · rcases hx with rfl | rfl <;> decide
      · obtain ⟨d, hd⟩ := h.digit_of_mem hc
        exact hd.isAlphanum (Nat.le_refl 16)

theorem Numeral.starts {token : List Char} {w : UInt64} (h : Numeral token w) :
    ∃ c cs, token = c :: cs ∧ c.isDigit = true := by
  cases h with
  | decimal h =>
    obtain ⟨c, cs, rfl⟩ := List.exists_cons_of_ne_nil h.ne_nil
    obtain ⟨d, hd⟩ := h.digit_of_mem List.mem_cons_self
    exact ⟨c, cs, rfl, hd.isDigit⟩
  | hexadecimal _ _ => exact ⟨'0', _, rfl, by decide⟩

end Grammar
end DefUse
