import DefUse.Proofs.Program.Parsing

namespace DefUse
open Grammar

def Operand.WellFormed : Operand → Prop
  | .varnode space _ size => Identifier space ∧ 1 ≤ size ∧ size ≤ 0x10000
  | .name n => Identifier n
  | .address _ => True
  | .userop n => Identifier n

instance : DecidablePred Operand.WellFormed
  | .varnode space _ size =>
    inferInstanceAs (Decidable (Identifier space ∧ 1 ≤ size ∧ size ≤ 0x10000))
  | .name n => inferInstanceAs (Decidable (Identifier n))
  | .address _ => inferInstanceAs (Decidable True)
  | .userop n => inferInstanceAs (Decidable (Identifier n))

@[mk_iff]
structure Record.WellFormed (r : Record) : Prop where
  output : ∀ o ∈ r.output, o.WellFormed
  opcode : Identifier r.opcode
  operands : ∀ o ∈ r.operands, o.WellFormed

@[mk_iff]
structure CodeUnit.WellFormed (u : CodeUnit) : Prop where
  name : Identifier u.name
  records : ∀ r ∈ u.records, r.WellFormed

@[mk_iff]
structure Program.WellFormed (p : Program) : Prop where
  units : ∀ u ∈ p.units, u.WellFormed
  distinct : (p.units.map (·.name)).Nodup

instance : DecidablePred Record.WellFormed :=
  fun _ => decidable_of_iff _ (Record.wellFormed_iff _).symm

instance : DecidablePred CodeUnit.WellFormed :=
  fun _ => decidable_of_iff _ (CodeUnit.wellFormed_iff _).symm

instance : DecidablePred Program.WellFormed :=
  fun _ => decidable_of_iff _ (Program.wellFormed_iff _).symm

theorem CodeUnit.text_unlined (u : CodeUnit) : u.unlined.text = u.text := by
  simp only [text, unlined, List.map_map]
  rfl

theorem Record.wellFormed_unlined (r : Record) : r.unlined.WellFormed ↔ r.WellFormed := by
  simp only [wellFormed_iff, unlined]

theorem CodeUnit.wellFormed_unlined (u : CodeUnit) : u.unlined.WellFormed ↔ u.WellFormed := by
  simp only [wellFormed_iff, unlined, List.forall_mem_map, Record.wellFormed_unlined]

namespace Program

theorem text_unlined (p : Program) : p.unlined.text = p.text := by
  simp only [text, unlined, List.map_map]
  congr 2
  funext u
  exact u.text_unlined

theorem text_eq_of_unlined {p q : Program} (h : q.unlined = p.unlined) : q.text = p.text := by
  rw [← q.text_unlined, h, p.text_unlined]

theorem names_unlined (p : Program) : p.unlined.units.map (·.name) = p.units.map (·.name) := by
  rw [unlined, List.map_map]
  rfl

theorem wellFormed_unlined (p : Program) : p.unlined.WellFormed ↔ p.WellFormed := by
  simp only [wellFormed_iff, names_unlined]
  simp only [unlined, List.forall_mem_map, CodeUnit.wellFormed_unlined]

end Program

namespace Grammar
variable {s rest : List Char}

theorem OperandAt.wellFormed {o : Operand} (h : OperandAt s o rest) : o.WellFormed := by
  cases h with
  | userop _ hname => exact hname.identifier
  | address _ => trivial
  | name hname => exact hname.identifier
  | varnode hname _ _ _ _ _ _ hmin hmax => exact ⟨hname.identifier, hmin, hmax⟩

theorem OperandsAt.wellFormed {os : List Operand} (h : OperandsAt s os rest) :
    ∀ o ∈ os, o.WellFormed := by
  induction h with
  | last hat => simpa using hat.wellFormed
  | more hat _ _ _ ih => simpa using ⟨hat.wellFormed, ih⟩

theorem HeadAt.wellFormed {output : Option Operand} {opcode : String}
    (h : HeadAt s output opcode rest) :
    (∀ o ∈ output, o.WellFormed) ∧ Identifier opcode := by
  cases h with
  | bare hname _ => exact ⟨by simp, hname.identifier⟩
  | assigning hat _ _ hname => exact ⟨by simpa using hat.wellFormed, hname.identifier⟩

theorem RecordAt.wellFormed {r : Record} (h : RecordAt s r rest) : r.WellFormed := by
  cases h with
  | plain hat _ => exact ⟨hat.wellFormed.1, hat.wellFormed.2, by simp⟩
  | applied hat _ hats _ => exact ⟨hat.wellFormed.1, hat.wellFormed.2, hats.wellFormed⟩

theorem RecordsAt.wellFormed {rs : List Record} (h : RecordsAt s rs rest) :
    ∀ r ∈ rs, r.WellFormed := by
  induction h with
  | close _ => simp
  | more _ hat _ ih => simpa using ⟨hat.wellFormed, ih⟩

theorem UnitsAt.wellFormed {us : List CodeUnit} (h : UnitsAt s us) : ∀ u ∈ us, u.WellFormed := by
  induction h with
  | done _ => simp
  | more _ hat _ ih =>
    cases hat with
    | unit _ _ hname _ hrs => simpa using ⟨⟨hname.identifier, hrs.wellFormed⟩, ih⟩

theorem digit_digitChar {radix d : Nat} (hr : radix ≤ 16) (hd : d < radix) :
    Digit radix (Nat.digitChar d) d := by
  have hcheck : ∀ d < 16, (Nat.digitChar d).toLower = Nat.digitChar d := by decide
  exact ⟨hd, hcheck d (by omega)⟩

theorem digits_toDigits (radix : Nat) (hr : 1 < radix) (hr' : radix ≤ 16) (n : Nat) :
    Digits radix (Nat.toDigits radix n) n := by
  induction n using Nat.strongRecOn with
  | ind n ih =>
    rw [Nat.toDigits_eq_if hr]
    split
    next hn => exact .one (digit_digitChar hr' hn)
    next hn =>
      have hrest := ih (n / radix) (Nat.div_lt_self (by omega) hr)
      have hlast := Digits.more hrest (digit_digitChar hr' (Nat.mod_lt n (by omega)))
      rwa [Nat.div_add_mod'] at hlast

theorem numeral_hex (w : UInt64) : Numeral (Text.hex w.toNat).toList w := by
  have htext : (Text.hex w.toNat).toList = '0' :: 'x' :: Nat.toDigits 16 w.toNat := by
    simp [Text.hex]
  rw [htext]
  exact .hexadecimal (Or.inl rfl) (digits_toDigits 16 (by decide) (by decide) w.toNat)

theorem numeral_toString (w : UInt64) : Numeral (toString w.toNat).toList w := by
  have htext : (toString w.toNat).toList = Nat.toDigits 10 w.toNat := Nat.toList_repr
  rw [htext]
  exact .decimal (digits_toDigits 10 (by decide) (by decide) w.toNat)

theorem not_namePart_head {x : Char} (hx : Cursor.isNamePart x = false) :
    ∀ c ∈ (x :: rest).head?, ¬ NamePart c := by
  rintro c ⟨⟩
  rw [← isNamePart_iff, hx]
  decide

/-- The size of a varnode is a word. -/
theorem exists_toNat_eq {size : Nat} (h : size ≤ 0x10000) : ∃ w : UInt64, size = w.toNat := by
  refine ⟨UInt64.ofNat size, ?_⟩
  rw [UInt64.toNat_ofNat']
  omega

theorem operandAt_text {o : Operand} (h : o.WellFormed) (hrest : ∀ c ∈ rest.head?, ¬ NamePart c) :
    OperandAt (o.text.toList ++ rest) o rest := by
  have hstop {x : Char} {r : List Char} (hx : x.isAlphanum = false) :
      ∀ c ∈ (x :: r).head?, c.isAlphanum = false := by
    rintro c ⟨⟩
    exact hx
  cases o with
  | varnode space offset size =>
    obtain ⟨hname, hmin, hmax⟩ := h
    obtain ⟨w, rfl⟩ := exists_toNat_eq hmax
    have htext : (Operand.varnode space offset w.toNat).text.toList ++ rest =
        space.toList ++ '[' :: ((Text.hex offset.toNat).toList ++
          ':' :: ((toString w.toNat).toList ++ ']' :: rest)) := by
      simp [Operand.text]
    rw [htext]
    exact .varnode ⟨rfl, hname, not_namePart_head (by decide)⟩
      .here ⟨⟨_, rfl, numeral_hex offset⟩, hstop (by decide)⟩ .here
      .here ⟨⟨_, rfl, numeral_toString w⟩, hstop (by decide)⟩ .here hmin hmax
  | name n => exact .name ⟨rfl, h, hrest⟩
  | address w =>
    refine .address ⟨⟨_, rfl, numeral_hex w⟩, fun c hc => ?_⟩
    rw [Bool.eq_false_iff]
    exact fun halnum => hrest c hc (namePart_of_isAlphanum halnum)
  | userop n =>
    have htext : (Operand.userop n).text.toList ++ rest = '@' :: (n.toList ++ rest) := by
      simp [Operand.text]
    rw [htext]
    exact .userop .here ⟨rfl, h, hrest⟩

theorem operandsAt_text {os : List Operand} (hos : os ≠ []) (h : ∀ o ∈ os, o.WellFormed) :
    OperandsAt ((", ".intercalate (os.map Operand.text)).toList ++ '\n' :: rest) os
      ('\n' :: rest) := by
  induction os with
  | nil => exact absurd rfl hos
  | cons o os ih =>
    have ho := h o List.mem_cons_self
    have htail := fun o ho => h o (List.mem_cons_of_mem _ ho)
    cases os with
    | nil =>
      rw [List.map_singleton, String.intercalate_singleton]
      exact .last (operandAt_text ho (not_namePart_head (by decide)))
    | cons o' os =>
      have htext : (", ".intercalate ((o :: o' :: os).map Operand.text)).toList ++ '\n' :: rest =
          o.text.toList ++ ',' :: ' ' ::
            ((", ".intercalate ((o' :: os).map Operand.text)).toList ++ '\n' :: rest) := by
        simp [String.intercalate_cons_cons]
      rw [htext]
      exact .more (operandAt_text ho (not_namePart_head (by decide))) .here
        (.skip (by decide) .here) (ih (List.cons_ne_nil _ _) htail)

/-- The text of a record in front of its operands. -/
def headText (output : Option Operand) (opcode : String) : List Char :=
  match output with
  | some o => o.text.toList ++ ' ' :: '=' :: ' ' :: opcode.toList
  | none => opcode.toList

theorem toList_recordText (r : Record) :
    r.text.toList = headText r.output r.opcode ++
      if r.operands = [] then [] else
        ' ' :: (", ".intercalate (r.operands.map Operand.text)).toList := by
  obtain ⟨line, output, opcode, operands⟩ := r
  cases output <;> cases operands <;> simp [Record.text, headText]

theorem headAt_text {output : Option Operand} {opcode : String}
    (houtput : ∀ o ∈ output, o.WellFormed) (hopcode : Identifier opcode)
    (hrest : ∀ c ∈ rest.head?, ¬ NamePart c) (hbracket : rest.head? ≠ some '[') :
    HeadAt (headText output opcode ++ rest) output opcode rest := by
  cases output with
  | none => exact .bare ⟨rfl, hopcode, hrest⟩ hbracket
  | some o =>
    have htext : headText (some o) opcode ++ rest =
        o.text.toList ++ ' ' :: '=' :: ' ' :: (opcode.toList ++ rest) := by
      simp [headText]
    rw [htext]
    exact .assigning (operandAt_text (houtput o rfl) (not_namePart_head (by decide)))
      (.skip (by decide) .here) (.skip (by decide) .here) ⟨rfl, hopcode, hrest⟩

theorem recordAt_text {r : Record} (h : r.WellFormed) :
    RecordAt (r.text.toList ++ '\n' :: rest) r.unlined rest := by
  rw [toList_recordText, List.append_assoc]
  obtain ⟨line, output, opcode, operands⟩ := r
  by_cases hnil : operands = []
  · subst hnil
    exact .plain (headAt_text h.output h.opcode (not_namePart_head (by decide)) (by simp)) .here
  · rw [if_neg hnil]
    exact .applied (headAt_text h.output h.opcode (not_namePart_head (by decide)) (by simp))
      (.skip (by decide) .here) (operandsAt_text hnil h.operands) .here

theorem RecordsAt.indent {b : Char} {rs : List Record} (hb : Text.isBlank b = true)
    (h : RecordsAt s rs rest) : RecordsAt (b :: s) rs rest := by
  cases h with
  | close hgap => exact .close (.skip hb hgap)
  | more hgap hat hats => exact .more (.skip hb hgap) hat hats

/-- The text of the records of a unit, a line for each. -/
def recordLines : List Record → List Char
  | [] => []
  | r :: rs => ' ' :: ' ' :: (r.text.toList ++ '\n' :: recordLines rs)

theorem toList_recordLines (rs : List Record) :
    (String.join (rs.map fun r => "  " ++ r.text ++ "\n")).toList = recordLines rs := by
  induction rs with
  | nil => rfl
  | cons r rs ih =>
    rw [List.map_cons, String.join_cons, String.toList_append, ih]
    simp [recordLines]

theorem toList_unitText (u : CodeUnit) :
    u.text.toList = 'u' :: 'n' :: 'i' :: 't' :: ' ' :: (u.name.toList ++
      ' ' :: '\x7b' :: '\n' :: (recordLines u.records ++ ['\x7d', '\n'])) := by
  rw [← toList_recordLines]
  simp [CodeUnit.text]

theorem recordsAt_text {rs : List Record} (h : ∀ r ∈ rs, r.WellFormed) :
    RecordsAt (recordLines rs ++ '\x7d' :: rest) (rs.map Record.unlined) rest := by
  induction rs with
  | nil => exact .close .here
  | cons r rs ih =>
    have hat := h r List.mem_cons_self
    have hats := ih fun r hr => h r (List.mem_cons_of_mem _ hr)
    simp only [recordLines, List.cons_append, List.append_assoc]
    exact .more (.skip (by decide) (.skip (by decide) .here)) (recordAt_text hat) hats

theorem unitAt_text {u : CodeUnit} (h : u.WellFormed) :
    UnitAt (u.text.toList ++ rest) u.unlined ('\n' :: rest) := by
  simp only [toList_unitText, List.cons_append, List.append_assoc, List.nil_append]
  exact .unit (by decide) .here ⟨rfl, h.name, not_namePart_head (by decide)⟩
    (.skip (by decide) .here) ((recordsAt_text h.records).indent Text.isBlank_newline)

theorem UnitsAt.indent {b : Char} {us : List CodeUnit} (hb : Text.isBlank b = true)
    (h : UnitsAt s us) : UnitsAt (b :: s) us := by
  cases h with
  | done hgap => exact .done (.skip hb hgap)
  | more hgap hat hats => exact .more (.skip hb hgap) hat hats

theorem unitsAt_text {us : List CodeUnit} (h : ∀ u ∈ us, u.WellFormed) :
    UnitsAt (String.join (us.map CodeUnit.text)).toList (us.map CodeUnit.unlined) := by
  induction us with
  | nil => exact .done .here
  | cons u us ih =>
    have hats := ih fun u hu => h u (List.mem_cons_of_mem _ hu)
    rw [List.map_cons, String.join_cons, String.toList_append]
    exact .more .here (unitAt_text (h u List.mem_cons_self)) (hats.indent Text.isBlank_newline)

theorem Identifier.semicolon_notMem {name : String} (h : Identifier name) :
    ';' ∉ name.toList := by
  intro hmem
  exact absurd (isNamePart_iff.mpr (h.parts ';' hmem)) (by decide)

theorem Numeral.semicolon_notMem {token : List Char} {w : UInt64} (h : Numeral token w) :
    ';' ∉ token := by
  intro hmem
  exact absurd (h.isAlphanum hmem) (by decide)

end Grammar

theorem Operand.semicolon_notMem_text {o : Operand} (h : o.WellFormed) : ';' ∉ o.text.toList := by
  cases o with
  | varnode space offset size =>
    obtain ⟨hname, hmin, hmax⟩ := h
    obtain ⟨w, rfl⟩ := exists_toNat_eq hmax
    have hspace := hname.semicolon_notMem
    have hoffset := (numeral_hex offset).semicolon_notMem
    have hsize := (numeral_toString w).semicolon_notMem
    simp only [text, String.toList_append, List.mem_append, hspace, hoffset, hsize]
    decide
  | name n => exact h.semicolon_notMem
  | address w => exact (numeral_hex w).semicolon_notMem
  | userop n => simp [text, h.semicolon_notMem]

theorem Operand.semicolon_notMem_texts {os : List Operand} (h : ∀ o ∈ os, o.WellFormed) :
    ';' ∉ (", ".intercalate (os.map text)).toList := by
  induction os with
  | nil => decide
  | cons o os ih =>
    have ho := semicolon_notMem_text (h o List.mem_cons_self)
    have hos := ih fun o ho => h o (List.mem_cons_of_mem _ ho)
    cases os with
    | nil => simpa using ho
    | cons o' os =>
      simp only [List.map_cons, String.intercalate_cons_cons, String.toList_append,
        List.mem_append, ho, false_or, not_or]
      exact ⟨by decide, hos⟩

theorem Record.semicolon_notMem_text {r : Record} (h : r.WellFormed) : ';' ∉ r.text.toList := by
  rw [toList_recordText, List.mem_append, not_or]
  constructor
  · have hopcode := h.opcode.semicolon_notMem
    cases hr : r.output with
    | none => exact hopcode
    | some o => simp [headText, hopcode, Operand.semicolon_notMem_text (h.output o hr)]
  · split
    · simp
    · simpa using Operand.semicolon_notMem_texts h.operands

theorem Record.semicolon_notMem_lines {rs : List Record} (h : ∀ r ∈ rs, r.WellFormed) :
    ';' ∉ recordLines rs := by
  induction rs with
  | nil => exact List.not_mem_nil
  | cons r rs ih =>
    have hr := semicolon_notMem_text (h r List.mem_cons_self)
    have hrs := ih fun r hr => h r (List.mem_cons_of_mem _ hr)
    simp [recordLines, hr, hrs]

theorem CodeUnit.semicolon_notMem_text {u : CodeUnit} (h : u.WellFormed) :
    ';' ∉ u.text.toList := by
  simp [toList_unitText, h.name.semicolon_notMem, Record.semicolon_notMem_lines h.records]

theorem Program.semicolon_notMem_text {p : Program} (h : p.WellFormed) : ';' ∉ p.text.toList := by
  simp only [text, String.toList_join, List.mem_flatMap, List.mem_map, not_exists, not_and]
  rintro _ ⟨u, hu, rfl⟩
  exact CodeUnit.semicolon_notMem_text (h.units u hu)

namespace Program

theorem wellFormed_of_parse {t : String} {p : Program} (h : parse t = .ok p) : p.WellFormed := by
  have hderives := derives_of_parse h
  exact p.wellFormed_unlined.mp ⟨hderives.units.wellFormed, hderives.distinct⟩

theorem parse_text {p : Program} (h : p.WellFormed) :
    ∃ q, parse p.text = .ok q ∧ q.unlined = p.unlined := by
  have hplain : plain false p.text.toList = p.text.toList := by
    simpa [plain] using plain_append (semicolon_notMem_text h) []
  apply parse_of_derives
  rw [hplain]
  refine ⟨unitsAt_text h.units, ?_⟩
  rw [names_unlined]
  exact h.distinct

/-- The text of a program is read back as the same program exactly when the program is well formed.
A program that comes from a text is well formed, and printing what is read from its own text gives
that text again. -/
theorem text_reads_back :
    (∀ p : Program, p.WellFormed ↔ ∃ q, parse p.text = .ok q ∧ q.unlined = p.unlined) ∧
    ∀ (t : String) (p : Program), parse t = .ok p →
      p.WellFormed ∧ ∃ q, parse p.text = .ok q ∧ q.unlined = p.unlined ∧ q.text = p.text := by
  constructor
  · intro p
    constructor
    · exact parse_text
    · rintro ⟨q, hq, hlines⟩
      rw [← wellFormed_unlined, ← hlines, wellFormed_unlined]
      exact wellFormed_of_parse hq
  · intro t p hp
    have hwell := wellFormed_of_parse hp
    obtain ⟨q, hq, hlines⟩ := parse_text hwell
    exact ⟨hwell, q, hq, hlines, text_eq_of_unlined hlines⟩

/-- Every form of an operand, with names and sizes at the edge of what is well formed. -/
def everyOperand : Program :=
  ⟨[⟨"_f.1", 3,
    [⟨4, some (.varnode "unit" 0xffffffffffffffff 0x10000), "CALLOTHER",
      [.userop "é", .address 0, .name "RAX", .varnode "const" 0 1]⟩,
    ⟨9, none, "RETURN", []⟩]⟩,
    ⟨"g", 1, []⟩]⟩

theorem everyOperand_reads_back :
    everyOperand.WellFormed ∧
      ∃ q, parse everyOperand.text = .ok q ∧ q.unlined = everyOperand.unlined ∧
        q.WellFormed ∧ ∃ r, parse q.text = .ok r ∧ r.unlined = q.unlined ∧ r.text = q.text := by
  have hwell : everyOperand.WellFormed := by decide +kernel
  obtain ⟨q, hq, hlines⟩ := (text_reads_back.1 everyOperand).mp hwell
  exact ⟨hwell, q, hq, hlines, text_reads_back.2 everyOperand.text q hq⟩

end Program
end DefUse
