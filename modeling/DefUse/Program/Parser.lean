import DefUse.Program.Cursor

namespace DefUse
namespace Cursor

/-- The largest size of a varnode in bytes. -/
def maxVarnodeSize : Nat := 0x10000

/-- The part of a varnode behind its opening bracket. -/
def varnode (space : String) (c : Cursor) : Except ParseError (Operand × Cursor) := do
  let (offset, c) ← c.number
  let c ← c.require ':'
  let (size, c) ← c.number
  let c ← c.require ']'
  if 0 < size.toNat ∧ size.toNat ≤ maxVarnodeSize then
    return (.varnode space offset size.toNat, c)
  else c.fail (.badVarnodeSize size.toNat)

/-- A bracket makes a varnode of a name only right behind it. -/
def operand (c : Cursor) : Except ParseError (Operand × Cursor) :=
  let c := c.skip false
  match c.found? with
  | some '@' => do
    let (name, c) ← identifier { c with rest := c.rest.tail }
    return (.userop name, c)
  | found =>
    if found.any Char.isDigit then do
      let (word, c) ← c.number
      return (.address word, c)
    else do
      let (name, c) ← c.identifier
      match c.rest with
      | '[' :: rest => varnode name { c with rest }
      | _ => return (.name name, c)

theorem length_of_varnode {space : String} {c d : Cursor} {o : Operand}
    (h : varnode space c = .ok (o, d)) : d.rest.length < c.rest.length := by
  unfold varnode at h
  match h1 : c.number with
  | .error e => simp [h1, bind, Except.bind] at h
  | .ok (offset, c1) =>
    match h2 : c1.require ':' with
    | .error e => simp [h1, h2, bind, Except.bind] at h
    | .ok c2 =>
      match h3 : c2.number with
      | .error e => simp [h1, h2, h3, bind, Except.bind] at h
      | .ok (size, c3) =>
        match h4 : c3.require ']' with
        | .error e => simp [h1, h2, h3, h4, bind, Except.bind] at h
        | .ok c4 =>
          have := length_of_number h1
          have := length_of_require h2
          have := length_of_number h3
          have := length_of_require h4
          simp only [h1, h2, h3, h4, bind, Except.bind, pure, Except.pure, fail] at h
          split at h
          · simp only [Except.ok.injEq, Prod.mk.injEq] at h
            rw [← h.2]
            omega
          · simp at h

theorem length_of_operand {c d : Cursor} {o : Operand} (h : operand c = .ok (o, d)) :
    d.rest.length < c.rest.length := by
  have hle := length_skip_le false c
  simp only [operand, bind, Except.bind, pure, Except.pure] at h
  split at h
  next hf =>
    obtain ⟨rest, hr⟩ := rest_of_found? hf
    split at h
    · simp at h
    next hi =>
      have hi := length_of_identifier hi
      simp only [Except.ok.injEq, Prod.mk.injEq] at h
      simp only [hr, List.tail_cons, List.length_cons, ← h.2] at hi hle ⊢
      omega
  · split at h
    · split at h
      · simp at h
      next hn =>
        have hn := length_of_number hn
        simp only [Except.ok.injEq, Prod.mk.injEq] at h
        simp only [← h.2]
        omega
    · split at h
      · simp at h
      next hi =>
        have hi := length_of_identifier hi
        split at h
        next hr =>
          have hv := length_of_varnode h
          simp only [hr, List.length_cons] at hi hv
          omega
        · simp only [Except.ok.injEq, Prod.mk.injEq] at h
          simp only [← h.2]
          omega

/-- Operands divided by commas, up to the end of the line. -/
def operands (c : Cursor) : Except ParseError (List Operand × Cursor) :=
  match _h : operand c with
  | .error e => .error e
  | .ok (first, next) =>
    if (next.skip false).found? = none then .ok ([first], next.skip false)
    else
      match _hc : require ',' next with
      | .error e => .error e
      | .ok next =>
        match operands next with
        | .error e => .error e
        | .ok (others, next) => .ok (first :: others, next)
termination_by c.rest.length
decreasing_by
  exact Nat.lt_trans (length_of_require _hc) (length_of_operand _h)

theorem operands_eq (c : Cursor) : operands c = do
    let (first, next) ← operand c
    if (next.skip false).found? = none then return ([first], next.skip false)
    else
      let next ← require ',' next
      let (others, next) ← operands next
      return (first :: others, next) := by
  rw [operands]
  split
  next e he => rw [he]; rfl
  next first next ho =>
    rw [ho]
    simp only [bind, Except.bind, pure, Except.pure]
    split
    · rfl
    · split
      next e he => rw [he]
      next d hd =>
        rw [hd]
        cases hrest : operands d <;> simp [hrest]

/-- The output, if there is one, and the opcode. -/
def recordHead (c : Cursor) : Except ParseError ((Option Operand × String) × Cursor) := do
  let (first, c) ← c.operand
  let c := c.skip false
  if c.found? = some '=' then
    let (opcode, c) ← identifier { c with rest := c.rest.tail }
    return ((some first, opcode), c)
  else
    match first with
    | .name opcode => return ((none, opcode), c)
    | _ => c.fail (.opcodeExpected first)

def record (c : Cursor) : Except ParseError (Record × Cursor) := do
  let line := c.line
  let ((output, opcode), c) ← c.recordHead
  let c := c.skip false
  if c.found? = none then return (⟨line, output, opcode, []⟩, c)
  else
    let (operands, c) ← c.operands
    return (⟨line, output, opcode, operands⟩, c)

theorem length_of_recordHead {c d : Cursor} {head : Option Operand × String}
    (h : recordHead c = .ok (head, d)) : d.rest.length < c.rest.length := by
  simp only [recordHead, bind, Except.bind, pure, Except.pure, fail] at h
  split at h
  · simp at h
  next r ho =>
    have ho := length_of_operand ho
    have hle := length_skip_le false r.2
    split at h
    next hf =>
      obtain ⟨rest, hr⟩ := rest_of_found? hf
      split at h
      · simp at h
      next hi =>
        have hi := length_of_identifier hi
        simp only [Except.ok.injEq, Prod.mk.injEq] at h
        simp only [hr, List.tail_cons, List.length_cons, ← h.2] at hi hle ⊢
        omega
    · split at h
      · simp only [Except.ok.injEq, Prod.mk.injEq] at h
        simp only [← h.2]
        omega
      · simp at h

theorem length_of_operands {c d : Cursor} {os : List Operand} (h : operands c = .ok (os, d)) :
    d.rest.length < c.rest.length := by
  fun_induction operands c generalizing os d with
  | case1 => simp at h
  | case2 c first next ho hf =>
    have ho := length_of_operand ho
    have hle := length_skip_le false next
    simp only [Except.ok.injEq, Prod.mk.injEq] at h
    simp only [← h.2]
    omega
  | case3 => simp at h
  | case4 => simp at h
  | case5 c first next ho hf next' hc others last hrest ih =>
    have ho := length_of_operand ho
    have hc := length_of_require hc
    have hr := ih hrest
    simp only [Except.ok.injEq, Prod.mk.injEq] at h
    simp only [← h.2]
    omega

theorem length_of_record {c d : Cursor} {r : Record} (h : record c = .ok (r, d)) :
    d.rest.length < c.rest.length := by
  simp only [record, bind, Except.bind, pure, Except.pure] at h
  split at h
  · simp at h
  next head hh =>
    have hh := length_of_recordHead hh
    have hle := length_skip_le false head.2
    split at h
    · simp only [Except.ok.injEq, Prod.mk.injEq] at h
      simp only [← h.2]
      omega
    · split at h
      · simp at h
      next hos =>
        have hos := length_of_operands hos
        simp only [Except.ok.injEq, Prod.mk.injEq] at h
        simp only [← h.2]
        omega

/-- The records of a unit and its closing brace. -/
def records (name : String) (c : Cursor) : Except ParseError (List Record × Cursor) :=
  match (c.skip true).rest with
  | [] => (c.skip true).fail (.unclosedUnit name)
  | ch :: rest =>
    if ch = '\x7d' then .ok ([], { c.skip true with rest })
    else
      match _h : record (c.skip true) with
      | .error e => .error e
      | .ok (first, next) =>
        match records name next with
        | .error e => .error e
        | .ok (others, next) => .ok (first :: others, next)
termination_by c.rest.length
decreasing_by
  exact Nat.lt_of_lt_of_le (length_of_record _h) (length_skip_le true c)

theorem records_eq (name : String) (c : Cursor) : records name c =
    match (c.skip true).rest with
    | [] => (c.skip true).fail (.unclosedUnit name)
    | ch :: rest =>
      if ch = '\x7d' then .ok ([], { c.skip true with rest })
      else do
        let (first, next) ← record (c.skip true)
        let (others, next) ← records name next
        return (first :: others, next) := by
  rw [records]
  split
  · rfl
  · simp only [bind, Except.bind, pure, Except.pure]
    split
    · rfl
    · split
      next e he => rw [he]
      next first next hf =>
        rw [hf]
        cases hrest : records name next <;> simp [hrest]

/-- A unit whose name is none of `taken`. -/
def codeUnit (taken : List String) (c : Cursor) : Except ParseError (CodeUnit × Cursor) := do
  let line := c.line
  let (keyword, c) ← c.identifier
  if keyword ≠ "unit" then c.fail (.unitExpected keyword)
  else
    let (name, c) ← c.identifier
    if name ∈ taken then c.fail (.duplicateUnit name)
    else
      let c ← c.require '\x7b'
      let (records, c) ← c.records name
      return (⟨name, line, records⟩, c)

theorem length_of_records {name : String} {c d : Cursor} {rs : List Record}
    (h : records name c = .ok (rs, d)) : d.rest.length < c.rest.length := by
  fun_induction records name c generalizing rs d with
  | case1 => simp [fail] at h
  | case2 c rest hr =>
    have hle := length_skip_le true c
    simp only [Except.ok.injEq, Prod.mk.injEq] at h
    simp only [← h.2, hr, List.length_cons] at hle ⊢
    omega
  | case3 => simp at h
  | case4 => simp at h
  | case5 c ch rest hr hb first next hf others last hrest ih =>
    have hle := length_skip_le true c
    have hf := length_of_record hf
    have hr := ih hrest
    simp only [Except.ok.injEq, Prod.mk.injEq] at h
    simp only [← h.2]
    omega

theorem length_of_codeUnit {taken : List String} {c d : Cursor} {u : CodeUnit}
    (h : codeUnit taken c = .ok (u, d)) : d.rest.length < c.rest.length := by
  simp only [codeUnit, bind, Except.bind, pure, Except.pure, fail] at h
  split at h
  · simp at h
  next hk =>
    have hk := length_of_identifier hk
    split at h
    · simp at h
    · split at h
      · simp at h
      next hn =>
        have hn := length_of_identifier hn
        split at h
        · simp at h
        · split at h
          · simp at h
          next hb =>
            have hb := length_of_require hb
            split at h
            · simp at h
            next hr =>
              have hr := length_of_records hr
              simp only [Except.ok.injEq, Prod.mk.injEq] at h
              simp only [← h.2]
              omega

/-- Units up to the end of the text. -/
def codeUnits (taken : List String) (c : Cursor) : Except ParseError (List CodeUnit) :=
  if (c.skip true).rest = [] then .ok []
  else
    match _h : codeUnit taken (c.skip true) with
    | .error e => .error e
    | .ok (first, next) =>
      match codeUnits (first.name :: taken) next with
      | .error e => .error e
      | .ok others => .ok (first :: others)
termination_by c.rest.length
decreasing_by
  exact Nat.lt_of_lt_of_le (length_of_codeUnit _h) (length_skip_le true c)

theorem codeUnits_eq (taken : List String) (c : Cursor) : codeUnits taken c =
    if (c.skip true).rest = [] then .ok []
    else do
      let (first, next) ← codeUnit taken (c.skip true)
      let others ← codeUnits (first.name :: taken) next
      return first :: others := by
  rw [codeUnits]
  split
  · rfl
  · simp only [bind, Except.bind, pure, Except.pure]
    split
    next e he => rw [he]
    next first next hf =>
      rw [hf]
      cases hrest : codeUnits (first.name :: taken) next <;> simp [hrest]

end Cursor

def Program.parse (text : String) : Except ParseError Program := do
  return ⟨← Cursor.codeUnits [] { rest := text.toList }⟩

end DefUse
