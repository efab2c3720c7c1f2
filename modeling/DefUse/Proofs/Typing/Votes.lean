import DefUse.Proofs.Graph.Consistent
import DefUse.Typing

namespace DefUse

theorem mapM_eq_ok {ε α β : Type} {f : α → Except ε β} {h : α → β} {xs : List α}
    (heq : ∀ x ∈ xs, f x = .ok (h x)) : xs.mapM f = .ok (xs.map h) := by
  induction xs with
  | nil => rfl
  | cons x rest ih =>
    have hrest := ih fun y hy => heq y (List.mem_cons_of_mem x hy)
    rw [List.mapM_cons, heq x List.mem_cons_self, hrest]
    rfl

theorem exists_mapM_eq_ok {ε α β : Type} {f : α → Except ε β} {xs : List α}
    (h : ∀ x ∈ xs, ∃ y, f x = .ok y) : ∃ ys, xs.mapM f = .ok ys := by
  induction xs with
  | nil => exact ⟨[], rfl⟩
  | cons x rest ih =>
    obtain ⟨y, hy⟩ := h x List.mem_cons_self
    obtain ⟨ys, hys⟩ := ih fun z hz => h z (List.mem_cons_of_mem x hz)
    refine ⟨y :: ys, ?_⟩
    rw [List.mapM_cons, hy, hys]
    rfl

theorem Behavior.isConcrete_iff {b : Behavior} : b.isConcrete = true ↔ b ≠ .any := by
  cases b <;> simp [isConcrete]

namespace Ballot

theorem foldl_cast (votes : List Behavior) (b : Ballot) :
    votes.foldl cast b = ⟨b.integer + votes.count .integer, b.float + votes.count .float⟩ := by
  induction votes generalizing b with
  | nil => rfl
  | cons vote rest ih =>
    rw [List.foldl_cons, ih]
    cases vote <;> simp [cast] <;> omega

theorem ofVotes_eq (votes : List Behavior) :
    ofVotes votes = ⟨votes.count .integer, votes.count .float⟩ := by
  rw [ofVotes, foldl_cast, Nat.zero_add, Nat.zero_add]

theorem winner_ne_any (b : Ballot) : b.winner ≠ some .any := by
  unfold winner
  split
  · simp
  · split <;> simp

/-- The category that wins the votes; `any` when nobody voted. -/
def verdict (votes : List Behavior) : Behavior :=
  (ofVotes votes).winner.getD .any

theorem verdict_eq (votes : List Behavior) :
    verdict votes =
      if votes.count .integer < votes.count .float then .float
      else if votes.count .integer = 0 then .any
      else .integer := by
  rw [verdict, ofVotes_eq, winner]
  split
  · rfl
  · split <;> rfl

theorem mem_of_verdict {votes : List Behavior} {b : Behavior} (h : verdict votes = b)
    (hb : b ≠ .any) : b ∈ votes := by
  rw [verdict_eq] at h
  split at h
  next hlt =>
    subst h
    exact List.count_pos_iff.mp (Nat.zero_lt_of_lt hlt)
  next =>
    split at h
    next => exact absurd h.symm hb
    next hne =>
      subst h
      exact List.count_pos_iff.mp (Nat.pos_of_ne_zero hne)

/-- A value is undecided only when nobody votes. -/
theorem verdict_ne_any_iff {votes : List Behavior} :
    verdict votes ≠ .any ↔ ∃ b ∈ votes, b ≠ .any := by
  constructor
  · exact fun h => ⟨_, mem_of_verdict rfl h, h⟩
  · rintro ⟨b, hb, hne⟩
    have hcount := List.count_pos_iff.mpr hb
    rw [verdict_eq]
    cases b with
    | any => exact absurd rfl hne
    | integer => split <;> simp; omega
    | float => split <;> simp; omega

section
variable {α : Type} {voters : List α} {s t : α → Behavior} {b : Behavior}

theorem count_map_le {c : Behavior} (h : ∀ a ∈ voters, s a = c → t a = c) :
    (voters.map s).count c ≤ (voters.map t).count c := by
  simp only [List.count, List.countP_map]
  refine List.countP_mono_left fun a ha => ?_
  simpa using h a ha

/-- A category that wins where it did not win before has a new voter, if the voters who had decided
still are. -/
theorem exists_turned (hgrow : ∀ a ∈ voters, s a ≠ .any → t a ≠ .any) (hb : b ≠ .any)
    (ht : verdict (voters.map t) = b) (hs : verdict (voters.map s) ≠ b) :
    ∃ a ∈ voters, t a = b ∧ s a ≠ b := by
  by_contra hnone
  have hkeep : ∀ a ∈ voters, t a = b → s a = b := fun a ha hta =>
    by_contra fun hsa => hnone ⟨a, ha, hta, hsa⟩
  have hfor : (voters.map t).count b ≤ (voters.map s).count b := count_map_le hkeep
  have hagainst (c : Behavior) (hc : c ≠ .any) (hne : c ≠ b) :
      (voters.map s).count c ≤ (voters.map t).count c := by
    refine count_map_le fun a ha hsa => ?_
    have hta := hgrow a ha (hsa ▸ hc)
    have htb : t a ≠ b := fun h => hne (hsa.symm.trans (hkeep a ha h))
    revert hta htb
    cases t a <;> cases b <;> cases c <;> simp_all
  rw [verdict_eq] at ht hs
  cases b with
  | any => exact hb rfl
  | integer =>
    have hfloat := hagainst .float (by decide) (by decide)
    grind
  | float =>
    have hinteger := hagainst .integer (by decide) (by decide)
    grind

end

end Ballot

/-- A voice in the vote on a value. -/
inductive Voter where
  /-- An operand position that asks a category, or `any`. -/
  | operand (asked : Behavior)
  /-- The value on the other side of a copy. -/
  | value (v : ValueId)

def Voter.vote (f : ValueId → Behavior) : Voter → Behavior
  | operand asked => asked
  | value v => f v

namespace Graph

/-- A linked copy makes `out` of `input`. -/
def Copies (g : Graph) (out input : ValueId) : Prop :=
  ∃ id, g.linked? id = some (.copy out input)

/-- One of the two values is a copy of the other. -/
def Joined (g : Graph) (u v : ValueId) : Prop :=
  g.Copies u v ∨ g.Copies v u

/-- Every linked call has a behavior for each of its arguments. -/
def CallsTyped (g : Graph) : Prop :=
  ∀ id userop out args types state,
    g.linked? id = some (.call userop out args types state) → types.length = args.length

theorem CallsTyped.length_inputTypes {g : Graph} (ht : g.CallsTyped) {id : OpId} {op : Operation}
    (hop : g.linked? id = some op) : op.inputTypes.length = op.inputs.length := by
  cases op with
  | call userop out args types state => exact ht id userop out args types state hop
  | _ => rfl

theorem op_of_linked? {g : Graph} {id : OpId} {op : Operation} (hop : g.linked? id = some op) :
    g.op id = .ok op := by
  simp only [Graph.op, linked?_eq_some_iff.mp hop]

/-- Every operand position of a linked operation has a behavior. -/
theorem CallsTyped.asked_eq {g : Graph} (ht : g.CallsTyped) {id : OpId} {op : Operation}
    (hop : g.linked? id = some op) {i : Nat} (hi : i < op.inputs.length) :
    g.asked id i = .ok ((op.inputAt? i).getD .any) := by
  rw [← ht.length_inputTypes hop] at hi
  simp [asked, op_of_linked? hop, bind, Except.bind, Operation.inputAt?, hi]

/-- The voice of a recorded use. -/
def voterOf (g : Graph) (u : Use) : Voter :=
  match g.linked? u.op with
  | some (.copy out _) => .value out
  | some op => .operand ((op.inputAt? u.position).getD .any)
  | none => .operand .any

/-- The voice that a value has in the vote on its copy. -/
def voterBehind (g : Graph) (x : Value) : List Voter :=
  match x.definer.bind g.linked? with
  | some (.copy _ input) => [.value input]
  | _ => []

def voters (g : Graph) (v : ValueId) : List Voter :=
  match g.value? v with
  | some x => x.uses.map g.voterOf ++ g.voterBehind x
  | none => []

/-- The category that wins the vote on a value, given what the values hold. -/
def elect (g : Graph) (f : ValueId → Behavior) (v : ValueId) : Behavior :=
  Ballot.verdict ((g.voters v).map (Voter.vote f))

section
variable {g : Graph} {v w : ValueId} {x : Value}

theorem voterOf_copy {u : Use} {out input : ValueId}
    (hop : g.linked? u.op = some (.copy out input)) : g.voterOf u = .value out := by
  simp only [voterOf, hop]

theorem voterOf_operand {u : Use} {op : Operation} (hop : g.linked? u.op = some op)
    (hcopy : op.isTransparent = false) :
    g.voterOf u = .operand ((op.inputAt? u.position).getD .any) := by
  cases op with
  | copy out input => cases hcopy
  | _ => simp only [voterOf, hop]

/-- A recorded use is either that of a copy, whose output votes, or asks for itself. -/
theorem Consistent.voterOf_cases (hc : g.Consistent) (hx : g.value? v = some x) {u : Use}
    (hu : u ∈ x.uses) :
    (∃ out, g.linked? u.op = some (.copy out v) ∧ g.voterOf u = .value out) ∨
      ∃ op, g.linked? u.op = some op ∧ op.isTransparent = false ∧ op.inputs[u.position]? = some v ∧
        g.voterOf u = .operand ((op.inputAt? u.position).getD .any) := by
  obtain ⟨op, hop, hin⟩ := (hc.mem_uses hx u).mp hu
  cases htrans : op.isTransparent with
  | false => exact Or.inr ⟨op, hop, htrans, hin, voterOf_operand hop htrans⟩
  | true =>
    cases op with
    | copy out input =>
      have hinput : v = input := List.mem_singleton.mp (List.mem_of_getElem? hin)
      subst hinput
      exact Or.inl ⟨out, hop, voterOf_copy hop⟩
    | _ => cases htrans

theorem Consistent.mem_voterBehind (hc : g.Consistent) (hx : g.value? v = some x) {a : Voter} :
    a ∈ g.voterBehind x ↔ ∃ w, a = .value w ∧ g.Copies v w := by
  unfold voterBehind
  constructor
  · intro ha
    split at ha
    next out w hdef =>
      obtain ⟨d, hd, hop⟩ := Option.bind_eq_some_iff.mp hdef
      obtain ⟨op, hop', hout⟩ := (hc.definer_iff hx d).mp hd
      rw [hop] at hop'
      cases hop'
      cases hout
      exact ⟨w, List.mem_singleton.mp ha, d, hop⟩
    next => cases ha
  · rintro ⟨w, rfl, d, hop⟩
    have hd := (hc.definer_iff hx d).mpr ⟨_, hop, rfl⟩
    simp [hd, hop]

theorem mem_voters (hx : g.value? v = some x) {a : Voter} :
    a ∈ g.voters v ↔ (∃ u ∈ x.uses, g.voterOf u = a) ∨ a ∈ g.voterBehind x := by
  simp only [voters, hx, List.mem_append, List.mem_map]

/-- The values that vote on a value are those a copy joins to it. -/
theorem Consistent.value_mem_voters (hc : g.Consistent) (hx : g.value? v = some x) :
    .value w ∈ g.voters v ↔ g.Joined w v := by
  rw [mem_voters hx, hc.mem_voterBehind hx]
  constructor
  · rintro (⟨u, hu, heq⟩ | ⟨w', heq, hcopy⟩)
    · rcases hc.voterOf_cases hx hu with ⟨out, hop, hvoter⟩ | ⟨op, _, _, _, hvoter⟩
      · cases hvoter.symm.trans heq
        exact Or.inl ⟨u.op, hop⟩
      · cases hvoter.symm.trans heq
    · cases heq
      exact Or.inr hcopy
  · rintro (⟨id, hop⟩ | hcopy)
    · exact Or.inl ⟨⟨id, 0⟩, (hc.mem_uses hx _).mpr ⟨_, hop, rfl⟩, voterOf_copy hop⟩
    · exact Or.inr ⟨w, rfl, hcopy⟩

/-- The categories that vote on a value are those that its other uses ask. -/
theorem Consistent.operand_mem_voters (hc : g.Consistent) (hx : g.value? v = some x) {b : Behavior}
    (hb : b ≠ .any) :
    .operand b ∈ g.voters v ↔ ∃ id op i, g.linked? id = some op ∧ op.isTransparent = false ∧
      op.inputs[i]? = some v ∧ op.inputAt? i = some b := by
  rw [mem_voters hx, hc.mem_voterBehind hx]
  constructor
  · rintro (⟨u, hu, heq⟩ | ⟨w, heq, _⟩)
    · rcases hc.voterOf_cases hx hu with ⟨out, _, hvoter⟩ | ⟨op, hop, htrans, hin, hvoter⟩
      · cases hvoter.symm.trans heq
      · have hasked : (op.inputAt? u.position).getD .any = b :=
          Voter.operand.inj (hvoter.symm.trans heq)
        refine ⟨u.op, op, u.position, hop, htrans, hin, ?_⟩
        cases hat : op.inputAt? u.position with
        | none =>
          rw [hat] at hasked
          exact absurd hasked.symm hb
        | some c =>
          rw [hat] at hasked
          exact congrArg some hasked
    · cases heq
  · rintro ⟨id, op, i, hop, htrans, hin, hat⟩
    refine Or.inl ⟨⟨id, i⟩, (hc.mem_uses hx _).mpr ⟨op, hop, hin⟩, ?_⟩
    rw [voterOf_operand hop htrans, hat]
    rfl

theorem elect_ne_any_of_mem {f : ValueId → Behavior} {a : Voter} (ha : a ∈ g.voters v)
    (hvote : a.vote f ≠ .any) : g.elect f v ≠ .any :=
  Ballot.verdict_ne_any_iff.mpr ⟨a.vote f, List.mem_map_of_mem ha, hvote⟩

/-- A decision stays one when what had been decided still is. -/
theorem elect_ne_any {s t : ValueId → Behavior} (hgrow : ∀ u, s u ≠ .any → t u ≠ .any)
    (h : g.elect s v ≠ .any) : g.elect t v ≠ .any := by
  obtain ⟨b, hb, hne⟩ := Ballot.verdict_ne_any_iff.mp h
  obtain ⟨a, ha, rfl⟩ := List.mem_map.mp hb
  refine elect_ne_any_of_mem ha ?_
  cases a with
  | operand asked => exact hne
  | value u => exact hgrow u hne

/-- Behind a new winner stands a value that turned to it. -/
theorem Consistent.exists_turned (hc : g.Consistent) (hv : (g.value? v).isSome = true)
    {s t : ValueId → Behavior} (hgrow : ∀ u, s u ≠ .any → t u ≠ .any) {b : Behavior} (hb : b ≠ .any)
    (ht : g.elect t v = b) (hs : g.elect s v ≠ b) : ∃ w, g.Joined w v ∧ t w = b ∧ s w ≠ b := by
  obtain ⟨x, hx⟩ := Option.isSome_iff_exists.mp hv
  have hvoters : ∀ a ∈ g.voters v, a.vote s ≠ .any → a.vote t ≠ .any := by
    intro a _ ha
    cases a with
    | operand asked => exact ha
    | value u => exact hgrow u ha
  obtain ⟨a, ha, hta, hsa⟩ := Ballot.exists_turned hvoters hb ht hs
  cases a with
  | operand asked => exact absurd hta hsa
  | value w => exact ⟨w, (hc.value_mem_voters hx).mp ha, hta, hsa⟩

theorem elect_eq (f : ValueId → Behavior) (hx : g.value? v = some x) :
    g.elect f v =
      Ballot.verdict ((x.uses.map g.voterOf ++ g.voterBehind x).map (Voter.vote f)) := by
  simp only [elect, voters, hx]

end

end Graph

namespace Typing
variable {g : Graph} {v : ValueId} {x : Value}

/-- What is known of a value, `any` when nothing is. -/
def Poll.stance (p : Poll) (v : ValueId) : Behavior :=
  (p.known? v).getD .any

theorem useVote_eq (hc : g.Consistent) (ht : g.CallsTyped) (p : Poll) (hx : g.value? v = some x)
    {u : Use} (hu : u ∈ x.uses) : useVote g p u = .ok ((g.voterOf u).vote p.stance) := by
  rcases hc.voterOf_cases hx hu with ⟨out, hop, hvoter⟩ | ⟨op, hop, htrans, hin, hvoter⟩
  · simp only [useVote, Graph.op_of_linked? hop, bind, Except.bind, hvoter, Voter.vote]
    rfl
  · have hasked := ht.asked_eq hop (List.getElem?_eq_some_iff.mp hin).1
    simp only [useVote, Graph.op_of_linked? hop, bind, Except.bind, htrans, hasked, hvoter,
      Voter.vote]
    rfl

/-- The votes that a copy brings are counted like the voice behind the value. -/
theorem definerVotes_eq (hc : g.Consistent) (p : Poll) (hx : g.value? v = some x) :
    ∃ copied, definerVotes g p x = .ok copied ∧ ∀ b, b ≠ .any →
      copied.count b = ((g.voterBehind x).map (Voter.vote p.stance)).count b := by
  unfold definerVotes Graph.voterBehind
  cases hd : x.definer with
  | none => exact ⟨[], rfl, fun _ _ => rfl⟩
  | some d =>
    obtain ⟨op, hop, hout⟩ := (hc.definer_iff hx d).mp hd
    refine ⟨_, by simp only [Graph.op_of_linked? hop, bind, Except.bind]; rfl, ?_⟩
    intro b hb
    cases op with
    | copy out input =>
      simp only [Option.bind_some, hop, Operation.isTransparent, Operation.inputs, if_true,
        List.map_cons, List.map_nil, Voter.vote, Poll.stance]
      cases hknown : p.known? input with
      | none => simp [hknown, hb.symm]
      | some c => simp [hknown]
    | _ => simp [hop, Operation.isTransparent]

/-- The ballot on a live value is counted, and its winner is the one elected. -/
theorem exists_ballot (hc : g.Consistent) (ht : g.CallsTyped) (p : Poll)
    (hv : (g.value? v).isSome = true) :
    ∃ b, ballot g p v = .ok b ∧ b.winner.getD .any = g.elect p.stance v := by
  obtain ⟨x, hx⟩ := Option.isSome_iff_exists.mp hv
  have huses := mapM_eq_ok fun u hu => useVote_eq hc ht p hx hu
  obtain ⟨copied, hcopied, hcount⟩ := definerVotes_eq hc p hx
  refine ⟨_, by simp only [ballot, Graph.value, hx, bind, Except.bind, huses, hcopied]; rfl, ?_⟩
  have hinteger := hcount .integer (by decide)
  have hfloat := hcount .float (by decide)
  rw [Graph.elect_eq p.stance hx, List.map_append, ← Ballot.verdict, Ballot.verdict_eq,
    Ballot.verdict_eq]
  simp only [List.count_append, List.map_map, hinteger, hfloat]
  rfl

end Typing
end DefUse
