import DefUse.Proofs.Graph.Order
import DefUse.Proofs.Typing.Votes

namespace DefUse

theorem Assoc.exists_get?_of_mem_keys {κ α : Type} [DecidableEq κ] {m : Assoc κ α} {k : κ}
    (h : k ∈ m.map Prod.fst) : ∃ a, m.get? k = some a := by
  induction m with
  | nil => cases h
  | cons e rest ih =>
    by_cases he : e.1 = k
    · exact ⟨e.2, by simp [get?, he]⟩
    · rw [List.map_cons, List.mem_cons] at h
      obtain ⟨a, ha⟩ := ih (h.resolve_left (Ne.symm he))
      exact ⟨a, by simpa [get?, he] using ha⟩

theorem Values.pairwise_keys (vs : Values) :
    (vs.list.map Prod.fst).Pairwise fun a b => a.index < b.index :=
  List.pairwise_map.mpr (List.pairwise_map.mpr vs.pairwise_entries)

theorem Values.nodup_keys (vs : Values) : (vs.list.map Prod.fst).Nodup := by
  refine List.Pairwise.imp ?_ vs.pairwise_keys
  rintro a _ hlt rfl
  exact Nat.lt_irrefl _ hlt

namespace Graph

/-- The linked definer of `v` gives it the category `b`. -/
def Declares (g : Graph) (v : ValueId) (b : Behavior) : Prop :=
  b.isConcrete = true ∧
    ∃ id op, g.linked? id = some op ∧ op.output = some v ∧ op.outputType = some b

theorem Declares.live {g : Graph} {v : ValueId} {b : Behavior} (h : g.Declares v b)
    (hc : g.Consistent) : (g.value? v).isSome = true := by
  obtain ⟨_, id, op, hop, hout, _⟩ := h
  exact hc.output_live hop hout

/-- A live value that no definer gives a category. -/
structure IsOpen (g : Graph) (v : ValueId) : Prop where
  live : (g.value? v).isSome = true
  undeclared : ∀ b, ¬g.Declares v b

/-- The output of a copy is open. -/
theorem Consistent.isOpen_of_copies {g : Graph} (hc : g.Consistent) {out input : ValueId}
    (h : g.Copies out input) : g.IsOpen out := by
  obtain ⟨id, hop⟩ := h
  refine ⟨hc.output_live hop rfl, ?_⟩
  rintro b ⟨hb, id', op, hop', hout, htype⟩
  obtain rfl := hc.output_inj hop hop' rfl hout
  rw [hop] at hop'
  cases hop'
  cases htype
  cases hb

end Graph

namespace Typing
variable {g : Graph}

theorem declared?_eq (hc : g.Consistent) {v : ValueId} {x : Value} (hx : g.value? v = some x) :
    ∃ declared, declared? g x = .ok declared ∧ ∀ b, declared = some b ↔ g.Declares v b := by
  unfold declared?
  cases hd : x.definer with
  | none =>
    refine ⟨none, rfl, fun b => ⟨fun h => (nomatch h), ?_⟩⟩
    rintro ⟨_, id, op, hop, hout, _⟩
    have := (hc.definer_iff hx id).mpr ⟨op, hop, hout⟩
    rw [hd] at this
    cases this
  | some d =>
    obtain ⟨op, hop, hout⟩ := (hc.definer_iff hx d).mp hd
    refine ⟨_, by simp only [Graph.op_of_linked? hop, bind, Except.bind]; rfl, fun b => ?_⟩
    rw [Option.filter_eq_some_iff]
    constructor
    · exact fun ⟨htype, hb⟩ => ⟨hb, d, op, hop, hout, htype⟩
    · rintro ⟨hb, id, op', hop', hout', htype⟩
      obtain rfl := hc.output_inj hop hop' hout hout'
      rw [hop] at hop'
      cases hop'
      exact ⟨htype, hb⟩

/-- A poll on the open values of a graph, in order of creation. -/
structure Poll.Fits (g : Graph) (p : Poll) : Prop where
  declared : ∀ v b, p.declared.get? v = some b ↔ g.Declares v b
  mem_keys : ∀ v, v ∈ p.voted.map Prod.fst ↔ g.IsOpen v
  sorted : (p.voted.map Prod.fst).Pairwise fun a b => a.index < b.index
  concrete : ∀ v, (p.voted.get? v).join ≠ some .any

/-- What `openPoll` makes of some of the values. -/
structure Opens (g : Graph) (values : List (ValueId × Value)) (p : Poll) : Prop where
  declared : ∀ v b, p.declared.get? v = some b ↔ v ∈ values.map Prod.fst ∧ g.Declares v b
  mem_keys : ∀ v, v ∈ p.voted.map Prod.fst ↔ v ∈ values.map Prod.fst ∧ ∀ b, ¬g.Declares v b
  sublist : (p.voted.map Prod.fst).Sublist (values.map Prod.fst)
  undecided : ∀ v, (p.voted.get? v).join = none

theorem opens (hc : g.Consistent) {values : List (ValueId × Value)}
    (hvalues : ∀ e ∈ values, g.value? e.1 = some e.2) :
    ∃ p, openPoll g values = .ok p ∧ Opens g values p := by
  induction values with
  | nil =>
    exact ⟨{}, rfl, by simp [Assoc.get?], by simp, List.Sublist.refl _, fun _ => rfl⟩
  | cons e rest ih =>
    obtain ⟨v, x⟩ := e
    have hx := hvalues (v, x) List.mem_cons_self
    obtain ⟨declared, hdecl, hiff⟩ := declared?_eq hc hx
    obtain ⟨p, hp, h⟩ := ih fun e he => hvalues e (List.mem_cons_of_mem _ he)
    cases declared with
    | some b =>
      have hb := (hiff b).mp rfl
      refine ⟨{ p with declared := (v, b) :: p.declared }, ?_, ?_, ?_, ?_, h.undecided⟩
      · simp only [openPoll, hdecl, hp, bind, Except.bind]
        rfl
      · intro w c
        by_cases hw : v = w
        · subst hw
          simpa [Assoc.get?] using hiff c
        · simpa [Assoc.get?, hw, Ne.symm hw] using h.declared w c
      · intro w
        rw [h.mem_keys, List.map_cons, List.mem_cons]
        constructor
        · exact And.imp_left Or.inr
        · rintro ⟨rfl | hw, hnone⟩
          · exact absurd hb (hnone b)
          · exact ⟨hw, hnone⟩
      · exact h.sublist.cons v
    | none =>
      have hnone : ∀ b, ¬g.Declares v b := by
        intro b hb
        cases (hiff b).mpr hb
      refine ⟨{ p with voted := (v, none) :: p.voted }, ?_, ?_, ?_, ?_, ?_⟩
      · simp only [openPoll, hdecl, hp, bind, Except.bind]
        rfl
      · intro w b
        rw [h.declared, List.map_cons, List.mem_cons]
        constructor
        · exact And.imp_left Or.inr
        · rintro ⟨rfl | hw, hb⟩
          · exact absurd hb (hnone b)
          · exact ⟨hw, hb⟩
      · intro w
        rw [List.map_cons, List.mem_cons, h.mem_keys, List.map_cons, List.mem_cons]
        constructor
        · rintro (rfl | ⟨hw, hopen⟩)
          · exact ⟨Or.inl rfl, hnone⟩
          · exact ⟨Or.inr hw, hopen⟩
        · rintro ⟨rfl | hw, hopen⟩
          · exact Or.inl rfl
          · exact Or.inr ⟨hw, hopen⟩
      · exact h.sublist.cons_cons v
      · intro w
        by_cases hw : v = w
        · simp [Assoc.get?, hw]
        · simpa [Assoc.get?, hw] using h.undecided w

namespace Poll.Fits
variable {p : Poll} {v : ValueId}

theorem declared_eq_none (h : p.Fits g) (hv : g.IsOpen v) : p.declared.get? v = none := by
  rw [Option.eq_none_iff_forall_ne_some]
  exact fun b hb => hv.undeclared b ((h.declared v b).mp hb)

/-- An open value holds what was voted on it. -/
theorem known?_eq (h : p.Fits g) (hv : g.IsOpen v) : p.known? v = (p.voted.get? v).join := by
  simp only [known?, h.declared_eq_none hv]

theorem voted_eq_iff (h : p.Fits g) (hv : g.IsOpen v) {winner : Option Behavior}
    (hw : winner ≠ some .any) : (p.voted.get? v).join = winner ↔ p.stance v = winner.getD .any := by
  have hconcrete := h.concrete v
  rw [stance, h.known?_eq hv]
  generalize (p.voted.get? v).join = voted at hconcrete
  constructor
  · rintro rfl
    rfl
  · intro heq
    cases voted <;> cases winner <;> simp_all

/-- The poll after a vote on an open value. -/
theorem put (h : p.Fits g) (hv : g.IsOpen v) {winner : Option Behavior} (hw : winner ≠ some .any) :
    ({ p with voted := p.voted.put v winner } : Poll).Fits g ∧
      ({ p with voted := p.voted.put v winner } : Poll).stance =
        fun u => if v = u then winner.getD .any else p.stance u := by
  obtain ⟨old, hold⟩ := Assoc.exists_get?_of_mem_keys ((h.mem_keys v).mpr hv)
  have hkeys := Assoc.keys_put hold winner
  refine ⟨⟨h.declared, fun u => hkeys ▸ h.mem_keys u, hkeys ▸ h.sorted, ?_⟩, ?_⟩
  · intro u
    rw [Assoc.get?_put]
    split
    · exact hw
    · exact h.concrete u
  · funext u
    by_cases hu : v = u
    · subst hu
      simp [stance, known?, h.declared_eq_none hv, Assoc.get?_put]
    · simp [stance, known?, Assoc.get?_put, hu]

end Poll.Fits

/-- The poll before the first round fits the graph, and no open value is decided. -/
theorem exists_openPoll (hc : g.Consistent) :
    ∃ p, openPoll g g.values.list = .ok p ∧ p.Fits g ∧ ∀ v, g.IsOpen v → p.stance v = .any := by
  obtain ⟨p, hp, h⟩ := opens hc fun e he => Values.mem_list.mp he
  have hlive (v : ValueId) : v ∈ g.values.list.map Prod.fst ↔ (g.value? v).isSome = true := by
    rw [List.mem_map, Option.isSome_iff_exists]
    constructor
    · rintro ⟨e, he, rfl⟩
      exact ⟨e.2, Values.mem_list.mp he⟩
    · exact fun ⟨x, hx⟩ => ⟨(v, x), Values.mem_list.mpr hx, rfl⟩
  have hfits : p.Fits g := by
    refine ⟨?_, ?_, g.values.pairwise_keys.sublist h.sublist, ?_⟩
    · intro v b
      rw [h.declared, hlive]
      exact ⟨And.right, fun hb => ⟨hb.live hc, hb⟩⟩
    · intro v
      rw [h.mem_keys, hlive]
      exact ⟨fun ho => ⟨ho.1, ho.2⟩, fun ho => ⟨ho.live, ho.undeclared⟩⟩
    · intro v
      rw [h.undecided]
      exact nofun
  refine ⟨p, hp, hfits, fun v hv => ?_⟩
  rw [Poll.stance, hfits.known?_eq hv, h.undecided]
  rfl

/-- What `v` sees in a round from `f` to `f'`. -/
def seen (f f' : ValueId → Behavior) (v u : ValueId) : Behavior :=
  if u.index < v.index then f' u else f u

/-- A round of votes on `values` leads from `f` to `f'`. -/
structure Revised (g : Graph) (values : List ValueId) (f f' : ValueId → Behavior) : Prop where
  elected : ∀ v ∈ values, f' v = g.elect (seen f f' v) v
  other : ∀ v, v ∉ values → f' v = f v

theorem Revised.cons {v : ValueId} {rest : List ValueId} {f f' : ValueId → Behavior}
    (hsorted : (v :: rest).Pairwise fun a b => a.index < b.index)
    (h : Revised g rest (fun u => if v = u then g.elect f v else f u) f') :
    Revised g (v :: rest) f f' := by
  obtain ⟨hfirst, _⟩ := List.pairwise_cons.mp hsorted
  have hout {u : ValueId} (hu : u.index ≤ v.index) : u ∉ rest := fun hin =>
    Nat.lt_irrefl _ (Nat.lt_of_lt_of_le (hfirst u hin) hu)
  refine ⟨?_, ?_⟩
  · intro w hw
    rcases List.mem_cons.mp hw with rfl | hw
    · -- the values before `w` are not voted on any more
      have hseen : seen f f' w = f := by
        funext u
        unfold seen
        split
        next hlt =>
          have hne : w ≠ u := fun he => by simp [he] at hlt
          rw [h.other u (hout (Nat.le_of_lt hlt)), if_neg hne]
        next => rfl
      rw [h.other w (hout (Nat.le_refl _)), if_pos rfl, hseen]
    · rw [h.elected w hw]
      congr 1
      funext u
      unfold seen
      split
      next => rfl
      next hge =>
        have hne : v ≠ u := fun he => hge (he ▸ hfirst w hw)
        exact if_neg hne
  · intro w hw
    rw [List.mem_cons, not_or] at hw
    rw [h.other w hw.2, if_neg (Ne.symm hw.1)]

/-- A round on open values is never refused, and it tells whether it changed what is held. -/
theorem Poll.Fits.exists_round (hc : g.Consistent) (ht : g.CallsTyped) {values : List ValueId}
    (hopen : ∀ v ∈ values, g.IsOpen v) (hsorted : values.Pairwise fun a b => a.index < b.index)
    {p : Poll} (hp : p.Fits g) :
    ∃ q changed, round g values p = .ok (q, changed) ∧ q.Fits g ∧
      Revised g values p.stance q.stance ∧ (changed = true → q.stance ≠ p.stance) := by
  induction values generalizing p with
  | nil => exact ⟨p, false, rfl, hp, ⟨by simp, fun _ _ => rfl⟩, nofun⟩
  | cons v rest ih =>
    have hv := hopen v List.mem_cons_self
    have hrest := fun w hw => hopen w (List.mem_cons_of_mem v hw)
    obtain ⟨hfirst, htail⟩ := List.pairwise_cons.mp hsorted
    obtain ⟨b, hb, hwin⟩ := exists_ballot hc ht p hv.live
    have hiff := hp.voted_eq_iff hv b.winner_ne_any
    rw [hwin] at hiff
    by_cases hsame : (p.voted.get? v).join = b.winner
    · obtain ⟨q, changed, hq, hfits, hrev, hchanged⟩ := ih hrest htail hp
      refine ⟨q, changed, ?_, hfits, ?_, hchanged⟩
      · simp only [round, hb, bind, Except.bind, hsame, if_true, hq]
      · have hkeep : (fun u => if v = u then g.elect p.stance v else p.stance u) = p.stance := by
          funext u
          split
          next hu => rw [← hu, hiff.mp hsame]
          next => rfl
        exact Revised.cons hsorted (by rwa [hkeep])
    · obtain ⟨hput, hstance⟩ := hp.put hv b.winner_ne_any
      rw [hwin] at hstance
      obtain ⟨q, changed, hq, hfits, hrev, _⟩ := ih hrest htail hput
      rw [hstance] at hrev
      refine ⟨q, true, ?_, hfits, hrev.cons hsorted, fun _ heq => ?_⟩
      · simp only [round, hb, bind, Except.bind, hsame, if_false, hq]
        rfl
      · -- the new vote on `v` stands at the end of the round
        have hstands := hrev.other v fun hin => Nat.lt_irrefl _ (hfirst v hin)
        rw [if_pos rfl, heq] at hstands
        exact hsame (hiff.mpr hstands)

/-- After a round without change, every value holds the winner of its ballot. -/
theorem eq_of_round_unchanged {values : List ValueId} {p q : Poll}
    (h : round g values p = .ok (q, false)) :
    q = p ∧ ∀ v ∈ values, ∃ b, ballot g p v = .ok b ∧ (p.voted.get? v).join = b.winner := by
  induction values with
  | nil =>
    cases h
    exact ⟨rfl, nofun⟩
  | cons v rest ih =>
    cases hb : ballot g p v with
    | error e => simp [round, hb, bind, Except.bind] at h
    | ok b =>
      simp only [round, hb, bind, Except.bind] at h
      split at h
      next hsame =>
        obtain ⟨rfl, hrest⟩ := ih h
        refine ⟨rfl, fun w hw => ?_⟩
        rcases List.mem_cons.mp hw with rfl | hw
        · exact ⟨b, hb, hsame⟩
        · exact hrest w hw
      next =>
        split at h
        · cases h
        · cases h

/-- `n` rounds in a row lead from `p` to `q`, and each changes something. -/
inductive Rounds (g : Graph) (values : List ValueId) (p : Poll) : Nat → Poll → Prop
  | none : Rounds g values p 0 p
  | next {n : Nat} {q r : Poll} (before : Rounds g values p n q)
      (last : round g values q = .ok (r, true)) : Rounds g values p (n + 1) r

section
variable {values : List ValueId} {p q : Poll} {n : Nat}

theorem Rounds.settle_add (h : Rounds g values p n q) (limit : Nat) :
    settle g values (n + limit) p = settle g values limit q := by
  induction h generalizing limit with
  | none => rw [Nat.zero_add]
  | next before last ih =>
    rw [Nat.add_right_comm, Nat.add_assoc, ih (limit + 1)]
    simp only [settle, last, bind, Except.bind, if_true]

/-- The loop ends with the poll that a round does not change. -/
theorem Rounds.settle_eq (h : Rounds g values p n q) (hlast : round g values q = .ok (q, false))
    {limit : Nat} (hlimit : n < limit) : settle g values limit p = .ok q := by
  obtain ⟨more, rfl⟩ := Nat.exists_eq_add_of_lt hlimit
  rw [Nat.add_assoc, h.settle_add]
  simp [settle, hlast, bind, Except.bind, pure, Except.pure]

end

/-- The rounds of votes on the open values of a typed, consistent graph. -/
structure Voting (g : Graph) (values : List ValueId) : Prop where
  consistent : g.Consistent
  typed : g.CallsTyped
  mem_iff : ∀ v, v ∈ values ↔ g.IsOpen v
  sorted : values.Pairwise fun a b => a.index < b.index

theorem Poll.Fits.voting {p : Poll} (hp : p.Fits g) (hc : g.Consistent) (ht : g.CallsTyped) :
    Voting g (p.voted.map Prod.fst) :=
  ⟨hc, ht, hp.mem_keys, hp.sorted⟩

namespace Voting
variable {values : List ValueId} {p q : Poll} {n : Nat}

theorem exists_round (h : Voting g values) (hp : p.Fits g) :
    ∃ q changed, round g values p = .ok (q, changed) ∧ q.Fits g ∧
      Revised g values p.stance q.stance ∧ (changed = true → q.stance ≠ p.stance) :=
  hp.exists_round h.consistent h.typed (fun v hv => (h.mem_iff v).mp hv) h.sorted

/-- The next round after a settled poll would elect the same again. -/
theorem stance_eq_elect (h : Voting g values) (hp : p.Fits g)
    (hlast : round g values p = .ok (p, false)) {v : ValueId} (hv : g.IsOpen v) :
    p.stance v = g.elect p.stance v := by
  obtain ⟨q, changed, hround, _, hrev, _⟩ := h.exists_round hp
  rw [hlast] at hround
  cases hround
  have hseen : seen p.stance p.stance v = p.stance := by
    funext u
    exact ite_self _
  have helected := hrev.elected v ((h.mem_iff v).mpr hv)
  rwa [hseen] at helected

/-- What the rounds keep holds at their end. -/
theorem rounds_induct (h : Voting g values) {motive : Poll → Prop} (hp : p.Fits g)
    (hstart : motive p)
    (hround : ∀ q r : Poll, q.Fits g → motive q → r.Fits g → Revised g values q.stance r.stance →
      motive r)
    (hrun : Rounds g values p n q) : q.Fits g ∧ motive q := by
  induction hrun with
  | none => exact ⟨hp, hstart⟩
  | next before last ih =>
    obtain ⟨hfits, hmotive⟩ := ih
    obtain ⟨r, changed, hr, hrfits, hrev, _⟩ := h.exists_round hfits
    rw [last] at hr
    cases hr
    exact ⟨hrfits, hround _ _ hfits hmotive hrfits hrev⟩

theorem exists_settle (h : Voting g values) (hp : p.Fits g) (limit : Nat) :
    ∃ q, settle g values limit p = .ok q ∧ q.Fits g := by
  induction limit generalizing p with
  | zero => exact ⟨p, rfl, hp⟩
  | succ limit ih =>
    obtain ⟨q, changed, hq, hfits, _⟩ := h.exists_round hp
    simp only [settle, hq, bind, Except.bind]
    split
    · exact ih hfits
    · exact ⟨q, rfl, hfits⟩

end Voting

/-- What a recorded use asks of its value. -/
def requirement (g : Graph) (u : Use) : Behavior :=
  ((g.linked? u.op).bind (·.inputAt? u.position)).getD .any

/-- A use that disagrees with the type of its value. -/
def disagreement? (g : Graph) (found : ValueType) (u : Use) : Option (Use × Diagnostic) :=
  if found.satisfies (requirement g u) then none
  else some (u, .mismatch u (requirement g u) found)

/-- The uses of a value that disagree with its type. -/
def disagreements (g : Graph) (types : Assoc ValueId ValueType) (e : ValueId × Value) :
    List (Use × Diagnostic) :=
  match types.get? e.1 with
  | none => []
  | some found => e.2.uses.filterMap (disagreement? g found)

theorem mismatch?_eq (hc : g.Consistent) (ht : g.CallsTyped) {v : ValueId} {x : Value}
    (hx : g.value? v = some x) {u : Use} (hu : u ∈ x.uses) (found : ValueType) :
    mismatch? g found u = .ok (disagreement? g found u) := by
  obtain ⟨op, hop, hin⟩ := (hc.mem_uses hx u).mp hu
  have hasked := ht.asked_eq hop (List.getElem?_eq_some_iff.mp hin).1
  have hwant : requirement g u = (op.inputAt? u.position).getD .any := by
    rw [requirement, hop, Option.bind_some]
  simp only [mismatch?, hasked, bind, Except.bind, disagreement?, hwant]
  rfl

theorem mismatches_eq (hc : g.Consistent) (ht : g.CallsTyped) (types : Assoc ValueId ValueType)
    {values : List (ValueId × Value)} (hvalues : ∀ e ∈ values, g.value? e.1 = some e.2) :
    mismatches g types values = .ok (values.flatMap (disagreements g types)) := by
  induction values with
  | nil => rfl
  | cons e rest ih =>
    obtain ⟨v, x⟩ := e
    have hx := hvalues (v, x) List.mem_cons_self
    have hrest := ih fun e he => hvalues e (List.mem_cons_of_mem _ he)
    rw [List.flatMap_cons, disagreements]
    simp only [mismatches, hrest]
    cases types.get? v with
    | none => rfl
    | some found =>
      have hhere := mapM_eq_ok fun u hu => mismatch?_eq hc ht hx hu found
      simp only [hhere, bind, Except.bind, List.filterMap_map, Function.id_comp]
      rfl

/-- The types that a poll decides. -/
def decidedTypes (g : Graph) (p : Poll) : Assoc ValueId ValueType :=
  g.values.list.map fun e => (e.1, (decide p e.1 e.2.size).1)

/-- The disagreements with the types that a poll decides, by operation and position. -/
def disputes (g : Graph) (p : Poll) : List (Use × Diagnostic) :=
  (g.values.list.flatMap (disagreements g (decidedTypes g p))).mergeSort fun a b => a.1.le b.1

/-- What types come of a poll, with what is reported and coerced. -/
def conclude (g : Graph) (p : Poll) : Typing where
  types := decidedTypes g p
  diagnostics := g.values.list.flatMap (fun e => (decide p e.1 e.2.size).2) ++
    (disputes g p).map (·.2)
  coercions := (disputes g p).map (·.1)

theorem infer_eq_conclude (hc : g.Consistent) (ht : g.CallsTyped) {start p : Poll}
    (hstart : openPoll g g.values.list = .ok start)
    (hp : settle g (start.voted.map (·.1)) ((start.voted.map (·.1)).length + 1) start = .ok p) :
    infer g = .ok (conclude g p) := by
  have htypes : (g.values.list.map fun e => (e.1, decide p e.1 e.2.size)).map
      (fun e => (e.1, e.2.1)) = decidedTypes g p := by
    rw [List.map_map]
    rfl
  have hfound := mismatches_eq hc ht (decidedTypes g p) fun e he => Values.mem_list.mp he
  simp only [infer, hstart, hp, htypes, hfound, bind, Except.bind, List.flatMap_map]
  rfl

theorem keys_conclude (g : Graph) (p : Poll) :
    (conclude g p).types.map Prod.fst = g.values.list.map Prod.fst := by
  simp only [conclude, decidedTypes, List.map_map]
  rfl

theorem typeOf?_conclude (p : Poll) {v : ValueId} {x : Value} (hx : g.value? v = some x) :
    (conclude g p).typeOf? v = some (decide p v x.size).1 := by
  refine Assoc.get?_eq_some_of_mem ?_
    (List.mem_map.mpr ⟨(v, x), Values.mem_list.mpr hx, rfl⟩)
  rw [keys_conclude]
  exact g.values.nodup_keys

/-- Every live value gets the type that the settled poll decides, with what that reports. -/
theorem infer_eq (hc : g.Consistent) (ht : g.CallsTyped) {start p : Poll}
    (hstart : openPoll g g.values.list = .ok start)
    (hp : settle g (start.voted.map (·.1)) ((start.voted.map (·.1)).length + 1) start = .ok p) :
    ∃ t, infer g = .ok t ∧ ∀ {v x}, g.value? v = some x →
      t.typeOf? v = some (decide p v x.size).1 ∧ (decide p v x.size).2 ⊆ t.diagnostics := by
  refine ⟨conclude g p, infer_eq_conclude hc ht hstart hp, fun {v x} hx => ?_⟩
  refine ⟨typeOf?_conclude p hx, fun d hd => ?_⟩
  exact List.mem_append_left _ (List.mem_flatMap.mpr ⟨(v, x), Values.mem_list.mpr hx, hd⟩)

end Typing
end DefUse
