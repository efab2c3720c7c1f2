import Mathlib.Data.List.Perm.Subperm
import DefUse.Proofs.Graph.History
import DefUse.Proofs.Typing.Rounds

namespace DefUse

namespace Graph

/-- How far down a schedule a value is defined. -/
def depth (g : Graph) (order : List OpId) (v : ValueId) : Nat :=
  match (g.value? v).bind Value.definer with
  | some d => order.idxOf d + 1
  | none => 0

/-- Copies lead down a forest: every value is a copy of one other at most, which is less deep. -/
structure Forest (g : Graph) (depth : ValueId → Nat) : Prop where
  unique : ∀ {v a b}, g.Copies v a → g.Copies v b → a = b
  depth_lt : ∀ {out input}, g.Copies out input → depth input < depth out

theorem Consistent.forest {g : Graph} (hc : g.Consistent) {order : List OpId}
    (hs : g.schedule = .ok order) : g.Forest (g.depth order) where
  unique ha hb := by
    obtain ⟨i, hi⟩ := ha
    obtain ⟨j, hj⟩ := hb
    obtain rfl := hc.output_inj hi hj rfl rfl
    rw [hi] at hj
    cases hj
    rfl
  depth_lt {out input} h := by
    obtain ⟨id, hop⟩ := h
    have harr := hc.arranges_of_schedule hs
    obtain ⟨x, hx⟩ := Option.isSome_iff_exists.mp (hc.input_live hop List.mem_cons_self)
    obtain ⟨y, hy⟩ := Option.isSome_iff_exists.mp (hc.output_live hop rfl)
    have hid := (hc.definer_iff hy id).mpr ⟨_, hop, rfl⟩
    simp only [depth, hx, hy, Option.bind_some, hid]
    cases hd : x.definer with
    | none => exact Nat.succ_pos _
    | some d =>
      have hneeds : g.Needs id d := ⟨_, hop, Or.inl ⟨input, List.mem_cons_self, x, hx, hd⟩⟩
      have hmem := (harr.mem_iff id).mpr (Option.isSome_of_eq_some hop)
      obtain ⟨before, rest, rfl⟩ := List.append_of_mem hmem
      have hbefore : d ∈ before :=
        (harr.feasible.needs_before hneeds).resolve_left (Set.notMem_empty d)
      have hnew : id ∉ before := by
        intro hin
        have hnodup := harr.feasible.nodup
        rw [List.nodup_append] at hnodup
        exact hnodup.2.2 id hin id List.mem_cons_self rfl
      have hlt := List.idxOf_lt_length_of_mem hbefore
      change (before ++ id :: rest).idxOf d + 1 < (before ++ id :: rest).idxOf id + 1
      rw [List.idxOf_append_of_mem hbefore, List.idxOf_append_of_notMem hnew, List.idxOf_cons_self]
      omega

/-- Values joined each to the next, without a step back. -/
def Trail (g : Graph) : List ValueId → Prop
  | u :: v :: rest => g.Joined u v ∧ rest.head? ≠ some u ∧ g.Trail (v :: rest)
  | _ => True

section
variable {g : Graph} {depth : ValueId → Nat} {u v : ValueId} {rest : List ValueId}

/-- A trail that came from a value to its copy goes on to a copy of that. -/
theorem Trail.copies_next (hf : g.Forest depth) {a : ValueId} (h : g.Trail (u :: v :: a :: rest))
    (hdown : g.Copies v u) : g.Copies a v := by
  obtain ⟨_, hback, hjoin, _⟩ := h
  refine hjoin.resolve_left fun hup => hback ?_
  exact congrArg some (hf.unique hup hdown)

theorem Trail.depth_lt (hf : g.Forest depth) (h : g.Trail (u :: v :: rest)) (hdown : g.Copies v u) :
    ∀ w ∈ v :: rest, depth u < depth w := by
  induction rest generalizing u v with
  | nil =>
    intro w hw
    obtain rfl := List.mem_singleton.mp hw
    exact hf.depth_lt hdown
  | cons a rest ih =>
    intro w hw
    rcases List.mem_cons.mp hw with rfl | hw
    · exact hf.depth_lt hdown
    · exact Nat.lt_trans (hf.depth_lt hdown) (ih h.2.2 (h.copies_next hf hdown) w hw)

/-- What a trail meets later lies less deep than its start, or it is a copy of something on the
trail, and of the start only if it comes next. -/
theorem Trail.depth_lt_or_copies (hf : g.Forest depth) (h : g.Trail (v :: rest))
    (hnodup : (v :: rest).Nodup) {a : ValueId} (ha : a ∈ rest) :
    depth a < depth v ∨ ∃ w ∈ v :: rest, g.Copies a w ∧ (w = v → rest.head? = some a) := by
  induction rest generalizing v with
  | nil => cases ha
  | cons w rest ih =>
    obtain ⟨hjoin, _, htail⟩ := h
    obtain ⟨hv, hrest⟩ := List.nodup_cons.mp hnodup
    rcases List.mem_cons.mp ha with rfl | ha
    · exact hjoin.elim (fun hup => Or.inl (hf.depth_lt hup))
        fun hdown => Or.inr ⟨v, List.mem_cons_self, hdown, fun _ => rfl⟩
    · rcases ih htail hrest ha with hlt | ⟨y, hy, hcopy, _⟩
      · refine Or.inl (Nat.lt_trans hlt (hjoin.elim hf.depth_lt fun hdown => ?_))
        -- a step down goes on down, and does not come above `w` again
        obtain ⟨b, rest, rfl⟩ := List.exists_cons_of_ne_nil (List.ne_nil_of_mem ha)
        have hnext := Trail.copies_next hf ⟨hjoin, ‹_›, htail⟩ hdown
        exact absurd hlt (Nat.not_lt_of_lt (htail.depth_lt hf hnext a ha))
      · exact Or.inr ⟨y, List.mem_cons_of_mem v hy, hcopy, fun he => absurd (he ▸ hy) hv⟩

/-- A trail meets no value twice. -/
theorem Trail.nodup (hf : g.Forest depth) {trail : List ValueId} (h : g.Trail trail) :
    trail.Nodup := by
  induction trail with
  | nil => exact List.nodup_nil
  | cons u rest ih =>
    cases rest with
    | nil => exact List.nodup_singleton u
    | cons v rest =>
      have htail := ih h.2.2
      refine List.nodup_cons.mpr ⟨fun hu => ?_, htail⟩
      rcases h.1 with hup | hdown
      · have huv := hf.depth_lt hup
        rcases List.mem_cons.mp hu with rfl | hu
        · exact Nat.lt_irrefl _ huv
        · rcases h.2.2.depth_lt_or_copies hf htail hu with hlt | ⟨w, _, hcopy, hnext⟩
          · exact Nat.lt_asymm huv hlt
          · exact h.2.1 (hnext (hf.unique hcopy hup))
      · exact Nat.lt_irrefl _ (h.depth_lt hf hdown u hu)

end

theorem callsTyped_of_linkedOps {g : Graph}
    (h : ∀ e ∈ g.linkedOps, e.2.inputTypes.length = e.2.inputs.length) : g.CallsTyped :=
  fun _ _ _ _ _ _ hop => h _ (mem_linkedOps_iff.mpr hop)

end Graph

namespace Typing

/-- In a round from `f` to `f'`, `v` turns to the category `b`. -/
structure Turns (f f' : ValueId → Behavior) (b : Behavior) (v : ValueId) : Prop where
  before : f v ≠ b
  after : f' v = b

/-- When `v` was voted on in a round from `f` to `f'`, `w` held `b`. -/
def Held (f f' : ValueId → Behavior) (b : Behavior) (v w : ValueId) : Prop :=
  w.index < v.index ∧ f' w = b ∨ v.index < w.index ∧ f w = b

/-- The `n`-th round leads from `f` to `f'`. -/
structure Latest (g : Graph) (values : List ValueId) (n : Nat) (f f' : ValueId → Behavior) :
    Prop where
  revised : Revised g values f f'
  /-- What was decided still is. -/
  grows : ∀ v, f v ≠ .any → f' v ≠ .any
  /-- A turn goes back to the first round along a trail. -/
  trail : ∀ {b v}, b ≠ .any → Turns f f' b v → ∃ rest, g.Trail (v :: rest) ∧
    (∀ w ∈ v :: rest, w ∈ values) ∧ n ≤ rest.length + 1 ∧ ∀ w, rest.head? = some w → Held f f' b v w

section
variable {g : Graph} {values : List ValueId} {f f' f'' : ValueId → Behavior} {n : Nat}

theorem Revised.mem_of_turns (h : Revised g values f f') {b : Behavior} {v : ValueId}
    (hturn : Turns f f' b v) : v ∈ values := by
  by_contra hv
  exact hturn.before ((h.other v hv).symm.trans hturn.after)

theorem Revised.latest (h : Revised g values f f') (hstart : ∀ v ∈ values, f v = .any) :
    Latest g values 1 f f' where
  revised := h
  grows v hv := by
    have hout : v ∉ values := fun hin => hv (hstart v hin)
    rwa [h.other v hout]
  trail _ hturn := by
    refine ⟨[], trivial, ?_, Nat.le_refl 1, nofun⟩
    intro w hw
    obtain rfl := List.mem_singleton.mp hw
    exact h.mem_of_turns hturn

/-- What is seen grows from round to round. -/
theorem Latest.seen_grows (h : Latest g values n f f') {v : ValueId}
    (hbefore : ∀ u, u.index < v.index → f' u ≠ .any → f'' u ≠ .any) (u : ValueId)
    (hu : seen f f' v u ≠ .any) : seen f' f'' v u ≠ .any := by
  unfold seen at hu ⊢
  split at hu
  next hlt =>
    rw [if_pos hlt]
    exact hbefore u hlt hu
  next hge =>
    rw [if_neg hge]
    exact h.grows u hu

theorem Latest.grows_next (h : Latest g values n f f') (hrev : Revised g values f' f'')
    (v : ValueId) (hv : f' v ≠ .any) : f'' v ≠ .any := by
  -- within the round, by the order in which values are voted on
  induction hindex : v.index using Nat.strongRecOn generalizing v with
  | ind i ih =>
    by_cases hin : v ∈ values
    · rw [hrev.elected v hin]
      rw [h.revised.elected v hin] at hv
      refine Graph.elect_ne_any (h.seen_grows fun u hlt hu => ?_) hv
      exact ih u.index (hindex ▸ hlt) u hu rfl
    · rwa [hrev.other v hin]

/-- A turn after the first round has a turn of a joined value behind it. -/
theorem Latest.exists_cause (h : Latest g values n f f') (hc : g.Consistent)
    (hopen : ∀ v ∈ values, g.IsOpen v) (hrev : Revised g values f' f'') {b : Behavior}
    (hb : b ≠ .any) {v : ValueId} (hturn : Turns f' f'' b v) :
    ∃ w, g.Joined w v ∧ (w.index < v.index ∧ Turns f' f'' b w ∨
      ¬w.index < v.index ∧ Turns f f' b w) := by
  have hin := hrev.mem_of_turns hturn
  obtain ⟨hbefore, hafter⟩ := hturn
  rw [h.revised.elected v hin] at hbefore
  rw [hrev.elected v hin] at hafter
  obtain ⟨w, hjoin, hnow, hthen⟩ := hc.exists_turned (hopen v hin).live
    (h.seen_grows fun u _ => h.grows_next hrev u) hb hafter hbefore
  refine ⟨w, hjoin, ?_⟩
  unfold seen at hnow hthen
  by_cases hlt : w.index < v.index
  · rw [if_pos hlt] at hnow hthen
    exact Or.inl ⟨hlt, hthen, hnow⟩
  · rw [if_neg hlt] at hnow hthen
    exact Or.inr ⟨hlt, hthen, hnow⟩

/-- One more round makes the trails one longer. -/
theorem Latest.next (h : Latest g values n f f') (hc : g.Consistent) {depth : ValueId → Nat}
    (hf : g.Forest depth) (hopen : ∀ v ∈ values, g.IsOpen v) (hrev : Revised g values f' f'') :
    Latest g values (n + 1) f' f'' where
  revised := hrev
  grows := h.grows_next hrev
  trail {b v} hb hturn := by
    induction hindex : v.index using Nat.strongRecOn generalizing v with
    | ind i ih =>
      obtain ⟨w, rest, hjoin, hheld, htrail, hvalues, hlength, hback⟩ :
          ∃ w rest, g.Joined w v ∧ Held f' f'' b v w ∧ g.Trail (w :: rest) ∧
            (∀ u ∈ w :: rest, u ∈ values) ∧ n ≤ rest.length + 1 ∧ rest.head? ≠ some v := by
        obtain ⟨w, hjoin, ⟨hlt, hw⟩ | ⟨hge, hw⟩⟩ := h.exists_cause hc hopen hrev hb hturn
        · -- turned earlier in this round: its trail is long enough already
          obtain ⟨rest, htrail, hvalues, hlength, hheld⟩ := ih w.index (hindex ▸ hlt) hw rfl
          refine ⟨w, rest, hjoin, Or.inl ⟨hlt, hw.after⟩, htrail, hvalues, by omega, ?_⟩
          intro hback
          rcases hheld v hback with ⟨hbefore, _⟩ | ⟨_, hold⟩
          · exact Nat.lt_asymm hlt hbefore
          · exact hturn.before hold
        · -- turned in the round before: `v` makes its trail one longer
          obtain ⟨rest, htrail, hvalues, hlength, hheld⟩ := h.trail hb hw
          have hlt : v.index < w.index := by
            refine Nat.lt_of_le_of_ne (Nat.not_lt.mp hge) fun heq => ?_
            obtain rfl : v = w := congrArg ValueId.mk heq
            exact Nat.lt_irrefl _ (hjoin.elim hf.depth_lt hf.depth_lt)
          refine ⟨w, rest, hjoin, Or.inr ⟨hlt, hw.after⟩, htrail, hvalues, hlength, ?_⟩
          intro hback
          rcases hheld v hback with ⟨_, hold⟩ | ⟨hbefore, _⟩
          · exact hturn.before hold
          · exact Nat.lt_asymm hlt hbefore
      have hmem := List.forall_mem_cons.mpr ⟨hrev.mem_of_turns hturn, hvalues⟩
      refine ⟨w :: rest, ⟨hjoin.symm, hback, htrail⟩, hmem, ?_, ?_⟩
      · exact Nat.succ_le_succ hlength
      · rintro _ ⟨⟩
        exact hheld

/-- A round with a change is one of as many as there are values at most. -/
theorem Latest.le_length (h : Latest g values n f f') {depth : ValueId → Nat}
    (hf : g.Forest depth) (hne : f' ≠ f) : n ≤ values.length := by
  obtain ⟨v, hv⟩ := Function.ne_iff.mp hne
  have hdecided : f' v ≠ .any := by
    intro hany
    exact h.grows v (fun hany' => hv (hany.trans hany'.symm)) hany
  obtain ⟨rest, htrail, hvalues, hlength, _⟩ := h.trail hdecided ⟨Ne.symm hv, rfl⟩
  have hnodup := htrail.nodup hf
  exact hlength.trans (List.subperm_of_subset hnodup hvalues).length_le

end

namespace Voting
variable {g : Graph} {values : List ValueId} {p q : Poll} {n : Nat} {depth : ValueId → Nat}

/-- After `n` rounds with a change, the last of them is the `n`-th round. -/
theorem latest (h : Voting g values) (hf : g.Forest depth) (hp : p.Fits g)
    (hstart : ∀ v, g.IsOpen v → p.stance v = .any) (hrun : Rounds g values p n q) :
    q.Fits g ∧ (n = 0 ∧ q = p ∨ ∃ f, Latest g values n f q.stance ∧ q.stance ≠ f) := by
  induction hrun with
  | none => exact ⟨hp, Or.inl ⟨rfl, rfl⟩⟩
  | @next n q r before last ih =>
    obtain ⟨hfits, hlast⟩ := ih
    obtain ⟨_, _, hr, hrfits, hrev, hchanged⟩ := h.exists_round hfits
    rw [last] at hr
    cases hr
    refine ⟨hrfits, Or.inr ⟨q.stance, ?_, hchanged rfl⟩⟩
    rcases hlast with ⟨rfl, rfl⟩ | ⟨f, hlatest, _⟩
    · exact hrev.latest fun v hv => hstart v ((h.mem_iff v).mp hv)
    · exact hlatest.next h.consistent hf (fun v hv => (h.mem_iff v).mp hv) hrev

theorem le_length (h : Voting g values) (hf : g.Forest depth) (hp : p.Fits g)
    (hstart : ∀ v, g.IsOpen v → p.stance v = .any) (hrun : Rounds g values p n q) :
    n ≤ values.length := by
  rcases (h.latest hf hp hstart hrun).2 with ⟨rfl, _⟩ | ⟨f, hlatest, hne⟩
  · exact Nat.zero_le _
  · exact hlatest.le_length hf hne

/-- The rounds with a change come to an end. -/
theorem exists_rounds (h : Voting g values) (hf : g.Forest depth) (hp : p.Fits g)
    (hstart : ∀ v, g.IsOpen v → p.stance v = .any) :
    ∃ n q, n ≤ values.length ∧ Rounds g values p n q ∧ round g values q = .ok (q, false) := by
  have hgoes (k : Nat) : (∃ n q, Rounds g values p n q ∧ round g values q = .ok (q, false)) ∨
      ∃ q, Rounds g values p k q := by
    induction k with
    | zero => exact Or.inr ⟨p, .none⟩
    | succ k ih =>
      rcases ih with hend | ⟨q, hrun⟩
      · exact Or.inl hend
      · obtain ⟨r, changed, hr, _⟩ := h.exists_round (h.latest hf hp hstart hrun).1
        cases changed with
        | true => exact Or.inr ⟨r, hrun.next hr⟩
        | false =>
          obtain ⟨rfl, _⟩ := eq_of_round_unchanged hr
          exact Or.inl ⟨k, r, hrun, hr⟩
  rcases hgoes (values.length + 1) with ⟨n, q, hrun, hlast⟩ | ⟨q, hrun⟩
  · exact ⟨n, q, h.le_length hf hp hstart hrun, hrun, hlast⟩
  · exact absurd (h.le_length hf hp hstart hrun) (Nat.not_succ_le_self _)

end Voting

/-- The votes on the open values of a graph with a schedule settle: some number of rounds, no more
than there are open values, changes something, and the next one changes nothing and ends the loop,
with every open value at the winner of its ballot. So the loop of inference, which stops after one
round more than there are open values, never stops for that reason, and the types are concluded from
the votes that no further round would change. -/
theorem votes_settle {g : Graph} (hc : g.Consistent) (ht : g.CallsTyped) {order : List OpId}
    (hs : g.schedule = .ok order) :
    ∃ start opened p, openPoll g g.values.list = .ok start ∧ start.voted.map (·.1) = opened ∧
      (∀ v, v ∈ opened ↔ g.IsOpen v) ∧
      (∃ n ≤ opened.length, Rounds g opened start n p) ∧ round g opened p = .ok (p, false) ∧
      (∀ limit, opened.length < limit → settle g opened limit start = .ok p) ∧
      settle g opened (opened.length + 1) start = .ok p ∧ infer g = .ok (conclude g p) ∧
      ∀ v ∈ opened, ∃ b, ballot g p v = .ok b ∧ (p.voted.get? v).join = b.winner := by
  obtain ⟨start, hstart, hfits, hundecided⟩ := exists_openPoll hc
  have hvoting := hfits.voting hc ht
  obtain ⟨n, p, hle, hrun, hlast⟩ := hvoting.exists_rounds (hc.forest hs) hfits hundecided
  have hsettle (limit : Nat) (hlimit : (start.voted.map (·.1)).length < limit) :
      settle g (start.voted.map (·.1)) limit start = .ok p :=
    hrun.settle_eq hlast (Nat.lt_of_le_of_lt hle hlimit)
  have hcap := hsettle _ (Nat.lt_succ_self _)
  have hwinners := (eq_of_round_unchanged hlast).2
  exact ⟨start, _, p, hstart, rfl, hfits.mem_keys, ⟨n, hle, hrun⟩, hlast, hsettle, hcap,
    infer_eq_conclude hc ht hstart hcap, hwinners⟩

/-- A load takes what is on entry for an integer, until both its copies turn out to be floats. -/
def contestedEntry : Graph :=
  Graph.replay [.newEntry ⟨.ram, 16, 8⟩, .newOutput 8, .newOutput 8, .newOutput 8, .newOutput 8,
    .newOutput 8, .addLinked (.binary .floatAdd ⟨3⟩ ⟨1⟩ ⟨1⟩), .addLinked (.copy ⟨1⟩ ⟨0⟩),
    .addLinked (.copy ⟨2⟩ ⟨0⟩), .addLinked (.load ⟨4⟩ .ram ⟨0⟩),
    .addLinked (.call { name := "hypot", inputs := [.float, .float], output := .float } (some ⟨5⟩)
      [⟨2⟩, ⟨2⟩] [.float, .float] {})] {}

theorem contestedEntry_votes_settle :
    contestedEntry.Consistent ∧ contestedEntry.CallsTyped ∧
      contestedEntry.schedule = .ok [⟨1⟩, ⟨0⟩, ⟨2⟩, ⟨3⟩, ⟨4⟩] ∧
      ∃ start opened p, openPoll contestedEntry contestedEntry.values.list = .ok start ∧
        start.voted.map (·.1) = opened ∧ (∀ v, v ∈ opened ↔ contestedEntry.IsOpen v) ∧
        (∃ n ≤ opened.length, Rounds contestedEntry opened start n p) ∧
        round contestedEntry opened p = .ok (p, false) ∧
        (∀ limit, opened.length < limit → settle contestedEntry opened limit start = .ok p) ∧
        settle contestedEntry opened (opened.length + 1) start = .ok p ∧
        infer contestedEntry = .ok (conclude contestedEntry p) ∧
        ∀ v ∈ opened, ∃ b, ballot contestedEntry p v = .ok b ∧
          (p.voted.get? v).join = b.winner := by
  have hc : contestedEntry.Consistent :=
    Graph.replay_consistent_of_nodup _ (by decide) (by decide)
  have ht : contestedEntry.CallsTyped := Graph.callsTyped_of_linkedOps (by decide)
  have hs : contestedEntry.schedule = .ok [⟨1⟩, ⟨0⟩, ⟨2⟩, ⟨3⟩, ⟨4⟩] := by decide +kernel
  exact ⟨hc, ht, hs, votes_settle hc ht hs⟩

end Typing
end DefUse
