import Mathlib.Order.Minimal
import DefUse.Proofs.Typing.Settling

namespace DefUse

namespace Behavior

theorem resolve_float {size : Nat} (h : size = 4 ∨ size = 8) :
    float.resolve size = some (.float size) := by
  rcases h with rfl | rfl <;> rfl

theorem resolve_float_eq_none {size : Nat} (h : ¬(size = 4 ∨ size = 8)) :
    float.resolve size = none := by
  unfold resolve
  split <;> simp_all

end Behavior

namespace Graph

/-- A copy between two values of `C`. -/
def JoinedIn (g : Graph) (C : Set ValueId) (a b : ValueId) : Prop :=
  g.Joined a b ∧ a ∈ C ∧ b ∈ C

/-- Open values that copies between them connect. -/
structure CopyConnected (g : Graph) (C : Set ValueId) : Prop where
  isOpen : ∀ v ∈ C, g.IsOpen v
  reaches : ∀ u ∈ C, ∀ v ∈ C, Relation.ReflTransGen (g.JoinedIn C) u v

/-- A largest set of open values that copies connect. -/
def CopyGroup (g : Graph) (C : Set ValueId) : Prop :=
  Maximal g.CopyConnected C

/-- Something says that the values of a group are of the category `b`. -/
inductive Evidence (g : Graph) (C : Set ValueId) (b : Behavior) : Prop
  /-- An operation that is no copy asks it of a value of the group. -/
  | asked {v : ValueId} {id : OpId} {op : Operation} {i : Nat} (hv : v ∈ C)
      (hop : g.linked? id = some op) (hcopy : op.isTransparent = false)
      (hin : op.inputs[i]? = some v) (hasked : op.inputAt? i = some b) (hb : b.isConcrete = true)
  /-- A value of the group is a copy of one that its definer declares to be of it. -/
  | declared {v u : ValueId} (hv : v ∈ C) (hcopy : g.Copies v u) (hdeclared : g.Declares u b)

section
variable {g : Graph} {C : Set ValueId} {u v : ValueId}

theorem CopyConnected.grow (hC : g.CopyConnected C) (hv : v ∈ C) (hu : g.IsOpen u)
    (hjoin : g.Joined v u) : g.CopyConnected (insert u C) := by
  have hkeep {a b : ValueId} (ha : a ∈ C) (hb : b ∈ C) :
      Relation.ReflTransGen (g.JoinedIn (insert u C)) a b := by
    refine Relation.ReflTransGen.mono ?_ a b (hC.reaches a ha b hb)
    rintro c d ⟨hcd, hc, hd⟩
    exact ⟨hcd, Set.mem_insert_of_mem u hc, Set.mem_insert_of_mem u hd⟩
  have hvC := Set.mem_insert_of_mem u hv
  have huC := Set.mem_insert u C
  refine ⟨Set.forall_mem_insert.mpr ⟨hu, hC.isOpen⟩, ?_⟩
  rintro a (rfl | ha) b (rfl | hb)
  · exact .refl
  · exact .head ⟨hjoin.symm, huC, hvC⟩ (hkeep hv hb)
  · exact .tail (hkeep ha hv) ⟨hjoin, hvC, huC⟩
  · exact hkeep ha hb

/-- An open value that a copy joins to a group is in it. -/
theorem CopyGroup.mem_of_joined (hC : g.CopyGroup C) (hv : v ∈ C) (hu : g.IsOpen u)
    (hjoin : g.Joined v u) : u ∈ C :=
  hC.2 (hC.1.grow hv hu hjoin) (Set.subset_insert u C) (Set.mem_insert u C)

/-- A connected set that no copy leads out of is a group. -/
theorem CopyConnected.copyGroup (hC : g.CopyConnected C) (hv : v ∈ C)
    (hclosed : ∀ a ∈ C, ∀ b, g.Joined a b → b ∈ C) : g.CopyGroup C := by
  refine ⟨hC, fun D hD hsub u hu => ?_⟩
  induction hD.reaches v (hsub hv) u hu with
  | refl => exact hv
  | tail _ hstep ih => exact hclosed _ (ih hstep.2.1) _ hstep.1

end

end Graph

namespace Typing
variable {g : Graph} {C : Set ValueId} {values : List ValueId} {p q : Poll}

theorem Poll.Fits.stance_of_declares (hp : p.Fits g) {v : ValueId} {b : Behavior}
    (h : g.Declares v b) : p.stance v = b := by
  simp only [stance, known?, (hp.declared v b).mpr h]
  rfl

theorem Poll.Fits.known?_eq_of_stance (hp : p.Fits g) {v : ValueId} (hv : g.IsOpen v)
    {known : Option Behavior} (hk : known ≠ some .any) (h : p.stance v = known.getD .any) :
    p.known? v = known :=
  (hp.known?_eq hv).trans ((hp.voted_eq_iff hv hk).mpr h)

/-- Only what a definer declares is known of a value that is not open. -/
theorem Poll.Fits.declares_stance (hp : p.Fits g) {v : ValueId} (hv : ¬g.IsOpen v)
    (hne : p.stance v ≠ .any) : g.Declares v (p.stance v) := by
  cases hdeclared : p.declared.get? v with
  | some b =>
    have hb := (hp.declared v b).mp hdeclared
    rwa [hp.stance_of_declares hb]
  | none =>
    have hvoted : p.voted.get? v = none := by
      rw [Option.eq_none_iff_forall_ne_some]
      intro winner hwinner
      have hkey := List.mem_map_of_mem (f := Prod.fst) (Assoc.mem_of_get? hwinner)
      exact hv ((hp.mem_keys v).mp hkey)
    simp [stance, known?, hdeclared, hvoted] at hne

/-- What a round decides on a group goes back to evidence, if all that was decided before does. -/
theorem evidence_of_revised (hc : g.Consistent) (hC : g.CopyGroup C) (hp : p.Fits g) (hq : q.Fits g)
    (hvalues : ∀ v ∈ C, v ∈ values) (hrev : Revised g values p.stance q.stance)
    (hold : ∀ v ∈ C, p.stance v ≠ .any → g.Evidence C (p.stance v)) :
    ∀ v ∈ C, q.stance v ≠ .any → g.Evidence C (q.stance v) := by
  intro v hv hne
  -- in the order of the round: a vote may see what was decided earlier in it
  induction hindex : v.index using Nat.strongRecOn generalizing v with
  | ind i ih =>
    obtain ⟨x, hx⟩ := Option.isSome_iff_exists.mp (hC.1.isOpen v hv).live
    have helected := hrev.elected v (hvalues v hv)
    obtain ⟨a, ha, hvote⟩ := List.mem_map.mp (Ballot.mem_of_verdict helected.symm hne)
    cases a with
    | operand asked =>
      rw [← show asked = q.stance v from hvote] at hne ⊢
      obtain ⟨id, op, i, hop, hcopy, hin, hasked⟩ := (hc.operand_mem_voters hx hne).mp ha
      exact .asked hv hop hcopy hin hasked (Behavior.isConcrete_iff.mpr hne)
    | value u =>
      have hjoin := (hc.value_mem_voters hx).mp ha
      have hseen : seen p.stance q.stance v u = q.stance v := hvote
      have hheld : u.index < v.index ∧ q.stance u = q.stance v ∨ p.stance u = q.stance v := by
        unfold seen at hseen
        split at hseen
        next hlt => exact Or.inl ⟨hlt, hseen⟩
        next => exact Or.inr hseen
      by_cases hu : g.IsOpen u
      · have huC := hC.mem_of_joined hv hu hjoin.symm
        rcases hheld with ⟨hlt, heq⟩ | heq
        · rw [← heq] at hne ⊢
          exact ih u.index (hindex ▸ hlt) u huC hne rfl
        · rw [← heq] at hne ⊢
          exact hold u huC hne
      · have hcopy : g.Copies v u := hjoin.resolve_left fun h => hu (hc.isOpen_of_copies h)
        refine .declared hv hcopy ?_
        rcases hheld with ⟨_, heq⟩ | heq
        · rw [← heq] at hne ⊢
          exact hq.declares_stance hu hne
        · rw [← heq] at hne ⊢
          exact hp.declares_stance hu hne

theorem Voting.evidence (h : Voting g values) (hC : g.CopyGroup C) (hp : p.Fits g)
    (hstart : ∀ v, g.IsOpen v → p.stance v = .any) {n : Nat} (hrun : Rounds g values p n q) :
    q.Fits g ∧ ∀ v ∈ C, q.stance v ≠ .any → g.Evidence C (q.stance v) := by
  have hvalues : ∀ v ∈ C, v ∈ values := fun v hv => (h.mem_iff v).mpr (hC.1.isOpen v hv)
  refine h.rounds_induct
    (motive := fun q => ∀ v ∈ C, q.stance v ≠ .any → g.Evidence C (q.stance v)) hp ?_ ?_ hrun
  · intro v hv hne
    exact absurd (hstart v (hC.1.isOpen v hv)) hne
  · intro q r hq hold hr hrev
    exact evidence_of_revised h.consistent hC hq hr hvalues hrev hold

/-- In a settled poll, evidence on a group has decided all its values. -/
theorem decided_of_evidence (hc : g.Consistent) (hC : g.CopyGroup C) (hp : p.Fits g)
    (hstable : ∀ v, g.IsOpen v → p.stance v = g.elect p.stance v) {b : Behavior}
    (h : g.Evidence C b) : ∀ v ∈ C, p.stance v ≠ .any := by
  have hvoted {v : ValueId} (hv : v ∈ C) {a : Voter} (ha : a ∈ g.voters v)
      (hvote : a.vote p.stance ≠ .any) : p.stance v ≠ .any := by
    rw [hstable v (hC.1.isOpen v hv)]
    exact Graph.elect_ne_any_of_mem ha hvote
  have hlive {v : ValueId} (hv : v ∈ C) : ∃ x, g.value? v = some x :=
    Option.isSome_iff_exists.mp (hC.1.isOpen v hv).live
  have hfirst : ∃ u ∈ C, p.stance u ≠ .any := by
    cases h with
    | @asked u id op i hu hop hcopy hin hasked hb =>
      obtain ⟨x, hx⟩ := hlive hu
      have hne := Behavior.isConcrete_iff.mp hb
      have hvoter := (hc.operand_mem_voters hx hne).mpr ⟨id, op, i, hop, hcopy, hin, hasked⟩
      exact ⟨u, hu, hvoted hu hvoter hne⟩
    | @declared u w hu hcopy hdeclared =>
      obtain ⟨x, hx⟩ := hlive hu
      refine ⟨u, hu, hvoted hu ((hc.value_mem_voters hx).mpr (Or.inr hcopy)) ?_⟩
      rw [Voter.vote, hp.stance_of_declares hdeclared]
      exact Behavior.isConcrete_iff.mp hdeclared.1
  intro v hv
  obtain ⟨u, hu, hdecided⟩ := hfirst
  induction hC.1.reaches u hu v hv with
  | refl => exact hdecided
  | @tail a b _ hstep ih =>
    obtain ⟨hjoin, ha, hb⟩ := hstep
    obtain ⟨x, hx⟩ := hlive hb
    exact hvoted hb ((hc.value_mem_voters hx).mpr hjoin) (ih ha)

/-- The type that `t` gives a value of `size` bytes whose category is `b`: a float where floats have
the width, with a report where they do not, and else an integer. -/
def Resolves (t : Typing) (v : ValueId) (size : Nat) (b : Behavior) : Prop :=
  if b = .float then
    if size = 4 ∨ size = 8 then t.typeOf? v = some (.float size)
    else t.typeOf? v = some (.int size) ∧ .floatSize v size ∈ t.diagnostics
  else t.typeOf? v = some (.int size)

theorem resolves_stance {t : Typing} {v : ValueId} {size : Nat}
    (htype : t.typeOf? v = some (decide p v size).1)
    (hreport : (decide p v size).2 ⊆ t.diagnostics) : t.Resolves v size (p.stance v) := by
  unfold Resolves
  by_cases hfloat : p.stance v = .float
  · have hknown : p.known? v = some .float := by
      unfold Poll.stance at hfloat
      cases hk : p.known? v with
      | none =>
        rw [hk] at hfloat
        cases hfloat
      | some b =>
        rw [hk] at hfloat
        exact congrArg some hfloat
    rw [if_pos hfloat]
    by_cases hsize : size = 4 ∨ size = 8
    · rw [if_pos hsize, htype]
      simp [decide, hknown, Behavior.resolve_float hsize]
    · rw [if_neg hsize, htype]
      refine ⟨?_, hreport ?_⟩
      · simp [decide, hknown, Behavior.resolve_float_eq_none hsize]
      · simp [decide, hknown, Behavior.resolve_float_eq_none hsize]
  · rw [if_neg hfloat, htype]
    unfold Poll.stance at hfloat
    cases hknown : p.known? v with
    | none => simp [decide, hknown, Behavior.resolve]
    | some b =>
      cases b with
      | float => simp [hknown] at hfloat
      | _ => simp [decide, hknown, Behavior.resolve]

/-- Evidence of one category on a group of copies decides it for all values of the group, and they
get the type that goes with it; without evidence they are integers. -/
theorem copyGroups_follow_evidence (hc : g.Consistent) (ht : g.CallsTyped) {order : List OpId}
    (hs : g.schedule = .ok order) :
    ∃ start opened p t, openPoll g g.values.list = .ok start ∧ start.voted.map (·.1) = opened ∧
      settle g opened (opened.length + 1) start = .ok p ∧ infer g = .ok t ∧
      ∀ C, g.CopyGroup C →
        (∀ b, g.Evidence C b → (∀ c, g.Evidence C c → c = b) →
          ∀ v ∈ C, ∀ x, g.value? v = some x → p.known? v = some b ∧ t.Resolves v x.size b) ∧
        ((∀ b, ¬g.Evidence C b) →
          ∀ v ∈ C, ∀ x, g.value? v = some x →
            p.known? v = none ∧ t.typeOf? v = some (.int x.size)) := by
  obtain ⟨start, hstart, hfits, hundecided⟩ := exists_openPoll hc
  have hvoting := hfits.voting hc ht
  obtain ⟨n, p, hle, hrun, hlast⟩ := hvoting.exists_rounds (hc.forest hs) hfits hundecided
  have hsettle := hrun.settle_eq hlast (Nat.lt_succ_of_le hle)
  obtain ⟨t, hinfer, htypes⟩ := infer_eq hc ht hstart hsettle
  refine ⟨start, _, p, t, hstart, rfl, hsettle, hinfer, fun C hC => ?_⟩
  obtain ⟨hp, hevidence⟩ := hvoting.evidence hC hfits hundecided hrun
  have hstable := fun v hv => hvoting.stance_eq_elect hp hlast (v := v) hv
  refine ⟨fun b hb hall v hv x hx => ?_, fun hnone v hv x hx => ?_⟩
  · have hne := decided_of_evidence hc hC hp hstable hb v hv
    obtain rfl : p.stance v = b := hall _ (hevidence v hv hne)
    obtain ⟨htype, hreport⟩ := htypes hx
    exact ⟨hp.known?_eq_of_stance (hC.1.isOpen v hv) (by simpa using hne) rfl,
      resolves_stance htype hreport⟩
  · have hany : p.stance v = .any := by
      by_contra hne
      exact hnone _ (hevidence v hv hne)
    obtain ⟨htype, hreport⟩ := htypes hx
    have hresolves := resolves_stance htype hreport
    rw [hany] at hresolves
    exact ⟨hp.known?_eq_of_stance (hC.1.isOpen v hv) nofun hany, hresolves⟩

/-- Copies of what was loaded, at three widths; only the last one is asked to be a float. -/
def narrowedCopies : Graph :=
  Graph.replay [.newEntry ⟨.ram, 16, 8⟩, .newOutput 8, .newOutput 4, .newOutput 2, .newOutput 2,
    .addLinked (.copy ⟨3⟩ ⟨2⟩), .addLinked (.copy ⟨2⟩ ⟨1⟩), .addLinked (.load ⟨1⟩ .ram ⟨0⟩),
    .addLinked (.binary .floatAdd ⟨4⟩ ⟨3⟩ ⟨3⟩)] {}

theorem linked?_narrowedCopies {id : OpId} {op : Operation}
    (h : narrowedCopies.linked? id = some op) :
    op = .copy ⟨3⟩ ⟨2⟩ ∨ op = .copy ⟨2⟩ ⟨1⟩ ∨ op = .load ⟨1⟩ .ram ⟨0⟩ ∨
      op = .binary .floatAdd ⟨4⟩ ⟨3⟩ ⟨3⟩ := by
  have hall : ∀ e ∈ narrowedCopies.linkedOps, e.2 = .copy ⟨3⟩ ⟨2⟩ ∨ e.2 = .copy ⟨2⟩ ⟨1⟩ ∨
      e.2 = .load ⟨1⟩ .ram ⟨0⟩ ∨ e.2 = .binary .floatAdd ⟨4⟩ ⟨3⟩ ⟨3⟩ := by decide
  exact hall _ (Graph.mem_linkedOps_iff.mpr h)

theorem not_declares_narrowedCopies {v : ValueId} (hv : v ∈ ({⟨1⟩, ⟨2⟩, ⟨3⟩} : Set ValueId))
    (b : Behavior) : ¬narrowedCopies.Declares v b := by
  rintro ⟨hb, id, op, hop, hout, htype⟩
  rcases linked?_narrowedCopies hop with rfl | rfl | rfl | rfl
  · cases htype
    cases hb
  · cases htype
    cases hb
  · cases htype
    cases hb
  · cases hout
    simp at hv

theorem joined_narrowedCopies {a b : ValueId} (h : narrowedCopies.Joined a b) :
    a ∈ ({⟨1⟩, ⟨2⟩, ⟨3⟩} : Set ValueId) ∧ b ∈ ({⟨1⟩, ⟨2⟩, ⟨3⟩} : Set ValueId) := by
  rcases h with ⟨id, hop⟩ | ⟨id, hop⟩ <;>
    rcases linked?_narrowedCopies hop with h | h | h | h <;> cases h <;> simp

theorem copyGroup_narrowedCopies : narrowedCopies.CopyGroup {⟨1⟩, ⟨2⟩, ⟨3⟩} := by
  have hone : narrowedCopies.Joined ⟨1⟩ ⟨2⟩ := Or.inr ⟨⟨1⟩, by decide⟩
  have hthree : narrowedCopies.Joined ⟨3⟩ ⟨2⟩ := Or.inl ⟨⟨0⟩, by decide⟩
  have hmiddle : ∀ v ∈ ({⟨1⟩, ⟨2⟩, ⟨3⟩} : Set ValueId),
      Relation.ReflTransGen (narrowedCopies.JoinedIn {⟨1⟩, ⟨2⟩, ⟨3⟩}) v ⟨2⟩ ∧
        Relation.ReflTransGen (narrowedCopies.JoinedIn {⟨1⟩, ⟨2⟩, ⟨3⟩}) ⟨2⟩ v := by
    rintro v (rfl | rfl | rfl)
    · exact ⟨.single ⟨hone, by simp, by simp⟩, .single ⟨hone.symm, by simp, by simp⟩⟩
    · exact ⟨.refl, .refl⟩
    · exact ⟨.single ⟨hthree, by simp, by simp⟩, .single ⟨hthree.symm, by simp, by simp⟩⟩
  have hconnected : narrowedCopies.CopyConnected {⟨1⟩, ⟨2⟩, ⟨3⟩} := by
    refine ⟨fun v hv => ⟨?_, not_declares_narrowedCopies hv⟩, fun u hu v hv => ?_⟩
    · rcases hv with rfl | rfl | rfl <;> decide
    · exact (hmiddle u hu).1.trans (hmiddle v hv).2
  refine hconnected.copyGroup (v := ⟨1⟩) (by simp) fun a _ b hjoin => ?_
  exact (joined_narrowedCopies hjoin).2

theorem narrowedCopies_follow_evidence :
    narrowedCopies.Consistent ∧ narrowedCopies.CallsTyped ∧
      narrowedCopies.schedule = .ok [⟨2⟩, ⟨1⟩, ⟨0⟩, ⟨3⟩] ∧
      narrowedCopies.CopyGroup {⟨1⟩, ⟨2⟩, ⟨3⟩} ∧ narrowedCopies.Evidence {⟨1⟩, ⟨2⟩, ⟨3⟩} .float ∧
      ∃ t, infer narrowedCopies = .ok t ∧ t.typeOf? ⟨1⟩ = some (.float 8) ∧
        t.typeOf? ⟨2⟩ = some (.float 4) ∧ t.typeOf? ⟨3⟩ = some (.int 2) ∧
        .floatSize ⟨3⟩ 2 ∈ t.diagnostics := by
  have hc : narrowedCopies.Consistent :=
    Graph.replay_consistent_of_nodup _ (by decide) (by decide)
  have ht : narrowedCopies.CallsTyped := Graph.callsTyped_of_linkedOps (by decide)
  have hs : narrowedCopies.schedule = .ok [⟨2⟩, ⟨1⟩, ⟨0⟩, ⟨3⟩] := by decide +kernel
  have hgroup := copyGroup_narrowedCopies
  have hadd : narrowedCopies.linked? ⟨3⟩ = some (.binary .floatAdd ⟨4⟩ ⟨3⟩ ⟨3⟩) := rfl
  have hfloat : narrowedCopies.Evidence {⟨1⟩, ⟨2⟩, ⟨3⟩} .float :=
    .asked (v := ⟨3⟩) (i := 0) (by simp) hadd rfl rfl rfl rfl
  have hall : ∀ c, narrowedCopies.Evidence {⟨1⟩, ⟨2⟩, ⟨3⟩} c → c = .float := by
    rintro c (⟨hv, hop, hcopy, hin, hasked, _⟩ | ⟨_, hcopy, hdeclared⟩)
    · rcases linked?_narrowedCopies hop with rfl | rfl | rfl | rfl
      · cases hcopy
      · cases hcopy
      · have hzero := List.mem_singleton.mp (List.mem_of_getElem? hin)
        simp [hzero] at hv
      · have htype := List.mem_of_getElem? hasked
        simpa [Operation.inputTypes, BinaryOpcode.input] using htype
    · have hmem := (joined_narrowedCopies (Or.inl hcopy)).2
      exact absurd hdeclared (not_declares_narrowedCopies hmem c)
  obtain ⟨start, opened, p, t, _, _, _, hinfer, hgroups⟩ := copyGroups_follow_evidence hc ht hs
  have hdecided := (hgroups _ hgroup).1 .float hfloat hall
  have hone := (hdecided ⟨1⟩ (by simp) _ rfl).2
  have htwo := (hdecided ⟨2⟩ (by simp) _ rfl).2
  have hthree := (hdecided ⟨3⟩ (by simp) _ rfl).2
  exact ⟨hc, ht, hs, hgroup, hfloat, t, hinfer, hone, htwo, hthree⟩

end Typing
end DefUse
