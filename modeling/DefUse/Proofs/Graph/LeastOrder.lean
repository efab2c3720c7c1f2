import Mathlib.Data.Set.Finite.Basic
import Mathlib.Order.WellFounded
import DefUse.Proofs.Graph.History
import DefUse.Proofs.Graph.Order

namespace DefUse.Graph

/-- All linked operations, each after those it waits for. -/
structure Respects (g : Graph) (order : List OpId) : Prop where
  perm : order.Perm (g.linkedOps.map Prod.fst)
  after : ∀ {before id rest}, order = before ++ id :: rest → ∀ d, g.DependsOn id d → d ∈ before

/-- By ids, the lists are the same, or the first has the lesser id where they first differ. -/
def LexLe (order other : List OpId) : Prop :=
  order = other ∨ List.Lex (fun a b => a.index < b.index) order other

/-- On a circle of operations that wait for each other, or waiting for one that is. -/
def Deadlocked (g : Graph) (id : OpId) : Prop :=
  ∃ c, Relation.ReflTransGen g.DependsOn id c ∧ Relation.TransGen g.DependsOn c c

theorem Deadlocked.next {g : Graph} {id : OpId} (h : g.Deadlocked id) :
    ∃ d, g.DependsOn id d ∧ g.Deadlocked d := by
  obtain ⟨c, hpath, hcycle⟩ := h
  rcases hpath.cases_head with rfl | ⟨d, hd, hpath⟩
  · obtain ⟨d, hd, hback⟩ := Relation.TransGen.head'_iff.mp hcycle
    exact ⟨d, hd, id, hback, hcycle⟩
  · exact ⟨d, hd, c, hpath, hcycle⟩

/-- Where each of finitely many operations waits for another of them, all wait for a circle. -/
theorem deadlocked_of_waiting {g : Graph} {stuck : List OpId}
    (hnext : ∀ id ∈ stuck, ∃ d ∈ stuck, g.DependsOn id d) {id : OpId} (hid : id ∈ stuck) :
    g.Deadlocked id := by
  by_contra hnot
  let S : Set OpId := {x | x ∈ stuck ∧ Relation.ReflTransGen g.DependsOn id x}
  have hfinite : Finite S := (stuck.finite_toSet.subset fun x hx => hx.1).to_subtype
  -- without a circle, one that is reached waits for no other
  let r : S → S → Prop := fun a b => Relation.TransGen g.DependsOn b a
  have htrans : IsTrans S r := ⟨fun a b c hab hbc => Relation.TransGen.trans hbc hab⟩
  have hirrefl : Std.Irrefl r := ⟨fun a ha => hnot ⟨a, a.2.2, ha⟩⟩
  have hwf : WellFounded r := Finite.wellFounded_of_trans_of_irrefl r
  obtain ⟨m, _, hmin⟩ := hwf.has_min Set.univ ⟨⟨id, hid, .refl⟩, trivial⟩
  obtain ⟨d, hd, hdep⟩ := hnext m m.2.1
  exact hmin ⟨d, hd, m.2.2.tail hdep⟩ trivial (.single hdep)

/-- What comes after all it waits for is not deadlocked. -/
theorem not_deadlocked_of_after {g : Graph} {order : List OpId}
    (hafter : ∀ {before id rest}, order = before ++ id :: rest → ∀ d, g.DependsOn id d → d ∈ before)
    {id : OpId} (hid : id ∈ order) : ¬g.Deadlocked id := by
  obtain ⟨before, rest, hsplit⟩ := List.append_of_mem hid
  induction hn : before.length using Nat.strong_induction_on generalizing before id rest with
  | _ n ih =>
    intro hdead
    obtain ⟨d, hdep, hd⟩ := hdead.next
    obtain ⟨front, back, hfront⟩ := List.append_of_mem (hafter hsplit d hdep)
    have hlt : front.length < n := by
      rw [← hn, hfront]
      simp
    have hsplit' : order = front ++ d :: (back ++ id :: rest) := by
      rw [hsplit, hfront]
      simp
    exact ih front.length hlt (by rw [hsplit']; simp) front _ hsplit' rfl hd

theorem DependsOn.needs {g : Graph} {id d : OpId} (h : g.DependsOn id d) : g.Needs id d := by
  obtain ⟨op, hop, hd | ⟨ho, hprev⟩⟩ := h
  · exact ⟨op, hop, Or.inl hd⟩
  · exact ⟨op, hop, Or.inr ⟨ho, hprev.before, hprev.ordered⟩⟩

theorem arrange_sublist (done : List OpId) (left : List (OpId × List OpId)) :
    (arrange done left).2.Sublist left := by
  fun_induction arrange done left with
  | case1 => exact List.Sublist.refl _
  | case2 done left entry hfind ih => exact ih.trans (List.eraseP_sublist ..)

theorem arrange_prefix (done : List OpId) (left : List (OpId × List OpId)) :
    ∃ taken stuck, arrange done left = (done.reverse ++ taken, stuck) := by
  induction done, left using arrange.induct with
  | case1 done left hnone => exact ⟨[], left, by rw [arrange_of_none hnone, List.append_nil]⟩
  | case2 done left entry hfind ih =>
    obtain ⟨taken, stuck, hok⟩ := ih
    exact ⟨entry.1 :: taken, stuck, by rw [arrange_of_some hfind, hok]; simp⟩

/-- Taking the first ready operation each time gives the least order. -/
theorem arrange_le {done taken rest : List OpId} {left stuck : List (OpId × List OpId)}
    (hsorted : left.Pairwise fun a b => a.1.index < b.1.index)
    (hperm : rest.Perm (left.map Prod.fst))
    (hafter : ∀ {before id after}, rest = before ++ id :: after →
      ∀ e ∈ left, e.1 = id → ∀ d ∈ e.2, d ∈ done ∨ d ∈ before)
    (harr : arrange done left = (done.reverse ++ taken, stuck)) :
    LexLe taken rest := by
  induction done, left using arrange.induct generalizing taken rest stuck with
  | case1 done left hnone =>
    rw [arrange_of_none hnone] at harr
    obtain rfl : taken = [] := by simpa using congrArg Prod.fst harr
    cases rest with
    | nil => exact Or.inl rfl
    | cons id rest => exact Or.inr .nil
  | case2 done left entry hfind ih =>
    obtain ⟨hready, before, after, hleft, hbefore, herase⟩ := split_of_find? hfind
    rw [herase] at ih
    obtain ⟨more, stuck', hmore⟩ := arrange_prefix (entry.1 :: done) (before ++ after)
    obtain rfl : taken = entry.1 :: more := by
      rw [arrange_of_some hfind, herase, hmore] at harr
      simpa using (congrArg Prod.fst harr).symm
    cases rest with
    | nil =>
      have hlen := hperm.length_eq
      simp [hleft] at hlen
    | cons id rest =>
      -- the head of the other order is ready, so it is not before the first ready operation
      obtain ⟨e, he, rfl⟩ := List.mem_map.mp (hperm.mem_iff.mp List.mem_cons_self)
      have heready : isReady done e = true := by
        simp only [isReady, List.all_eq_true, List.contains_eq_mem, decide_eq_true_eq]
        intro d hd
        simpa using hafter (List.nil_append _).symm e he rfl d hd
      rw [hleft] at hsorted
      obtain ⟨hsortedB, hsortedA, hsortedBA⟩ := List.pairwise_append.mp hsorted
      obtain ⟨hfirst, hsortedA'⟩ := List.pairwise_cons.mp hsortedA
      rw [hleft, List.mem_append, List.mem_cons] at he
      rcases he with hin | rfl | hin
      · rw [hbefore e hin] at heready
        cases heready
      · have hrest : LexLe more rest := by
          refine ih ?_ ?_ ?_ hmore
          · exact List.pairwise_append.mpr ⟨hsortedB, hsortedA',
              fun a ha b hb => hsortedBA a ha b (List.mem_cons_of_mem _ hb)⟩
          · have hmiddle := hperm
            rw [hleft, List.map_append, List.map_cons] at hmiddle
            rw [List.map_append]
            exact (hmiddle.trans List.perm_middle).cons_inv
          · intro front id back hsplit e' he' hid d hd
            have hin : e' ∈ left := by
              rw [hleft]
              exact List.perm_middle.mem_iff.mpr (List.mem_cons_of_mem _ he')
            have hcons : e.1 :: rest = (e.1 :: front) ++ id :: back := by rw [hsplit]; rfl
            rcases hafter hcons e' hin hid d hd with hdone | hfront
            · exact Or.inl (List.mem_cons_of_mem _ hdone)
            · rcases List.mem_cons.mp hfront with rfl | hfront
              · exact Or.inl List.mem_cons_self
              · exact Or.inr hfront
        exact hrest.imp (congrArg _) .cons
      · exact Or.inr (.rel (hfirst e hin))

section
variable {g : Graph} {entries stuck : List (OpId × List OpId)} {taken : List OpId}

theorem Arranged.after (h : g.Arranged entries taken stuck) {before rest : List OpId} {id : OpId}
    (hsplit : taken = before ++ id :: rest) (d : OpId) (hd : g.DependsOn id d) : d ∈ before := by
  have hfeas := h.feasible
  rw [hsplit] at hfeas
  exact (hfeas.needs_before hd.needs).resolve_left (Set.notMem_empty d)

theorem Arranged.mem_iff (h : g.Arranged entries taken stuck) {id : OpId} :
    (g.linked? id).isSome = true ↔ id ∈ taken ∨ id ∈ stuck.map Prod.fst := by
  rw [← List.mem_append, h.perm.mem_iff]
  exact isSome_linked?_iff

/-- What is left over is what waits for a circle. -/
theorem Arranged.mem_stuck_iff (hc : g.Consistent) (h : g.Arranged entries taken stuck)
    {id : OpId} : id ∈ stuck.map Prod.fst ↔ g.Deadlocked id := by
  constructor
  · refine deadlocked_of_waiting fun id hid => ?_
    obtain ⟨e, he, rfl⟩ := List.mem_map.mp hid
    obtain ⟨hin, hnot⟩ := h.stuck e he
    obtain ⟨d, hd, hleft⟩ : ∃ d ∈ e.2, d ∉ taken := by simpa [isReady] using hnot
    have hdep := ((h.entry e hin).depends d).mp hd
    exact ⟨d, (h.mem_iff.mp (hc.linked_of_needs hdep.needs)).resolve_left hleft, hdep⟩
  · intro hdead
    obtain ⟨d, ⟨op, hop, _⟩, _⟩ := hdead.next
    refine (h.mem_iff.mp (Option.isSome_of_eq_some hop)).resolve_left fun hin => ?_
    exact not_deadlocked_of_after h.after hin hdead

/-- Without a circle, the schedule is the least order that respects what operations wait for. -/
theorem Arranged.schedule_of_acyclic (hc : g.Consistent) (h : g.Arranged entries taken stuck)
    (hacyclic : ∀ id, ¬Relation.TransGen g.DependsOn id id) :
    g.schedule = .ok taken ∧ g.Respects taken ∧ ∀ other, g.Respects other → LexLe taken other := by
  have hnil : stuck = [] := by
    refine List.eq_nil_iff_forall_not_mem.mpr fun e he => ?_
    obtain ⟨c, _, hcycle⟩ := (h.mem_stuck_iff hc).mp (List.mem_map_of_mem he)
    exact hacyclic c hcycle
  subst hnil
  have hperm := h.perm
  rw [List.map_nil, List.append_nil] at hperm
  refine ⟨h.schedule, ⟨hperm, h.after⟩, fun other hother => ?_⟩
  have harr : Graph.arrange [] entries = (([] : List OpId).reverse ++ taken, []) := h.arrange
  refine arrange_le (pairwise_of_ids h.ids) (h.ids ▸ hother.perm) ?_ harr
  intro before id rest hsplit e he hid d hd
  exact Or.inr (hother.after hsplit d (hid ▸ ((h.entry e he).depends d).mp hd))

/-- With a circle, the schedule names the first operation that waits for one. -/
theorem Arranged.schedule_of_cycle (hc : g.Consistent) (h : g.Arranged entries taken stuck)
    {c : OpId} (hcycle : Relation.TransGen g.DependsOn c c) :
    ∃ id, g.schedule = .error (.cycle id) ∧ g.Deadlocked id ∧
      ∀ other, g.Deadlocked other → id.index ≤ other.index := by
  have hmem := (h.mem_stuck_iff hc).mpr ⟨c, .refl, hcycle⟩
  have hsorted : stuck.Pairwise fun a b => a.1.index < b.1.index := by
    have hsub := arrange_sublist [] entries
    rw [h.arrange] at hsub
    exact (pairwise_of_ids h.ids).sublist hsub
  cases stuck with
  | nil => cases hmem
  | cons first rest =>
    refine ⟨first.1, h.schedule, (h.mem_stuck_iff hc).mp List.mem_cons_self, fun other hother => ?_⟩
    obtain ⟨e, he, rfl⟩ := List.mem_map.mp ((h.mem_stuck_iff hc).mpr hother)
    rcases List.mem_cons.mp he with rfl | he
    · exact Nat.le_refl _
    · exact Nat.le_of_lt ((List.pairwise_cons.mp hsorted).1 e he)

end

namespace Progress
variable {entries : List (OpId × List OpId)}

/-- In the next step a count of zero is counted down. -/
def Underflows (entries : List (OpId × List OpId)) (s : Progress) : Prop :=
  ∃ id ready before other after, s.ready = id :: ready ∧
    dependents entries id = before ++ other :: after ∧
      (before.foldl countDown (s.take id ready)).pending.get? other = some 0

/-- `t` comes after `s` in some number of steps. -/
abbrev Reaches (entries : List (OpId × List OpId)) : Progress → Progress → Prop :=
  Relation.ReflTransGen fun s t => s.step entries = some t

theorem tracks_of_reaches (hsorted : entries.Pairwise fun a b => a.1.index < b.1.index)
    {s : Progress} (hs : Reaches entries (start entries) s) : ∃ done, Tracks entries done s := by
  induction hs with
  | refl => exact ⟨[], tracks_start hsorted⟩
  | tail _ hstep ih =>
    obtain ⟨done, htracks⟩ := ih
    unfold step at hstep
    split at hstep
    next => cases hstep
    next id ready hready =>
      obtain rfl := Option.some.inj hstep
      exact ⟨id :: done, htracks.take hsorted hready⟩

theorem not_underflows_of_reaches (hsorted : entries.Pairwise fun a b => a.1.index < b.1.index)
    {s : Progress} (hs : Reaches entries (start entries) s) : ¬s.Underflows entries := by
  obtain ⟨done, htracks⟩ := tracks_of_reaches hsorted hs
  rintro ⟨id, ready, before, other, after, hready, hsplit, hzero⟩
  exact htracks.count_pos (nodup_keys hsorted) hready hsplit hzero

/-- When some operation was not taken, there is one that still waits. -/
theorem isSome_stuck? (hsorted : entries.Pairwise fun a b => a.1.index < b.1.index)
    (hshort : ((start entries).drain entries).order.length ≠
      ((start entries).drain entries).pending.length) :
    ((start entries).drain entries).stuck?.isSome = true := by
  obtain ⟨done, htracks, hempty, _⟩ := (tracks_start hsorted).drain hsorted
  have hlength : ((start entries).drain entries).pending.length = entries.length := by
    rw [← List.length_map (f := Prod.fst), htracks.keys, List.length_map]
  rw [htracks.stuck?_eq (nodup_keys hsorted) hempty]
  rw [htracks.order, hlength] at hshort
  cases hleft : left entries done with
  | nil =>
    have htotal := htracks.total
    rw [hleft] at htotal
    exact absurd (by simpa using htotal) hshort
  | cons e rest => rfl

end Progress

/-- The schedule of a consistent graph is the least order that respects what operations wait for, or
it is refused with the first operation that waits for a circle; no count runs below zero on the way,
and the operation named is always one that was found waiting. -/
theorem schedule_is_least {g : Graph} (hc : g.Consistent) :
    ((∀ id, ¬Relation.TransGen g.DependsOn id id) →
      ∃ order, g.schedule = .ok order ∧ g.Respects order ∧
        ∀ other, g.Respects other → LexLe order other) ∧
    ((∃ id, Relation.TransGen g.DependsOn id id) →
      ∃ id, g.schedule = .error (.cycle id) ∧ g.Deadlocked id ∧
        ∀ other, g.Deadlocked other → id.index ≤ other.index) ∧
    ∃ entries, g.waits none g.linkedOps = .ok entries ∧
      (∀ s, Progress.Reaches entries (Progress.start entries) s → ¬s.Underflows entries) ∧
      (((Progress.start entries).drain entries).order.length ≠
          ((Progress.start entries).drain entries).pending.length →
        ((Progress.start entries).drain entries).stuck?.isSome = true) := by
  obtain ⟨entries, taken, stuck, h⟩ := hc.arranged
  have hsorted := pairwise_of_ids h.ids
  refine ⟨fun hacyclic => ⟨taken, h.schedule_of_acyclic hc hacyclic⟩,
    fun ⟨c, hcycle⟩ => h.schedule_of_cycle hc hcycle, entries, h.waits, ?_, ?_⟩
  · exact fun s hs => Progress.not_underflows_of_reaches hsorted hs
  · exact Progress.isSome_stuck? hsorted

/-- A load whose copy was created first, two copies that read each other, and a copy of one of
them. -/
def crossedCopies : Graph :=
  replay [.newEntry ⟨.ram, 16, 8⟩, .newOutput 8, .newOutput 8, .newOutput 8, .newOutput 8,
    .newOutput 8, .addLinked (.copy ⟨2⟩ ⟨1⟩), .addLinked (.load ⟨1⟩ .ram ⟨0⟩),
    .addLinked (.copy ⟨5⟩ ⟨4⟩), .addLinked (.copy ⟨3⟩ ⟨4⟩), .addLinked (.copy ⟨4⟩ ⟨3⟩)] {}

theorem crossedCopies_are_refused :
    crossedCopies.Consistent ∧ Relation.TransGen crossedCopies.DependsOn ⟨3⟩ ⟨3⟩ ∧
      ∃ id, crossedCopies.schedule = .error (.cycle id) ∧ crossedCopies.Deadlocked id ∧
        ∀ other, crossedCopies.Deadlocked other → id.index ≤ other.index := by
  have hc : crossedCopies.Consistent := replay_consistent_of_nodup _ (by decide) (by decide)
  have hthree : crossedCopies.DependsOn ⟨3⟩ ⟨4⟩ :=
    ⟨.copy ⟨3⟩ ⟨4⟩, by decide, Or.inl ⟨⟨4⟩, by decide, _, rfl, by decide⟩⟩
  have hfour : crossedCopies.DependsOn ⟨4⟩ ⟨3⟩ :=
    ⟨.copy ⟨4⟩ ⟨3⟩, by decide, Or.inl ⟨⟨3⟩, by decide, _, rfl, by decide⟩⟩
  have hcycle := (Relation.TransGen.single hthree).tail hfour
  exact ⟨hc, hcycle, (schedule_is_least hc).2.1 ⟨⟨3⟩, hcycle⟩⟩

end DefUse.Graph
