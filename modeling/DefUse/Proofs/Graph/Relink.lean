import DefUse.Proofs.Graph.History

namespace DefUse

theorem append_diff_of_disjoint {xs ys zs : List Use} (h : ∀ u ∈ zs, u ∉ ys) :
    (xs ++ ys).diff zs = xs.diff zs ++ ys := by
  induction zs generalizing xs with
  | nil => simp
  | cons u rest ih =>
    have hu : u ∉ ys := h u List.mem_cons_self
    have herase : (xs ++ ys).erase u = xs.erase u ++ ys := by
      rw [List.erase_append]
      split
      next => rfl
      next hnot => rw [List.erase_of_not_mem hu, List.erase_of_not_mem hnot]
    rw [List.diff_cons, List.diff_cons, herase]
    exact ih fun w hw => h w (List.mem_cons_of_mem u hw)

theorem append_diff_self {xs zs : List Use} (h : ∀ u ∈ zs, u ∉ xs) : (xs ++ zs).diff zs = xs := by
  induction zs with
  | nil => simp
  | cons u rest ih =>
    have hu : u ∉ xs := h u List.mem_cons_self
    rw [List.diff_cons, List.erase_append_right _ hu, List.erase_cons_head]
    exact ih fun w hw => h w (List.mem_cons_of_mem u hw)

namespace Operation
variable {op p : Operation} {id other : OpId} {v : ValueId} {x : Value} {vs : Values}

/-- On each value, unlinking takes back what linking recorded. -/
theorem unrecord_record (hdef : op.output = some v → x.definer = none)
    (huses : ∀ i, op.inputs[i]? = some v → ⟨id, i⟩ ∉ x.uses) :
    op.unrecord id v (op.record id v x) = x := by
  have hdiff : (x.uses ++ Values.reads id 0 op.inputs v).diff (Values.reads id 0 op.inputs v) =
      x.uses := by
    apply append_diff_self
    intro u hu
    obtain ⟨hid, hin⟩ := Values.mem_reads_zero.mp hu
    rw [← hid] at huses
    exact huses u.position hin
  by_cases hout : op.output = some v
  · have hfree : x.definer = none := hdef hout
    cases x
    simp only at hdiff hfree
    simp [unrecord, record, hdiff, hout, hfree]
  · simp [unrecord, record, hdiff, hout]

/-- And it takes back nothing of what another operation recorded later. -/
theorem unrecord_record_comm (hid : id ≠ other) (hout : op.output = some v → p.output ≠ some v) :
    op.unrecord id v (p.record other v x) = p.record other v (op.unrecord id v x) := by
  have hdiff : (x.uses ++ Values.reads other 0 p.inputs v).diff (Values.reads id 0 op.inputs v) =
      x.uses.diff (Values.reads id 0 op.inputs v) ++ Values.reads other 0 p.inputs v := by
    apply append_diff_of_disjoint
    intro u hu hu'
    have hleft := (Values.mem_reads_zero.mp hu).1
    have hright := (Values.mem_reads_zero.mp hu').1
    exact hid (hleft.symm.trans hright)
  by_cases hv : op.output = some v
  · simp [unrecord, record, hdiff, hv, hout hv]
  · simp [unrecord, record, hdiff, hv]

theorem Linkable.recorded (h : op.Linkable id vs) : op.Recorded id (vs.mapAll (op.record id)) where
  output v hv := by
    obtain ⟨x, hx, _⟩ := h.output v hv
    exact ⟨op.record id v x, by simp [hx], by simp [record, hv]⟩
  inputs i v hi := by
    obtain ⟨x, hx, _⟩ := h.inputs i v hi
    have huse : (⟨id, i⟩ : Use) ∈ Values.reads id 0 op.inputs v :=
      Values.mem_reads_zero.mpr ⟨rfl, hi⟩
    exact ⟨op.record id v x, by simp [hx], List.mem_append_right _ huse⟩

/-- Another linked operation stands in the way only if it has the same output. -/
theorem linkable_mapAll_record_iff (hid : id ≠ other) :
    op.Linkable id (vs.mapAll (p.record other)) ↔
      op.Linkable id vs ∧ ∀ v, op.output = some v → p.output ≠ some v := by
  have huse : ∀ {i v} {x : Value},
      ⟨id, i⟩ ∉ (p.record other v x).uses ↔ (⟨id, i⟩ : Use) ∉ x.uses := by
    intro i v x
    have hnot : (⟨id, i⟩ : Use) ∉ Values.reads other 0 p.inputs v := by
      intro hu
      exact hid (Values.mem_reads_zero.mp hu).1
    simp [record, hnot]
  constructor
  · intro h
    have houtput : ∀ v, op.output = some v →
        (∃ x, vs.value? v = some x ∧ x.origin = .output ∧ x.definer = none) ∧
          p.output ≠ some v := by
      intro v hv
      obtain ⟨y, hy, horigin, hdef⟩ := h.output v hv
      rw [Values.value?_mapAll] at hy
      obtain ⟨x, hx, rfl⟩ := Option.map_eq_some_iff.mp hy
      have hp : p.output ≠ some v := by
        intro hp
        simp [record, hp] at hdef
      simp only [record, if_neg hp] at horigin hdef
      exact ⟨⟨x, hx, horigin, hdef⟩, hp⟩
    refine ⟨⟨fun v hv => (houtput v hv).1, ?_⟩, fun v hv => (houtput v hv).2⟩
    intro i v hi
    obtain ⟨y, hy, hu⟩ := h.inputs i v hi
    rw [Values.value?_mapAll] at hy
    obtain ⟨x, hx, rfl⟩ := Option.map_eq_some_iff.mp hy
    exact ⟨x, hx, huse.mp hu⟩
  · intro h
    obtain ⟨hable, hapart⟩ := h
    constructor
    · intro v hv
      obtain ⟨x, hx, horigin, hdef⟩ := hable.output v hv
      exact ⟨p.record other v x, by simp [hx], horigin, by simp [record, hapart v hv, hdef]⟩
    · intro i v hi
      obtain ⟨x, hx, hu⟩ := hable.inputs i v hi
      exact ⟨p.record other v x, by simp [hx], huse.mpr hu⟩

end Operation

namespace Graph
variable {g h : Graph} {a b : OpId × Operation} {on : List (OpId × Operation)}

theorem ext_node? (hvalues : g.values = h.values) (hnext : g.nodes.next = h.nodes.next)
    (hlive : g.nodes.live = h.nodes.live) (hnode : ∀ id, g.node? id = h.node? id) : g = h := by
  have hnodes : g.nodes = h.nodes := Slots.ext_get? hnext hlive fun i => hnode ⟨i⟩
  cases g
  cases h
  simp only at hvalues hnodes
  rw [hvalues, hnodes]

/-- The graph once an operation is linked. -/
def withLink (g : Graph) (a : OpId × Operation) : Graph :=
  ({ g with values := g.values.mapAll (a.2.record a.1) } : Graph).setLinked a.1 true

/-- The graph once an operation is unlinked. -/
def withoutLink (g : Graph) (a : OpId × Operation) : Graph :=
  ({ g with values := g.values.mapAll (a.2.unrecord a.1) } : Graph).setLinked a.1 false

theorem node?_withLink (g : Graph) (a : OpId × Operation) (id : OpId) :
    (g.withLink a).node? id =
      if a.1 = id then (g.node? id).map fun node => { node with linked := true }
      else g.node? id :=
  node?_setLinked _ a.1 id true

theorem node?_withoutLink (g : Graph) (a : OpId × Operation) (id : OpId) :
    (g.withoutLink a).node? id =
      if a.1 = id then (g.node? id).map fun node => { node with linked := false }
      else g.node? id :=
  node?_setLinked _ a.1 id false

theorem withoutLink_withLink (hn : g.node? a.1 = some ⟨a.2, false⟩)
    (hable : a.2.Linkable a.1 g.values) : (g.withLink a).withoutLink a = g := by
  apply ext_node?
  · show (g.values.mapAll (a.2.record a.1)).mapAll (a.2.unrecord a.1) = g.values
    rw [Values.mapAll_mapAll]
    have hsame : g.values.mapAll (fun v x => a.2.unrecord a.1 v (a.2.record a.1 v x)) =
        g.values.mapAll fun _ x => x := by
      apply Values.mapAll_congr
      intro v x hx
      apply Operation.unrecord_record
      · intro hv
        obtain ⟨y, hy, _, hdef⟩ := hable.output v hv
        rw [hx] at hy
        rw [Option.some.inj hy]
        exact hdef
      · intro i hi
        obtain ⟨y, hy, hu⟩ := hable.inputs i v hi
        rw [hx] at hy
        rw [Option.some.inj hy]
        exact hu
    rw [hsame, Values.mapAll_self]
  · simp [withLink, withoutLink, setLinked, Slots.next_modify]
  · rfl
  · intro id
    rw [node?_withoutLink, node?_withLink]
    by_cases he : a.1 = id
    · rw [← he, hn]
      simp
    · simp [he]

/-- The ids and the outputs of two operations differ. -/
def Apart (a b : OpId × Operation) : Prop :=
  a.1 ≠ b.1 ∧ ∀ v, a.2.output = some v → b.2.output ≠ some v

theorem withoutLink_withLink_comm (h : Apart a b) (g : Graph) :
    (g.withLink b).withoutLink a = (g.withoutLink a).withLink b := by
  obtain ⟨hid, hout⟩ := h
  apply ext_node?
  · show (g.values.mapAll (b.2.record b.1)).mapAll (a.2.unrecord a.1) =
      (g.values.mapAll (a.2.unrecord a.1)).mapAll (b.2.record b.1)
    rw [Values.mapAll_mapAll, Values.mapAll_mapAll]
    apply Values.mapAll_congr
    intro v x _
    exact Operation.unrecord_record_comm hid (hout v)
  · simp [withLink, withoutLink, setLinked, Slots.next_modify]
  · rfl
  · intro id
    rw [node?_withoutLink, node?_withLink, node?_withLink, node?_withoutLink]
    by_cases ha : a.1 = id
    · have hb : b.1 ≠ id := fun he => hid (ha.trans he.symm)
      simp [ha, hb]
    · simp [ha]

theorem linkable_withLink_iff (hid : a.1 ≠ b.1) :
    a.2.Linkable a.1 (g.withLink b).values ↔
      a.2.Linkable a.1 g.values ∧ ∀ v, a.2.output = some v → b.2.output ≠ some v :=
  Operation.linkable_mapAll_record_iff hid

/-- The graph with the operations of `on` linked in this order. -/
def withLinks (g : Graph) (on : List (OpId × Operation)) : Graph :=
  on.foldl withLink g

/-- Each operation of `on` can be linked, before or after the others. -/
structure Stackable (g : Graph) (on : List (OpId × Operation)) : Prop where
  node : ∀ a ∈ on, g.node? a.1 = some ⟨a.2, false⟩
  linkable : ∀ a ∈ on, a.2.Linkable a.1 g.values
  apart : on.Pairwise Apart

theorem Apart.symm (h : Apart a b) : Apart b a :=
  ⟨h.1.symm, fun v hb ha => h.2 v ha hb⟩

theorem withLinks_concat (g : Graph) (on : List (OpId × Operation)) (a : OpId × Operation) :
    g.withLinks (on ++ [a]) = (g.withLinks on).withLink a := by
  simp [withLinks]

theorem Stackable.sublist (hs : g.Stackable on) {rest : List (OpId × Operation)}
    (hsub : rest.Sublist on) : g.Stackable rest where
  node a ha := hs.node a (hsub.subset ha)
  linkable a ha := hs.linkable a (hsub.subset ha)
  apart := hs.apart.sublist hsub

theorem node?_withLinks (g : Graph) (on : List (OpId × Operation)) (id : OpId) :
    (g.withLinks on).node? id =
      if id ∈ on.map Prod.fst then (g.node? id).map fun node => { node with linked := true }
      else g.node? id := by
  induction on generalizing g with
  | nil => rfl
  | cons a rest ih =>
    show ((g.withLink a).withLinks rest).node? id = _
    rw [ih, node?_withLink]
    by_cases ha : a.1 = id
    · cases g.node? id <;> simp [ha]
    · have hiff : id ∈ (a :: rest).map Prod.fst ↔ id ∈ rest.map Prod.fst := by
        rw [List.map_cons, List.mem_cons]
        exact or_iff_right (Ne.symm ha)
      simp only [ha, if_false, hiff]

/-- An operation can be linked on top of others just when it can be linked without them and shares
no output with them. -/
theorem linkable_withLinks_iff (hid : a.1 ∉ on.map Prod.fst) :
    a.2.Linkable a.1 (g.withLinks on).values ↔
      a.2.Linkable a.1 g.values ∧ ∀ b ∈ on, Apart a b := by
  induction on generalizing g with
  | nil => simp [withLinks]
  | cons b rest ih =>
    rw [List.map_cons, List.mem_cons, not_or] at hid
    show a.2.Linkable a.1 ((g.withLink b).withLinks rest).values ↔ _
    rw [ih hid.2, linkable_withLink_iff hid.1, List.forall_mem_cons]
    constructor
    · intro h
      exact ⟨h.1.1, ⟨hid.1, h.1.2⟩, h.2⟩
    · intro h
      exact ⟨⟨h.1, h.2.1.2⟩, h.2.2⟩

theorem withoutLink_withLinks (hapart : ∀ b ∈ on, Apart a b) (g : Graph) :
    (g.withLinks on).withoutLink a = (g.withoutLink a).withLinks on := by
  induction on generalizing g with
  | nil => rfl
  | cons b rest ih =>
    show ((g.withLink b).withLinks rest).withoutLink a = ((g.withoutLink a).withLink b).withLinks rest
    rw [ih fun c hc => hapart c (List.mem_cons_of_mem b hc),
      withoutLink_withLink_comm (hapart b List.mem_cons_self)]

/-- Unlinking an operation from the middle leaves the others as they came. -/
theorem Stackable.withoutLink_eq {before after : List (OpId × Operation)}
    (hs : g.Stackable (before ++ a :: after)) :
    (g.withLinks (before ++ a :: after)).withoutLink a = g.withLinks (before ++ after) := by
  have hmem : a ∈ before ++ a :: after := List.mem_append_right _ List.mem_cons_self
  obtain ⟨_, hcons, hcross⟩ := List.pairwise_append.mp hs.apart
  have hbefore : ∀ b ∈ before, Apart a b :=
    fun b hb => (hcross b hb a List.mem_cons_self).symm
  have hnew : a.1 ∉ before.map Prod.fst := by
    intro hin
    obtain ⟨b, hb, he⟩ := List.mem_map.mp hin
    exact (hbefore b hb).1 he.symm
  have hnode : (g.withLinks before).node? a.1 = some ⟨a.2, false⟩ := by
    rw [node?_withLinks, if_neg hnew]
    exact hs.node a hmem
  have hable : a.2.Linkable a.1 (g.withLinks before).values :=
    (linkable_withLinks_iff hnew).mpr ⟨hs.linkable a hmem, hbefore⟩
  calc (g.withLinks (before ++ a :: after)).withoutLink a
      = (((g.withLinks before).withLink a).withLinks after).withoutLink a := by
        simp [withLinks]
    _ = (((g.withLinks before).withLink a).withoutLink a).withLinks after :=
        withoutLink_withLinks (List.pairwise_cons.mp hcons).1 _
    _ = (g.withLinks before).withLinks after := by rw [withoutLink_withLink hnode hable]
    _ = g.withLinks (before ++ after) := by simp [withLinks]

/-- A call that links an operation or unlinks it. -/
inductive Toggle where
  | link (id : OpId)
  | unlink (id : OpId)
deriving DecidableEq

namespace Toggle

def target : Toggle → OpId
  | link id => id
  | unlink id => id

def call : Toggle → Call Graph Unit
  | link id => Graph.link id
  | unlink id => Graph.unlink id

/-- One call after the other, up to the first that is refused. -/
def callAll : List Toggle → Call Graph Unit
  | [] => pure ()
  | t :: rest => do
    t.call
    callAll rest

end Toggle

theorem isLinked_eq_true_iff {id : OpId} :
    g.isLinked id = true ↔ ∃ op, g.node? id = some ⟨op, true⟩ := by
  unfold isLinked
  cases g.node? id with
  | none => simp
  | some node => cases node with | mk op linked => simp

theorem isLinked_withLinks (hs : g.Stackable on) (ha : a ∈ on) :
    (g.withLinks on).isLinked a.1 = true := by
  refine isLinked_eq_true_iff.mpr ⟨a.2, ?_⟩
  rw [node?_withLinks, if_pos (List.mem_map_of_mem ha), hs.node a ha]
  rfl

/-- A call that links puts its operation on top. -/
theorem Stackable.link {id : OpId} (hs : g.Stackable on)
    (hok : Graph.link id (g.withLinks on) = .ok () h) :
    ∃ op, g.Stackable (on ++ [(id, op)]) ∧ h = g.withLinks (on ++ [(id, op)]) := by
  obtain ⟨op, hn, hable, rfl⟩ := link_iff.mp hok
  have hnew : id ∉ on.map Prod.fst := by
    intro hin
    obtain ⟨b, hb, he⟩ := List.mem_map.mp hin
    have hlinked := isLinked_withLinks hs hb
    rw [he, isLinked, hn] at hlinked
    cases hlinked
  rw [node?_withLinks, if_neg hnew] at hn
  obtain ⟨hbase, hapart⟩ := (linkable_withLinks_iff (a := (id, op)) hnew).mp hable
  refine ⟨op, ⟨?_, ?_, ?_⟩, (withLinks_concat g on (id, op)).symm⟩
  · intro b hb
    rcases List.mem_append.mp hb with hb | hb
    · exact hs.node b hb
    · rw [List.mem_singleton.mp hb]
      exact hn
  · intro b hb
    rcases List.mem_append.mp hb with hb | hb
    · exact hs.linkable b hb
    · rw [List.mem_singleton.mp hb]
      exact hbase
  · refine List.pairwise_append.mpr ⟨hs.apart, List.pairwise_singleton _ _, ?_⟩
    intro b hb c hc
    rw [List.mem_singleton.mp hc]
    exact (hapart b hb).symm

/-- A call that unlinks takes its operation out, wherever it stands. -/
theorem Stackable.unlink {id : OpId} (hs : g.Stackable on) (hid : g.isLinked id = false)
    (hok : Graph.unlink id (g.withLinks on) = .ok () h) :
    ∃ before op after, on = before ++ (id, op) :: after ∧ h = g.withLinks (before ++ after) := by
  obtain ⟨op, hn, _, rfl⟩ := unlink_iff.mp hok
  have hmem : id ∈ on.map Prod.fst := by
    by_contra hnot
    rw [node?_withLinks, if_neg hnot] at hn
    rw [isLinked_eq_true_iff.mpr ⟨op, hn⟩] at hid
    cases hid
  obtain ⟨b, hb, rfl⟩ := List.mem_map.mp hmem
  obtain ⟨before, after, rfl⟩ := List.append_of_mem hb
  have hop : b.2 = op := by
    rw [node?_withLinks, if_pos hmem, hs.node b hb] at hn
    cases hn
    rfl
  subst hop
  exact ⟨before, b.2, after, rfl, hs.withoutLink_eq⟩

/-- A run on operations that were unlinked ends with some of them linked on top. -/
theorem Stackable.callAll (hs : g.Stackable on) (calls : List Toggle)
    (hstart : ∀ t ∈ calls, g.isLinked t.target = false)
    (hok : Toggle.callAll calls (g.withLinks on) = .ok () h) :
    ∃ left, g.Stackable left ∧ h = g.withLinks left ∧
      ∀ a ∈ left, a ∈ on ∨ ∃ t ∈ calls, t.target = a.1 := by
  induction calls generalizing on with
  | nil =>
    have heq : g.withLinks on = h := by
      cases hok
      rfl
    exact ⟨on, hs, heq.symm, fun a ha => Or.inl ha⟩
  | cons t rest ih =>
    have hrest : ∀ t ∈ rest, g.isLinked t.target = false :=
      fun c hc => hstart c (List.mem_cons_of_mem t hc)
    simp only [Toggle.callAll, bind, EStateM.bind] at hok
    cases hfirst : t.call (g.withLinks on) with
    | error e k =>
      rw [hfirst] at hok
      cases hok
    | ok u k =>
      rw [hfirst] at hok
      have hstep : ∃ next, g.Stackable next ∧ k = g.withLinks next ∧
          ∀ a ∈ next, a ∈ on ∨ t.target = a.1 := by
        cases t with
        | link id =>
          obtain ⟨op, hnext, hk⟩ := hs.link hfirst
          refine ⟨on ++ [(id, op)], hnext, hk, ?_⟩
          intro a ha
          rcases List.mem_append.mp ha with ha | ha
          · exact Or.inl ha
          · rw [List.mem_singleton.mp ha]
            exact Or.inr rfl
        | unlink id =>
          obtain ⟨before, op, after, rfl, hk⟩ :=
            hs.unlink (hstart (.unlink id) List.mem_cons_self) hfirst
          have hsub : (before ++ after).Sublist (before ++ (id, op) :: after) :=
            (List.Sublist.refl before).append (List.sublist_cons_self _ after)
          exact ⟨before ++ after, hs.sublist hsub, hk, fun a ha => Or.inl (hsub.subset ha)⟩
      obtain ⟨next, hnext, rfl, hsource⟩ := hstep
      obtain ⟨left, hleft, heq, htouched⟩ := ih hnext hrest hok
      refine ⟨left, hleft, heq, ?_⟩
      intro a ha
      rcases htouched a ha with hin | hin
      · rcases hsource a hin with hon | ht
        · exact Or.inl hon
        · exact Or.inr ⟨t, List.mem_cons_self, ht⟩
      · obtain ⟨c, hc, he⟩ := hin
        exact Or.inr ⟨c, List.mem_cons_of_mem t hc, he⟩

/-- Linking and unlinking cancel exactly, on every graph. When all calls of a run answer, and the
operations they name are unlinked before it and after it, the graph is what it was, with every use
in its place. After a link that answers, the unlink answers and restores the graph. -/
theorem links_cancel (g : Graph) :
    (∀ (calls : List Toggle) (h : Graph), Toggle.callAll calls g = .ok () h →
      (∀ t ∈ calls, g.isLinked t.target = false) →
      (∀ t ∈ calls, h.isLinked t.target = false) → h = g) ∧
    ∀ (id : OpId) (h : Graph), link id g = .ok () h → unlink id h = .ok () g := by
  refine ⟨?_, ?_⟩
  · intro calls h hok hstart hend
    have hnone : g.Stackable [] := ⟨by simp, by simp, .nil⟩
    obtain ⟨left, hs, heq, htouched⟩ := hnone.callAll calls hstart hok
    -- what is left on top was named by a call, and is linked
    have hempty : left = [] := by
      by_contra hne
      obtain ⟨a, ha⟩ := List.exists_mem_of_ne_nil left hne
      have hlinked : h.isLinked a.1 = true := by
        rw [heq]
        exact isLinked_withLinks hs ha
      rcases htouched a ha with hin | hin
      · cases hin
      · obtain ⟨t, ht, he⟩ := hin
        rw [← he, hend t ht] at hlinked
        cases hlinked
    rw [heq, hempty]
    rfl
  · intro id h hok
    obtain ⟨op, hn, hable, rfl⟩ := link_iff.mp hok
    refine unlink_iff.mpr ⟨op, ?_, hable.recorded, ?_⟩
    · have hnode := node?_withLink g (id, op) id
      rw [if_pos rfl, hn] at hnode
      exact hnode
    · exact (withoutLink_withLink (a := (id, op)) hn hable).symm

/-- A constant that a linked store reads, and two sums that are not linked: of the constant with itself,
and of the constant with what that sum defines. -/
def twoSums : Graph :=
  replay [.newConstant 16 8, .newOutput 8, .newOutput 8, .addLinked (.store .ram ⟨0⟩ ⟨0⟩),
    .add (.binary .intAdd ⟨1⟩ ⟨0⟩ ⟨0⟩), .add (.binary .intAdd ⟨2⟩ ⟨2⟩ ⟨0⟩)] {}

/-- Both are linked and unlinked, crosswise and one of them twice. -/
def crosswise : List Toggle :=
  [.link ⟨1⟩, .link ⟨2⟩, .unlink ⟨1⟩, .link ⟨1⟩, .unlink ⟨2⟩, .unlink ⟨1⟩]

theorem twoSums_links_cancel :
    ∃ h, Toggle.callAll crosswise twoSums = .ok () h ∧
      (∀ t ∈ crosswise, twoSums.isLinked t.target = false) ∧
      (∀ t ∈ crosswise, h.isLinked t.target = false) ∧ h = twoSums := by
  have hok : Toggle.callAll crosswise twoSums =
      .ok () (leaves (Toggle.callAll crosswise twoSums)) := rfl
  have hstart : ∀ t ∈ crosswise, twoSums.isLinked t.target = false := by decide
  have hend : ∀ t ∈ crosswise,
      (leaves (Toggle.callAll crosswise twoSums)).isLinked t.target = false := by decide
  exact ⟨_, hok, hstart, hend, (links_cancel twoSums).1 crosswise _ hok hstart hend⟩

end Graph
end DefUse
