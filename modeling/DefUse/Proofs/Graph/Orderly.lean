import Mathlib.Data.List.Sort
import DefUse.Proofs.Graph.Order
import DefUse.Proofs.Graph.Sweep

namespace DefUse.Graph

/-- What a value stands for and its size; both stay as they are from its creation on. -/
def kind? (g : Graph) (v : ValueId) : Option (Origin × Nat) :=
  (g.value? v).map fun x => (x.origin, x.size)

theorem kind?_of_value? {g : Graph} {v : ValueId} {x : Value} (h : g.value? v = some x) :
    g.kind? v = some (x.origin, x.size) := by
  rw [kind?, h]
  rfl

theorem isSome_kind? (g : Graph) (v : ValueId) : (g.kind? v).isSome = (g.value? v).isSome := by
  rw [kind?, Option.isSome_map]

structure Orderly (g : Graph) : Prop where
  consistent : g.Consistent
  linked : ∀ {id node}, g.node? id = some node → node.linked = true
  forward : ∀ {id op v x d}, g.linked? id = some op → v ∈ op.inputs → g.value? v = some x →
    x.definer = some d → d.index < id.index
  /-- Each operand position has a behavior. -/
  typed : ∀ {id op}, g.linked? id = some op → op.inputTypes.length = op.inputs.length
  output : ∀ {id op v}, g.linked? id = some op → op.output = some v →
    ∃ size, g.kind? v = some (.output, size)

theorem orderly_empty : ({} : Graph).Orderly where
  consistent := consistent_empty
  linked h := by simp [node?] at h
  forward h := by simp [linked?, node?] at h
  typed h := by simp [linked?, node?] at h
  output h := by simp [linked?, node?] at h

theorem lt_next_of_linked? {g : Graph} {id : OpId} {op : Operation} (h : g.linked? id = some op) :
    id.index < g.nodes.next :=
  Slots.lt_next_of_get? (linked?_eq_some_iff.mp h)

/-- `h` is `g` with more values and the operations `new`, whose outputs are new values. -/
structure Grows (g h : Graph) (new : List (OpId × Operation)) : Prop where
  kind : ∀ {v k}, g.kind? v = some k → h.kind? v = some k
  code : h.linkedOps = g.linkedOps ++ new
  fresh : ∀ {x v}, x ∈ new → x.2.output = some v → g.kind? v = none

theorem Grows.refl (g : Graph) : g.Grows g [] where
  kind h := h
  code := (List.append_nil _).symm
  fresh h := by cases h

theorem Grows.trans {g h k : Graph} {new more : List (OpId × Operation)} (hgh : g.Grows h new)
    (hhk : h.Grows k more) : g.Grows k (new ++ more) where
  kind hv := hhk.kind (hgh.kind hv)
  code := by rw [hhk.code, hgh.code, List.append_assoc]
  fresh {x v} hx hout := by
    rcases List.mem_append.mp hx with hx | hx
    · exact hgh.fresh hx hout
    · have hnone := hhk.fresh hx hout
      cases hv : g.kind? v with
      | none => rfl
      | some kind =>
        rw [hgh.kind hv] at hnone
        cases hnone

theorem Grows.live {g h : Graph} {new : List (OpId × Operation)} (hgh : g.Grows h new) {v : ValueId}
    (hv : (g.kind? v).isSome = true) : (h.kind? v).isSome = true := by
  obtain ⟨kind, hk⟩ := Option.isSome_iff_exists.mp hv
  exact Option.isSome_of_eq_some (hgh.kind hk)

theorem value?_next (g : Graph) : g.value? ⟨g.values.next⟩ = none := by
  cases h : g.value? ⟨g.values.next⟩ with
  | none => rfl
  | some x => exact absurd (Slots.lt_next_of_get? h) (Nat.lt_irrefl _)

theorem kind?_next (g : Graph) : g.kind? ⟨g.values.next⟩ = none := by
  rw [kind?, value?_next]
  rfl

theorem grows_create (g : Graph) (x : Value) :
    g.Grows { g with values := g.values.push x } [] where
  kind {v k} hk := by
    rw [kind?, value?_create]
    split
    next he =>
      rw [he, kind?_next] at hk
      cases hk
    next => exact hk
  code := (List.append_nil _).symm
  fresh h := by cases h

theorem Orderly.create {g : Graph} (hg : g.Orderly) {x : Value} (hd : x.definer = none)
    (hu : x.uses = []) : ({ g with values := g.values.push x } : Graph).Orderly where
  consistent := hg.consistent.create hd hu
  linked h := hg.linked h
  forward hop hv hx hdef := by
    rw [value?_create] at hx
    split at hx
    next =>
      obtain rfl := Option.some.inj hx
      rw [hd] at hdef
      cases hdef
    next => exact hg.forward hop hv hx hdef
  typed h := hg.typed h
  output hop hout := by
    obtain ⟨size, hk⟩ := hg.output hop hout
    exact ⟨size, (grows_create g x).kind hk⟩

/-- The graph with one more operation, linked. -/
def appended (g : Graph) (op : Operation) : Graph :=
  ({ values := g.values.mapAll (op.record ⟨g.nodes.next⟩), nodes := g.nodes.push { op } } :
    Graph).setLinked ⟨g.nodes.next⟩ true

theorem value?_appended (g : Graph) (op : Operation) (v : ValueId) :
    (g.appended op).value? v = (g.value? v).map (op.record ⟨g.nodes.next⟩ v) :=
  Values.value?_mapAll ..

theorem kind?_appended (g : Graph) (op : Operation) (v : ValueId) :
    (g.appended op).kind? v = g.kind? v := by
  rw [kind?, value?_appended, Option.map_map]
  rfl

theorem node?_appended (g : Graph) (op : Operation) (id : OpId) :
    (g.appended op).node? id = if id = ⟨g.nodes.next⟩ then some ⟨op, true⟩ else g.node? id := by
  have hadd := node?_add { g with values := g.values.mapAll (op.record ⟨g.nodes.next⟩) } { op } id
  rw [appended, node?_setLinked]
  by_cases he : id = ⟨g.nodes.next⟩
  · rw [if_pos he] at hadd ⊢
    rw [if_pos he.symm, hadd]
    rfl
  · rw [if_neg he] at hadd ⊢
    rw [if_neg (Ne.symm he), hadd]
    rfl

theorem linked?_appended (g : Graph) (op : Operation) (id : OpId) :
    (g.appended op).linked? id = if id = ⟨g.nodes.next⟩ then some op else g.linked? id := by
  have hn := node?_appended g op id
  split
  next he =>
    rw [if_pos he] at hn
    exact linked?_eq_some_iff.mpr hn
  next he =>
    rw [if_neg he] at hn
    exact linked?_congr hn

theorem linkedOps_appended (g : Graph) (op : Operation) :
    (g.appended op).linkedOps = g.linkedOps ++ [(⟨g.nodes.next⟩, op)] := by
  have hirrefl : Std.Irrefl fun a b : OpId × Operation => a.1.index < b.1.index :=
    ⟨fun _ => Nat.lt_irrefl _⟩
  have hantisymm : Std.Antisymm fun a b : OpId × Operation => a.1.index < b.1.index :=
    ⟨fun _ _ hab hba => absurd hba (Nat.lt_asymm hab)⟩
  have hold : ∀ {x}, x ∈ g.linkedOps → x.1.index < g.nodes.next :=
    fun {x} hx => lt_next_of_linked? (mem_linkedOps_iff.mp hx)
  -- both are in order of creation and have the same members
  refine List.Pairwise.eq_of_mem_iff (pairwise_linkedOps _) ?_ ?_
  · refine List.pairwise_append.mpr ⟨pairwise_linkedOps g, List.pairwise_singleton _ _, ?_⟩
    intro a ha b hb
    rw [List.mem_singleton.mp hb]
    exact hold ha
  · rintro ⟨id, p⟩
    rw [mem_linkedOps_iff, linked?_appended, List.mem_append, mem_linkedOps_iff,
      List.mem_singleton, Prod.mk.injEq]
    split
    next he =>
      have hnone : g.linked? id = none := by
        rw [he]
        simp only [linked?, node?_next]
      rw [hnone]
      simp [he, eq_comm]
    next he => simp [he]

/-- What an operation asks of a graph to be added and linked: live operands, and an output that
nothing defines or reads yet, the operation itself included. -/
structure Fits (g : Graph) (op : Operation) : Prop where
  inputs : ∀ v ∈ op.inputs, (g.value? v).isSome = true
  output : ∀ v, op.output = some v →
    v ∉ op.inputs ∧
      ∃ x, g.value? v = some x ∧ x.origin = .output ∧ x.definer = none ∧ x.uses = []
  typed : op.inputTypes.length = op.inputs.length

theorem Orderly.addLinked_eq {g : Graph} (hg : g.Orderly) {op : Operation} (hop : g.Fits op) :
    Graph.addLinked op g = .ok ⟨g.nodes.next⟩ (g.appended op) ∧ (g.appended op).Consistent := by
  have hnew : ({ g with nodes := g.nodes.push { op } } : Graph).node? ⟨g.nodes.next⟩ =
      some ⟨op, false⟩ := by rw [node?_add, if_pos rfl]
  have hable : op.Linkable ⟨g.nodes.next⟩ g.values := by
    refine ⟨?_, ?_⟩
    · intro v hv
      obtain ⟨_, x, hx, ho, hd, _⟩ := hop.output v hv
      exact ⟨x, hx, ho, hd⟩
    intro i v hv
    obtain ⟨x, hx⟩ := Option.isSome_iff_exists.mp (hop.inputs v (List.mem_of_getElem? hv))
    refine ⟨x, hx, ?_⟩
    -- the id is new, so no use can name it
    intro hu
    obtain ⟨p, hp, _⟩ := (hg.consistent.mem_uses hx _).mp hu
    exact Nat.lt_irrefl _ (lt_next_of_linked? hp)
  have hlink : Graph.link ⟨g.nodes.next⟩ { g with nodes := g.nodes.push { op } } =
      .ok () (g.appended op) := link_iff.mpr ⟨op, hnew, hable, rfl⟩
  refine ⟨?_, (hg.consistent.add op).link hlink⟩
  simp only [Graph.addLinked, Graph.add, bind, EStateM.bind, hlink]
  rfl

theorem Orderly.appended {g : Graph} (hg : g.Orderly) {op : Operation} (hop : g.Fits op) :
    (g.appended op).Orderly where
  consistent := (hg.addLinked_eq hop).2
  linked {id node} hn := by
    rw [node?_appended] at hn
    split at hn
    next =>
      obtain rfl := Option.some.inj hn
      rfl
    next => exact hg.linked hn
  forward {id p v x d} hp hv hx hd := by
    rw [linked?_appended] at hp
    rw [value?_appended] at hx
    obtain ⟨y, hy, rfl⟩ := Option.map_eq_some_iff.mp hx
    split at hp
    next he =>
      obtain rfl := Option.some.inj hp
      have hne : op.output ≠ some v := fun ho => (hop.output v ho).1 hv
      simp only [Operation.record, if_neg hne] at hd
      obtain ⟨q, hq, _⟩ := (hg.consistent.definer_iff hy d).mp hd
      rw [he]
      exact lt_next_of_linked? hq
    next =>
      by_cases ho : op.output = some v
      · -- an operation that reads the output would be recorded on it
        obtain ⟨_, z, hz, _, _, hu⟩ := hop.output v ho
        obtain rfl : z = y := Option.some.inj (hz.symm.trans hy)
        obtain ⟨i, hi⟩ := List.getElem?_of_mem hv
        have huse := (hg.consistent.mem_uses hz ⟨id, i⟩).mpr ⟨p, hp, hi⟩
        rw [hu] at huse
        cases huse
      · simp only [Operation.record, if_neg ho] at hd
        exact hg.forward hp hv hy hd
  typed {id p} hp := by
    rw [linked?_appended] at hp
    split at hp
    next =>
      obtain rfl := Option.some.inj hp
      exact hop.typed
    next => exact hg.typed hp
  output {id p v} hp hv := by
    rw [linked?_appended] at hp
    rw [kind?_appended]
    split at hp
    next =>
      obtain rfl := Option.some.inj hp
      obtain ⟨_, x, hx, ho, _, _⟩ := hop.output v hv
      exact ⟨x.size, by rw [kind?_of_value? hx, ho]⟩
    next => exact hg.output hp hv

theorem Orderly.needs_lt {g : Graph} (hg : g.Orderly) {id d : OpId} (h : g.Needs id d) :
    d.index < id.index := by
  obtain ⟨op, hop, ⟨v, hv, x, hx, hd⟩ | ⟨_, hlt, _⟩⟩ := h
  · exact hg.forward hop hv hx hd
  · exact hlt

/-- The order of creation can be run. -/
theorem Orderly.feasible {g : Graph} (hg : g.Orderly) (ops : List (OpId × Operation))
    {done : Set OpId} (hsorted : ops.Pairwise fun a b => a.1.index < b.1.index)
    (hcover : ∀ id, (g.linked? id).isSome = true ↔ id ∈ done ∨ id ∈ ops.map Prod.fst)
    (hdone : ∀ id ∈ done, ∀ x ∈ ops, id.index < x.1.index) :
    g.Feasible done (ops.map Prod.fst) := by
  induction ops generalizing done with
  | nil => trivial
  | cons first rest ih =>
    obtain ⟨hfirst, hrest⟩ := List.pairwise_cons.mp hsorted
    refine ⟨?_, ?_, ?_⟩
    · intro hin
      exact Nat.lt_irrefl _ (hdone first.1 hin first List.mem_cons_self)
    · intro d hneed
      have hlt : d.index < first.1.index := hg.needs_lt hneed
      -- what was created earlier and is linked is done
      rcases (hcover d).mp (hg.consistent.linked_of_needs hneed) with hin | hin
      · exact hin
      · obtain ⟨x, hx, rfl⟩ := List.mem_map.mp hin
        rcases List.mem_cons.mp hx with rfl | hx
        · exact absurd hlt (Nat.lt_irrefl _)
        · exact absurd hlt (Nat.lt_asymm (hfirst x hx))
    · refine ih hrest ?_ ?_
      · intro id
        rw [hcover, List.map_cons, List.mem_cons, Set.mem_insert_iff]
        tauto
      · intro id hid x hx
        rcases hid with rfl | hid
        · exact hfirst x hx
        · exact hdone id hid x (List.mem_cons_of_mem _ hx)

theorem Orderly.arranges {g : Graph} (hg : g.Orderly) : g.Arranges (g.linkedOps.map Prod.fst) := by
  refine ⟨hg.feasible _ g.pairwise_linkedOps ?_ ?_, fun id => isSome_linked?_iff.symm⟩
  · intro id
    rw [isSome_linked?_iff]
    simp
  · intro id hid
    cases hid

theorem Orderly.shrinks {g h : Graph} (hg : g.Orderly) (hs : g.Shrinks h) (hc : h.Consistent) :
    h.Orderly where
  consistent := hc
  linked {id node} hn := by
    rcases hs.node id with he | ⟨hnone, _⟩
    · exact hg.linked (he ▸ hn)
    · rw [hnone] at hn
      cases hn
  forward hop hv hx hd := by
    obtain ⟨y, hy, _, _, hdef⟩ := hs.value hx
    exact hg.forward (hs.linked? hop) hv hy (hdef.trans hd)
  typed hop := hg.typed (hs.linked? hop)
  output {id op v} hop hv := by
    obtain ⟨x, hx⟩ := Option.isSome_iff_exists.mp (hc.output_live hop hv)
    obtain ⟨y, hy, ho, hsize, _⟩ := hs.value hx
    obtain ⟨size, hk⟩ := hg.output (hs.linked? hop) hv
    refine ⟨size, ?_⟩
    rw [kind?_of_value? hx, ← ho, ← hsize, ← kind?_of_value? hy]
    exact hk

end DefUse.Graph
