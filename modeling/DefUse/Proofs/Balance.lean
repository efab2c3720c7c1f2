import DefUse.Proofs.Graph.Removed
import DefUse.Proofs.Lift.Steps
import DefUse.Proofs.ProgramOrder
import DefUse.Proofs.Statistics
import DefUse.Proofs.Threads

namespace DefUse

/-- Operations and write-backs are counted as their mnemonics are. -/
structure Statistics.Balanced (st : Statistics) : Prop where
  sorted : st.opcodes.Sorted
  created : st.created = st.opcodes.total
  writebacks : st.writebacks = st.opcodes.count "WRITEBACK"

namespace Statistics

theorem balanced_empty : ({} : Statistics).Balanced where
  sorted := List.Pairwise.nil
  created := rfl
  writebacks := rfl

theorem Balanced.merge {a b : Statistics} (ha : a.Balanced) (hb : b.Balanced) :
    (a.merge b).Balanced where
  sorted := ha.sorted.merge b.opcodes
  created := by
    show a.created + b.created = _
    rw [ha.created, hb.created]
    exact (Tally.total_merge a.opcodes b.opcodes).symm
  writebacks := by
    show a.writebacks + b.writebacks = _
    rw [ha.writebacks, hb.writebacks]
    exact (ha.sorted.count_merge hb.sorted "WRITEBACK").symm

theorem created_recordOp {st : Statistics} (hst : st.created = st.opcodes.total)
    (mnemonic : String) :
    (st.recordOp mnemonic).created = (st.recordOp mnemonic).opcodes.total := by
  show st.created + 1 = (st.opcodes.add mnemonic 1).total
  rw [Tally.total_add, hst]

theorem Balanced.recordOp {st : Statistics} (hst : st.Balanced) {mnemonic : String}
    (hne : mnemonic ≠ "WRITEBACK") : (st.recordOp mnemonic).Balanced where
  sorted := hst.sorted.add mnemonic 1
  created := created_recordOp hst.created mnemonic
  writebacks := by
    show st.writebacks = (st.opcodes.add mnemonic 1).count "WRITEBACK"
    rw [hst.sorted.count_add, if_neg hne, hst.writebacks, Nat.add_zero]

theorem Balanced.recordWriteback {st : Statistics} (hst : st.Balanced) :
    ((st.recordOp "WRITEBACK").recordWriteback).Balanced where
  sorted := hst.sorted.add "WRITEBACK" 1
  created := created_recordOp hst.created "WRITEBACK"
  writebacks := by
    show st.writebacks + 1 = (st.opcodes.add "WRITEBACK" 1).count "WRITEBACK"
    rw [hst.sorted.count_add, if_pos rfl, hst.writebacks]

end Statistics

/-- Only write-backs are listed as such. -/
theorem Operation.mnemonic_ne_writeback {op : Operation} (h : op.writeback? = none) :
    op.mnemonic ≠ "WRITEBACK" := by
  cases op with
  | writeback l v => cases h
  | binary opcode out a b =>
    intro heq
    have hname := BinaryOpcode.ofMnemonic?_mnemonic opcode
    rw [show opcode.mnemonic = "WRITEBACK" from heq,
      show BinaryOpcode.ofMnemonic? "WRITEBACK" = none by decide] at hname
    cases hname
  | unary opcode out a =>
    intro heq
    have hname := UnaryOpcode.ofMnemonic?_mnemonic opcode
    rw [show opcode.mnemonic = "WRITEBACK" from heq,
      show UnaryOpcode.ofMnemonic? "WRITEBACK" = none by decide] at hname
    cases hname
  | _ => simp [mnemonic]

/-- What is counted while a unit is lifted. -/
structure Lifting.Counted (s : Lifting) : Prop where
  balanced : s.statistics.Balanced
  created : s.statistics.created = s.graph.linkedOps.length
  /-- Nothing but operations and write-backs is counted. -/
  others : { s.statistics with created := 0, writebacks := 0, opcodes := [] } = ({} : Statistics)

/-- No outcome is counted yet. -/
structure Statistics.Undecided (st : Statistics) : Prop where
  balanced : st.Balanced
  lifted : st.lifted = 0
  fallenBack : st.fallenBack = 0
  aborted : st.aborted = 0

/-- Passes over a lifted unit add to counts of their own. -/
theorem Lifting.Counted.undecided {b : Lifting} (hb : b.Counted) (removed found : Nat) :
    (((Statistics.merge {} b.statistics).recordRemoved removed).recordDiagnostics
      found).Undecided := by
  have hst := Statistics.balanced_empty.merge hb.balanced
  have hlifted : b.statistics.lifted = 0 := congrArg Statistics.lifted hb.others
  have hfallen : b.statistics.fallenBack = 0 := congrArg Statistics.fallenBack hb.others
  have haborted : b.statistics.aborted = 0 := congrArg Statistics.aborted hb.others
  refine ⟨⟨hst.sorted, hst.created, hst.writebacks⟩, ?_, ?_, ?_⟩
  · exact (Nat.zero_add _).trans hlifted
  · exact (Nat.zero_add _).trans hfallen
  · exact (Nat.zero_add _).trans haborted

namespace Lift

theorem Step.counted {P : Operation → Prop} {s t : Lifting} (h : Step P s t) (hs : s.Counted) :
    t.Counted := by
  have happended (op : Operation) :
      s.statistics.created + 1 = (s.graph.appended op).linkedOps.length := by
    rw [Graph.linkedOps_appended, List.length_append, hs.created]
    rfl
  cases h with
  | create x => exact ⟨hs.balanced, hs.created, hs.others⟩
  | append other =>
    have hmnemonic := Operation.mnemonic_ne_writeback other
    exact ⟨hs.balanced.recordOp hmnemonic, happended _, hs.others⟩
  | writeBack l v => exact ⟨hs.balanced.recordWriteback, happended _, hs.others⟩
  | learn graph _ statistics =>
    refine ⟨?_, ?_, ?_⟩
    · rw [statistics]
      exact hs.balanced
    · rw [statistics, graph]
      exact hs.created
    · rw [statistics]
      exact hs.others

end Lift

theorem Machine.counted_of_lift {m : Machine} {u : CodeUnit} {b : Lifting}
    (h : m.lift u = .ok () b ∨ ∃ e, m.lift u = .error e b) : b.Counted := by
  have hsteps := steps_of_lift h
  clear h
  induction hsteps with
  | refl => exact ⟨Statistics.balanced_empty, rfl, rfl⟩
  | tail _ hstep ih => exact hstep.counted ih

/-- As many operations are removed as dead code elimination counts. -/
theorem Graph.Consistent.length_linkedOps {g h : Graph} (hc : g.Consistent) {removed : Nat}
    (hok : Graph.eliminateDeadCode g = .ok removed h) :
    g.linkedOps.length = h.linkedOps.length + removed := by
  obtain ⟨R, k, hk, hsweep⟩ := hc.exists_sweeping
  obtain ⟨rfl, rfl⟩ : R.card = removed ∧ k = h := by
    rw [hk] at hok
    exact EStateM.Result.ok.inj hok
  have hleft := (hc.shrinks_of_eliminateDeadCode hk).2.linkedOps_eq
  have hsplit := g.linkedOps.length_eq_length_filter_add fun x => (k.linked? x.1).isSome
  rw [← hleft] at hsplit
  rw [hsplit, Nat.add_left_cancel_iff]
  have hnodup : ((g.linkedOps.filter fun x => !(k.linked? x.1).isSome).map Prod.fst).Nodup := by
    refine List.Pairwise.map Prod.fst ?_ (g.pairwise_linkedOps.filter _)
    intro a b hlt heq
    rw [heq] at hlt
    exact Nat.lt_irrefl _ hlt
  rw [← List.length_map Prod.fst, ← List.toFinset_card_of_nodup hnodup]
  congr 1
  ext id
  rw [List.mem_toFinset, List.mem_map]
  constructor
  · rintro ⟨⟨gone, op⟩, hmem, rfl⟩
    obtain ⟨hin, hgone⟩ := List.mem_filter.mp hmem
    by_contra hnot
    rw [hsweep.pruned.linked?.mpr ⟨hnot, mem_linkedOps_iff.mp hin⟩] at hgone
    cases hgone
  · intro hid
    obtain ⟨op, hop⟩ := Option.isSome_iff_exists.mp (hsweep.linked id hid)
    have hgone : k.linked? id = none := by
      rw [Option.eq_none_iff_forall_not_mem]
      exact fun p hp => (hsweep.pruned.linked?.mp hp).1 hid
    refine ⟨(id, op), List.mem_filter.mpr ⟨mem_linkedOps_iff.mpr hop, ?_⟩, rfl⟩
    rw [hgone]
    rfl

namespace Pass
variable {m : Machine} {s : Settings}

theorem type_counts {g : Graph} {typing : Typing} (ht : Typing.infer g = .ok typing)
    (s : Settings) (st : Statistics) :
    type s g st = .ok typing (st.recordDiagnostics typing.diagnostics.length) ∨
      ∃ e, type s g st = .error e (st.recordDiagnostics typing.diagnostics.length) := by
  have hstep (next : Typing → Pass Typing) : (ofExcept (.ok typing) >>= next) st = next typing st :=
    rfl
  simp only [type, ht, hstep]
  cases s.mismatch with
  | coerce => exact Or.inl rfl
  | reject =>
    cases typing.leastMismatch? with
    | none => exact Or.inl rfl
    | some x => exact Or.inr ⟨_, rfl⟩

/-- However far a unit gets, it counts what was lifted, then what was removed, then what typing
found. -/
theorem report_counts (m : Machine) (s : Settings) (client : Option TaintClient) (u : CodeUnit)
    (st : Statistics) :
    match report m s client u st with
    | .ok r st' => ∃ b, m.lift u = .ok () b ∧
        r.order.length + r.removed = b.graph.linkedOps.length ∧
        st' = ((st.merge b.statistics).recordRemoved r.removed).recordDiagnostics
          r.typing.diagnostics.length
    | .error _ st' => ∃ b removed found, (m.lift u = .ok () b ∨ ∃ e, m.lift u = .error e b) ∧
        st' = ((st.merge b.statistics).recordRemoved removed).recordDiagnostics found := by
  cases hl : m.lift u with
  | error e b =>
    rw [report_of_lift_error s client hl]
    exact ⟨b, 0, 0, Or.inr ⟨e, rfl⟩, rfl⟩
  | ok _ b =>
    obtain ⟨g, removed, _, hg, _, rfl, hok, herror⟩ := report_of_type (s := s) client hl st
    obtain ⟨typing, htyping⟩ := Typing.exists_infer hg
    rcases type_counts htyping s ((st.merge b.statistics).recordRemoved removed) with
      htype | ⟨e, htype⟩
    · obtain ⟨r, hr, rfl, rfl, rfl⟩ := hok _ _ htype
      rw [hr]
      refine ⟨b, rfl, ?_, rfl⟩
      obtain ⟨b', hb', hclean, horder, _⟩ := report_eq_ok hr
      obtain rfl : b = b' := by
        rw [hl] at hb'
        exact (EStateM.Result.ok.inj hb').2
      have hscheduled : r.order = r.graph.linkedOps.map Prod.fst :=
        Except.ok.inj (horder.symm.trans hg.schedule_eq)
      rw [hscheduled, List.length_map]
      rcases hclean with hdead | ⟨hsame, hnone⟩
      · exact ((Machine.orderly_of_lift hl).consistent.length_linkedOps hdead).symm
      · rw [hsame, hnone, Nat.add_zero]
    · rw [herror _ _ htype]
      exact ⟨b, removed, _, Or.inl rfl, rfl⟩

end Pass

namespace Outcome

def isFallback : Outcome → Bool
  | fallback .. => true
  | _ => false

def isAborted : Outcome → Bool
  | aborted .. => true
  | _ => false

/-- The sum of a count over the units that were lifted. -/
def reported (count : Report → Nat) : List Outcome → Nat
  | [] => 0
  | lifted r :: rest => count r + reported count rest
  | _ :: rest => reported count rest

theorem reported_append (count : Report → Nat) (a b : List Outcome) :
    reported count (a ++ b) = reported count a + reported count b := by
  induction a with
  | nil => simp [reported]
  | cons o rest ih => cases o <;> simp [reported, ih, Nat.add_assoc]

theorem countP_kinds (os : List Outcome) :
    os.countP isLifted + os.countP isFallback + os.countP isAborted = os.length := by
  induction os with
  | nil => rfl
  | cons o rest ih => cases o <;> simp [List.countP_cons, isLifted, isFallback, isAborted] <;> omega

end Outcome

/-- The statistics are those of the outcomes, and agree with one another. -/
structure Results.Balanced (r : Results) : Prop where
  statistics : r.statistics.Balanced
  lifted : r.statistics.lifted = r.outcomes.countP Outcome.isLifted
  fallenBack : r.statistics.fallenBack = r.outcomes.countP Outcome.isFallback
  aborted : r.statistics.aborted = r.outcomes.countP Outcome.isAborted
  /-- Where every unit is lifted, its report shows what became of each operation. -/
  reported : r.allLifted = true →
    r.statistics.created = Outcome.reported (fun x => x.order.length + x.removed) r.outcomes ∧
      r.statistics.removed = Outcome.reported Report.removed r.outcomes ∧
      r.statistics.diagnostics =
        Outcome.reported (fun x => x.typing.diagnostics.length) r.outcomes

theorem Results.balanced_empty : Results.Balanced ⟨[], {}⟩ where
  statistics := Statistics.balanced_empty
  lifted := rfl
  fallenBack := rfl
  aborted := rfl
  reported _ := ⟨rfl, rfl, rfl⟩

theorem Results.Balanced.append {a b : Results} (ha : a.Balanced) (hb : b.Balanced) :
    (a.append b).Balanced where
  statistics := ha.statistics.merge hb.statistics
  lifted := by
    show a.statistics.lifted + b.statistics.lifted = (a.outcomes ++ b.outcomes).countP _
    rw [List.countP_append, ha.lifted, hb.lifted]
  fallenBack := by
    show a.statistics.fallenBack + b.statistics.fallenBack = (a.outcomes ++ b.outcomes).countP _
    rw [List.countP_append, ha.fallenBack, hb.fallenBack]
  aborted := by
    show a.statistics.aborted + b.statistics.aborted = (a.outcomes ++ b.outcomes).countP _
    rw [List.countP_append, ha.aborted, hb.aborted]
  reported hall := by
    obtain ⟨hall₁, hall₂⟩ : a.allLifted = true ∧ b.allLifted = true := by
      simpa only [allLifted, Results.append, List.all_append, Bool.and_eq_true] using hall
    obtain ⟨hcreated₁, hremoved₁, hfound₁⟩ := ha.reported hall₁
    obtain ⟨hcreated₂, hremoved₂, hfound₂⟩ := hb.reported hall₂
    simp only [Results.append, Statistics.merge, Outcome.reported_append, hcreated₁, hcreated₂,
      hremoved₁, hremoved₂, hfound₁, hfound₂, and_self]

/-- A unit counts once, as what became of it. -/
theorem balanced_single (m : Machine) (s : Settings) (client : Option TaintClient) (u : CodeUnit) :
    (single m s client u).Balanced := by
  have hcounts := Pass.report_counts m s client u {}
  unfold single runUnit
  cases hr : Pass.report m s client u {} with
  | ok r st =>
    rw [hr] at hcounts
    obtain ⟨b, hb, hlength, rfl⟩ := hcounts
    have hcounted : b.Counted := Machine.counted_of_lift (Or.inl hb)
    obtain ⟨hst, hlifted, hfallen, haborted⟩ :=
      hcounted.undecided r.removed r.typing.diagnostics.length
    refine ⟨⟨hst.sorted, hst.created, hst.writebacks⟩, ?_, hfallen, haborted, fun _ => ?_⟩
    · show _ + 1 = 1
      rw [hlifted]
    · have hcreated := hcounted.created
      have hremoved : b.statistics.removed = 0 := congrArg Statistics.removed hcounted.others
      have hfound : b.statistics.diagnostics = 0 := congrArg Statistics.diagnostics hcounted.others
      simp only [Statistics.recordLifted, Statistics.recordDiagnostics, Statistics.recordRemoved,
        Statistics.merge, Outcome.reported]
      omega
  | error e st =>
    rw [hr] at hcounts
    obtain ⟨b, removed, found, hb, rfl⟩ := hcounts
    obtain ⟨hst, hlifted, hfallen, haborted⟩ :=
      (Machine.counted_of_lift hb).undecided removed found
    dsimp only
    split
    · refine ⟨⟨hst.sorted, hst.created, hst.writebacks⟩, hlifted, ?_, haborted, ?_⟩
      · show _ + 1 = 1
        rw [hfallen]
      · intro hall
        cases hall
    · refine ⟨⟨hst.sorted, hst.created, hst.writebacks⟩, hlifted, hfallen, ?_, ?_⟩
      · show _ + 1 = 1
        rw [haborted]
      · intro hall
        cases hall

theorem balanced_runUnits (m : Machine) (s : Settings) (client : Option TaintClient)
    (units : List CodeUnit) : (runUnits m s client units).Balanced := by
  suffices h : ∀ r : Results, r.Balanced → (r.append (runUnits m s client units)).Balanced by
    have hempty := h ⟨[], {}⟩ Results.balanced_empty
    rwa [empty_append_runUnits] at hempty
  induction units with
  | nil =>
    intro r hr
    exact hr.append Results.balanced_empty
  | cons u rest ih =>
    intro r hr
    rw [append_runUnits_cons]
    exact ih _ (hr.append (balanced_single m s client u))

/-- The statistics of a run balance, whatever becomes of its units and however many threads share
them. Each unit is counted once, under its outcome. Operations are counted under their mnemonics, and
write-backs are the operations counted under theirs. Where every unit is lifted, each operation
counted is scheduled or removed. -/
theorem run_balances (m : Machine) (s : Settings) (p : Program) {client : Option TaintClient}
    (hc : s.client = .ok client) :
    ∃ r, run m s p = .ok r ∧ r.Balanced ∧
      r.statistics.lifted + r.statistics.fallenBack + r.statistics.aborted = p.units.length := by
  have hrun : run m s p = .ok (runUnits m s client p.units) := by
    rw [run_eq_runUnits, hc]
    rfl
  have hbalanced := balanced_runUnits m s client p.units
  refine ⟨_, hrun, hbalanced, ?_⟩
  rw [hbalanced.lifted, hbalanced.fallenBack, hbalanced.aborted, Outcome.countP_kinds,
    outcomes_runUnits, List.length_map]

/-- A unit that overwrites what it read, and one that fails after an operation and a write-back. -/
def givenUpMidway : Program :=
  ⟨[{ name := "f", line := 1, records := [
      ⟨2, some (.name "RAX"), "INT_ADD", [.name "RAX", .name "RBX"]⟩] },
    { name := "g", line := 4, records := [
      ⟨5, some (.name "RAX"), "COPY", [.name "RBX"]⟩,
      ⟨6, none, "BRANCHIND", [.name "RAX"]⟩,
      ⟨7, none, "JUMP", []⟩] }]⟩

theorem givenUpMidway_balances :
    Settings.client { threads := 2 } = .ok none ∧
    ∃ r, run {} { threads := 2 } givenUpMidway = .ok r ∧ r.Balanced ∧
      r.statistics.lifted + r.statistics.fallenBack + r.statistics.aborted = 2 :=
  ⟨rfl, run_balances {} { threads := 2 } givenUpMidway rfl⟩

end DefUse
