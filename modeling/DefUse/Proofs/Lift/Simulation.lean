import DefUse.Proofs.Lift.Direct

namespace DefUse

theorem Graph.Orderly.operations_eq {g : Graph} (hg : g.Orderly) : g.operations = g.linkedOps := by
  rw [operations, linkedOps, ← List.filterMap_eq_map]
  apply List.filterMap_congr
  rintro ⟨id, node⟩ hmem
  have hlinked := hg.linked (mem_nodeList.mp hmem)
  simp [hlinked]

/-- What the two runs of a unit share: the meaning of its opcodes, the kinds of all values that its
graph will have, the memory on entry and the locations it names. -/
structure Scene where
  opcodes : Interpretation
  kinds : ValueId → Option (Origin × Nat)
  entry : Memory
  names : List Location
  separated : ∀ a ∈ names, ∀ b ∈ names, a ≠ b →
    ∀ space x, a.Covers space x → b.Covers space x → a.overlaps b = true

namespace Scene
open Lifting Lift Interpretation

variable {S : Scene} {s t : Lifting} {new : List (OpId × Operation)}

def meaning (S : Scene) : Meaning (List UInt8) Memory :=
  S.opcodes.meaning S.kinds

/-- The operations so far. -/
def run (S : Scene) (s : Lifting) : Run (List UInt8) Memory :=
  S.meaning.run (S.opcodes.start S.kinds S.entry) s.graph.linkedOps

def events (S : Scene) (s : Lifting) : List Event :=
  S.meaning.trace (S.opcodes.start S.kinds S.entry) s.graph.linkedOps

/-- The values so far are of the kinds they will have. -/
structure Knows (S : Scene) (g : Graph) : Prop where
  kind : ∀ {v k}, g.kind? v = some k → S.kinds v = some k

theorem Knows.of_reaches (h : S.Knows t.graph) (hr : s.Reaches t new) : S.Knows s.graph :=
  ⟨fun hv => h.kind (hr.grows.kind hv)⟩

theorem run_of_grows (hg : s.graph.Grows t.graph new) :
    S.run t = S.meaning.run (S.run s) new := by
  rw [run, hg.code, Meaning.run_append]
  rfl

theorem events_of_grows (hg : s.graph.Grows t.graph new) :
    S.events t = S.events s ++ S.meaning.trace (S.run s) new := by
  rw [events, hg.code, Meaning.trace_append]
  rfl

/-- A value keeps what it stands for. -/
theorem env_of_grows (hg : s.graph.Grows t.graph new) {v : ValueId}
    (hv : (s.graph.kind? v).isSome = true) : (S.run t).env v = (S.run s).env v := by
  rw [run_of_grows hg]
  apply Meaning.env_run_of_ne
  intro x hx hout
  rw [hg.fresh hx hout] at hv
  cases hv

theorem map_env_of_grows (hg : s.graph.Grows t.graph new) {vs : List ValueId}
    (hvs : ∀ v ∈ vs, (s.graph.kind? v).isSome = true) :
    vs.map (S.run t).env = vs.map (S.run s).env :=
  List.map_congr_left fun v hv => env_of_grows hg (hvs v hv)

/-- A value that no operation defines stands for what it does before anything runs. -/
theorem env_free (hs : s.Sound) (hk : S.Knows s.graph) {v : ValueId} {origin : Origin} {size : Nat}
    (hv : s.graph.kind? v = some (origin, size)) (ho : origin ≠ .output) :
    (S.run s).env v = S.opcodes.free S.entry (some (origin, size)) := by
  have hdefined : (S.run s).env v = (S.opcodes.start S.kinds S.entry).env v := by
    apply Meaning.env_run_of_ne
    intro x hx hout
    obtain ⟨n, hn⟩ := hs.graph.output (Graph.mem_linkedOps_iff.mp hx) hout
    rw [hv] at hn
    cases hn
    exact ho rfl
  rw [hdefined, ← hk.kind hv]
  rfl

/-- The graph keeps step with the records: `loaded` are the values of the load records so far. -/
structure Simulates (S : Scene) (loaded : List ValueId) (s : Lifting) (d : Direct) : Prop where
  sound : s.Sound
  held : ∀ {l v}, s.contents.get? l = some v → (S.run s).env v = d.memory.contents l
  agrees : ∀ {space x}, space.isObservable = true → (∀ p ∈ s.pending, ¬p.Covers space x) →
    (S.run s).memory space x = d.memory space x
  intact : ∀ {space x}, space ∉ s.foreign → (∀ l ∈ s.touched, ¬l.Covers space x) →
    d.memory space x = S.entry space x
  pending : ∀ {p}, p ∈ s.pending → p ∈ s.touched ∧ p.space.isObservable = true
  foreign : ∀ {space}, space ∈ s.foreign → space.isObservable = true
  touched : ∀ {l}, l ∈ s.touched → l ∈ S.names ∧
    ((s.contents.get? l).isSome = true ∨ ∃ k ∈ s.touched, k.overlaps l = true)
  named : ∀ {l v}, s.contents.get? l = some v → l ∈ S.names
  events : S.events s = d.events
  live : ∀ v ∈ loaded, (s.graph.kind? v).isSome = true
  loads : loaded.map (S.run s).env = d.loads

variable {loaded : List ValueId} {d : Direct}

theorem Simulates.live_of_held (h : S.Simulates loaded s d) {l : Location} {v : ValueId}
    (hv : s.contents.get? l = some v) : (s.graph.kind? v).isSome = true := by
  obtain ⟨origin, hk⟩ := h.sound.held hv
  exact Option.isSome_of_eq_some hk

/-- Operations, with what is seen of them, after which memory and the graph's memory still differ at
most where a write is pending. -/
theorem Simulates.settle (h : S.Simulates loaded s d) {gone : List Location}
    (hst : Settles gone s t) (hr : s.Reaches t new)
    (hagrees : ∀ {space x}, space.isObservable = true → (∀ p ∈ t.pending, ¬p.Covers space x) →
      (S.meaning.run (S.run s) new).memory space x = d.memory space x) :
    S.Simulates loaded t { d with events := d.events ++ S.meaning.trace (S.run s) new } where
  sound := hr.sound
  held hv := by
    rw [hst.contents] at hv
    rw [env_of_grows hr.grows (h.live_of_held hv)]
    exact h.held hv
  agrees hobs hclear := by
    rw [run_of_grows hr.grows]
    exact hagrees hobs hclear
  intact hf hl := by
    rw [hst.foreign] at hf
    rw [hst.touched] at hl
    exact h.intact hf hl
  pending hp := by
    rw [hst.pending] at hp
    rw [hst.touched]
    exact h.pending (List.mem_filter.mp hp).1
  foreign hf := by
    rw [hst.foreign] at hf
    exact h.foreign hf
  touched hl := by
    rw [hst.touched] at hl
    rw [hst.touched, hst.contents]
    exact h.touched hl
  named hv := by
    rw [hst.contents] at hv
    exact h.named hv
  events := by rw [events_of_grows hr.grows, h.events]
  live v hv := hr.grows.live (h.live v hv)
  loads := by
    rw [map_env_of_grows hr.grows h.live]
    exact h.loads

/-- Operations that leave memory alone. -/
theorem Simulates.grow (h : S.Simulates loaded s d) (ha : s.Alike t) (hr : s.Reaches t new)
    (hmem : (S.meaning.run (S.run s) new).memory = (S.run s).memory) :
    S.Simulates loaded t { d with events := d.events ++ S.meaning.trace (S.run s) new } := by
  refine h.settle ha.settles hr fun hobs hclear => ?_
  rw [ha.pending] at hclear
  rw [hmem]
  exact h.agrees hobs hclear

/-- Values without operations. -/
theorem Simulates.grow_nil (h : S.Simulates loaded s d) (ha : s.Alike t) (hr : s.Reaches t []) :
    S.Simulates loaded t d := by
  have hgrow := h.grow ha hr rfl
  rwa [Meaning.trace, List.append_nil] at hgrow

/-- One operation that leaves memory alone, with what is seen of it. -/
theorem Simulates.grow_one (h : S.Simulates loaded s d) (ha : s.Alike t) {id : OpId}
    {op : Operation} (hr : s.Reaches t [(id, op)])
    (hmem : S.meaning.memoryAfter op (op.inputs.map (S.run s).env) (S.run s).memory =
      (S.run s).memory) :
    S.Simulates loaded t { d with
      events := d.events ++ op.events (op.inputs.map (S.run s).env) (S.run s).memory } := by
  have hgrow := h.grow ha hr hmem
  rwa [Meaning.trace, Meaning.trace, List.append_nil] at hgrow

/-- A pending write moves into the graph's memory. -/
theorem Simulates.writeback (h : S.Simulates loaded s d) {l : Location} {v : ValueId} {id : OpId}
    (hv : s.contents.get? l = some v) (hr : s.Reaches t [(id, .writeback l v)])
    (hst : Settles [l] s t) : S.Simulates loaded t d := by
  have hmem : (S.meaning.run (S.run s) [(id, .writeback l v)]).memory =
      (S.run s).memory.put l (d.memory.contents l) := by
    rw [← h.held hv]
    rfl
  have ht := h.settle hst hr fun {space x} hobs hclear => by
    rw [hmem]
    by_cases hl : l.Covers space x
    · exact Memory.put_contents_of_covers hl
    · rw [Memory.put_of_not_covers (Memory.length_contents ..) hl]
      refine h.agrees hobs fun p hp => ?_
      by_cases he : p = l
      · exact he ▸ hl
      · apply hclear p
        rw [hst.pending]
        simpa [he] using hp
  simpa [Meaning.trace, Operation.events] using ht

theorem Simulates.writeBacks {ls : List Location} (hw : WriteBacks ls s t)
    (h : S.Simulates loaded s d) : S.Simulates loaded t d := by
  induction hw with
  | nil => exact h
  | cons first _ ih =>
    obtain ⟨v, id, hv, hr⟩ := first.held
    exact ih (h.writeback hv hr first.settles)

/-- A location of the unit takes a value. -/
theorem Simulates.hold (h : S.Simulates loaded s d) {l : Location} {v : ValueId}
    {bytes : List UInt8} (hs : (s.hold l v).Sound) (hl : l ∈ S.names)
    (hv : (S.run s).env v = bytes) (hlen : bytes.length = l.size) :
    S.Simulates loaded (s.hold l v) (d.assign l bytes) where
  sound := hs
  held {k w} hw := by
    rw [get?_hold] at hw
    split at hw
    next he =>
      obtain rfl := Option.some.inj hw
      rw [← he]
      exact hv.trans (Memory.contents_put hlen).symm
    next hne =>
      split at hw
      next => cases hw
      next hover =>
        -- other known locations share no byte with the one written
        have hold : (S.run s).env w = d.memory.contents k := h.held hw
        refine hold.trans (Memory.contents_congr fun space x hk => ?_)
        refine (Memory.put_of_not_covers hlen fun hc => hover ?_).symm
        exact S.separated k (h.named hw) l hl (Ne.symm hne) space x hk hc
  agrees {space x} hobs hclear := by
    have hout : ¬l.Covers space x := by
      intro hc
      refine hclear l (mem_pending_hold.mpr (Or.inr ⟨rfl, ?_⟩)) hc
      rw [hc.1]
      exact hobs
    have hsame : (d.assign l bytes).memory space x = d.memory space x :=
      Memory.put_of_not_covers hlen hout
    rw [hsame]
    exact h.agrees hobs fun p hp => hclear p (mem_pending_hold.mpr (Or.inl hp))
  intact {space x} hf ht := by
    have hout : ¬l.Covers space x := ht l (mem_touched_hold.mpr (Or.inr rfl))
    have hsame : (d.assign l bytes).memory space x = d.memory space x :=
      Memory.put_of_not_covers hlen hout
    rw [hsame]
    exact h.intact hf fun k hk => ht k (mem_touched_hold.mpr (Or.inl hk))
  pending {p} hp := by
    rw [mem_touched_hold]
    rcases mem_pending_hold.mp hp with hp | ⟨rfl, hobs⟩
    · exact ⟨Or.inl (h.pending hp).1, (h.pending hp).2⟩
    · exact ⟨Or.inr rfl, hobs⟩
  foreign hf := h.foreign hf
  touched {k} hk := by
    by_cases he : l = k
    · refine ⟨he ▸ hl, Or.inl ?_⟩
      rw [get?_hold, if_pos he]
      rfl
    · have hold : k ∈ s.touched := (mem_touched_hold.mp hk).resolve_right (Ne.symm he)
      refine ⟨(h.touched hold).1, ?_⟩
      by_cases hover : k.overlaps l = true
      · refine Or.inr ⟨l, mem_touched_hold.mpr (Or.inr rfl), ?_⟩
        rw [Location.overlaps_comm]
        exact hover
      · rw [get?_hold, if_neg he, if_neg hover]
        refine (h.touched hold).2.imp_right ?_
        rintro ⟨j, hj, hjk⟩
        exact ⟨j, mem_touched_hold.mpr (Or.inl hj), hjk⟩
  named {k w} hw := by
    rw [get?_hold] at hw
    split at hw
    next he => exact he ▸ hl
    next =>
      split at hw
      next => cases hw
      next => exact h.named hw
  events := h.events
  live := h.live
  loads := h.loads

theorem Simulates.assigns (h : S.Simulates loaded s d) {l : Location} {v : ValueId}
    {bytes : List UInt8} (ha : Assigns l v s t) (hl : l ∈ S.names)
    (hlive : (s.graph.kind? v).isSome = true) (hv : (S.run s).env v = bytes)
    (hlen : bytes.length = l.size) : S.Simulates loaded t (d.assign l bytes) := by
  obtain ⟨u, hw, rfl⟩ := ha.before
  obtain ⟨new, hr⟩ := hw.reaches h.sound
  refine (h.writeBacks hw).hold ha.sound hl ?_ hlen
  rw [env_of_grows hr.grows hlive]
  exact hv

theorem env_fixes {word : UInt64} {size : Nat} {v : ValueId} (hf : Fixes word size s v t)
    (hk : S.Knows t.graph) : (S.run t).env v = (S.opcodes.constant word size).toList :=
  env_free hf.reaches.sound hk hf.kind (by simp)

/-- A new output stands for what its operation gives. -/
theorem env_emits {size : Nat} {op : ValueId → Operation} {out : ValueId}
    (he : Emits size op s out t) (hout : (op out).output = some out) :
    (S.run t).env out =
      S.meaning.result (op out) ((op out).inputs.map (S.run s).env) (S.run s).memory := by
  obtain ⟨id, hr⟩ := he.reaches
  rw [run_of_grows hr.grows]
  exact S.meaning.env_step_output (x := (id, op out)) _ hout

/-- Nothing touched a location that is neither known nor overlapped. -/
theorem Simulates.not_covers_of_unheld (h : S.Simulates loaded s d) {l : Location}
    (hl : l ∈ S.names) (hunheld : s.contents.get? l = none)
    (huntouched : ∀ p ∈ s.touched, p.overlaps l = false) {space : Space} {x : Nat}
    (hx : l.Covers space x) : ∀ p ∈ s.touched, ¬p.Covers space x := by
  intro p hp hc
  by_cases he : p = l
  · subst he
    rcases (h.touched hp).2 with hheld | ⟨k, hk, hover⟩
    · rw [hunheld] at hheld
      cases hheld
    · rw [huntouched k hk] at hover
      cases hover
  · have hover := S.separated p (h.touched hp).1 l hl he space x hc hx
    rw [huntouched p hp] at hover
    cases hover

theorem Simulates.finds (h : S.Simulates loaded s d) {l : Location} {v : ValueId}
    (hl : l ∈ S.names) (hunheld : s.contents.get? l = none)
    (huntouched : ∀ p ∈ s.touched, p.overlaps l = false) (hf : Finds l s v t)
    (hk : S.Knows t.graph) :
    S.Simulates loaded t d ∧ (S.run t).env v = d.memory.contents l := by
  cases hf with
  | entry native creates =>
    refine ⟨h.grow_nil creates.alike creates.reaches, ?_⟩
    rw [env_free creates.reaches.sound hk creates.kind (by simp)]
    refine Memory.contents_congr fun space x hx => (h.intact ?_ ?_).symm
    · exact hx.1 ▸ native
    · exact h.not_covers_of_unheld hl hunheld huntouched hx
  | load foreign offset u fixes emits =>
    obtain ⟨id, hr⟩ := emits.reaches
    have hu := h.grow_nil fixes.alike fixes.reaches
    have ht := hu.grow_one emits.alike hr rfl
    refine ⟨by simpa [Operation.events] using ht, ?_⟩
    have hoffset := env_fixes fixes (hk.of_reaches hr)
    have hsize := width_eq (hk.kind emits.kind)
    have hload : (S.run t).env v = (S.run u).memory.contents l := by
      rw [env_emits emits rfl]
      simp [Meaning.result, Operation.hasEffects, Operation.isOrdered, Operation.inputs, meaning,
        Interpretation.meaning, hsize, hoffset, S.opcodes.address_constant, Memory.contents]
    rw [hload]
    refine Memory.contents_congr fun space x hx => hu.agrees ?_ fun p hp => ?_
    · exact hx.1 ▸ h.foreign foreign
    · rw [fixes.alike.pending] at hp
      exact h.not_covers_of_unheld hl hunheld huntouched hx p (h.pending hp).1

/-- A location of the unit is known from now on. -/
theorem Simulates.note (h : S.Simulates loaded s d) {l : Location} {v : ValueId}
    (hs : (s.note l v).Sound) (hl : l ∈ S.names) (hv : (S.run s).env v = d.memory.contents l) :
    S.Simulates loaded (s.note l v) d where
  sound := hs
  held {k w} hw := by
    simp only [Lifting.note, Assoc.get?_put] at hw
    split at hw
    next he =>
      obtain rfl := Option.some.inj hw
      exact he ▸ hv
    next => exact h.held hw
  agrees := h.agrees
  intact := h.intact
  pending := h.pending
  foreign := h.foreign
  touched {k} hk := by
    refine ⟨(h.touched hk).1, (h.touched hk).2.imp_left fun hheld => ?_⟩
    simp only [Lifting.note, Assoc.get?_put]
    split
    next => rfl
    next => exact hheld
  named {k w} hw := by
    simp only [Lifting.note, Assoc.get?_put] at hw
    split at hw
    next he => exact he ▸ hl
    next => exact h.named hw
  events := h.events
  live := h.live
  loads := h.loads

/-- What is read from a location is what memory holds there. -/
theorem Simulates.fetches (h : S.Simulates loaded s d) {l : Location} {v : ValueId}
    (hf : Fetches l s v t) (hl : l.space ≠ .const → l ∈ S.names) (hk : S.Knows t.graph) :
    S.Simulates loaded t d ∧ (S.run t).env v = S.opcodes.value d.memory l := by
  cases hf with
  | constant space fixes =>
    rw [value, if_pos space]
    exact ⟨h.grow_nil fixes.alike fixes.reaches, env_fixes fixes hk⟩
  | known space held same =>
    rw [value, if_neg space, same]
    exact ⟨h, h.held held⟩
  | unknown space unheld untouched u finds note =>
    subst note
    obtain ⟨origin, hkind⟩ := finds.kind
    obtain ⟨hu, henv⟩ := h.finds (hl space) unheld untouched finds hk
    rw [value, if_neg space]
    exact ⟨hu.note (hu.sound.note hkind) (hl space) henv, henv⟩

section Operands
variable {m : Machine} {line : Nat}

/-- The location of the operand is one that the unit names. -/
def Names (S : Scene) (m : Machine) (line : Nat) (o : Operand) : Prop :=
  ∀ {l}, m.location line o = .ok l → l.space ≠ .const → l ∈ S.names

theorem Simulates.reads (h : S.Simulates loaded s d) {o : Operand} {v : ValueId}
    (hr : Reads m line o s v t) (hn : S.Names m line o) (hk : S.Knows t.graph) :
    S.Simulates loaded t d ∧ S.opcodes.operand m line d.memory o = some ((S.run t).env v) := by
  obtain ⟨l, hl, hf⟩ := hr
  obtain ⟨ht, henv⟩ := h.fetches hf (hn hl) hk
  refine ⟨ht, ?_⟩
  rw [operand, hl, henv]
  rfl

theorem Simulates.readsAll {os : List Operand} {vs : List ValueId} (hr : ReadsAll m line os s vs t)
    (h : S.Simulates loaded s d) (hn : ∀ o ∈ os, S.Names m line o) (hk : S.Knows t.graph) :
    S.Simulates loaded t d ∧
      os.mapM (S.opcodes.operand m line d.memory) = some (vs.map (S.run t).env) := by
  induction hr with
  | nil => exact ⟨h, rfl⟩
  | cons first others ih =>
    obtain ⟨_, h₁⟩ := first.reaches h.sound
    obtain ⟨_, h₂⟩ := others.reaches h₁.sound
    obtain ⟨hfirst, hvalue⟩ :=
      h.reads first (hn _ List.mem_cons_self) (hk.of_reaches h₂)
    obtain ⟨hothers, hvalues⟩ := ih hfirst (fun o ho => hn o (List.mem_cons_of_mem _ ho)) hk
    refine ⟨hothers, ?_⟩
    rw [List.mapM_cons, hvalue, hvalues, List.map_cons,
      env_of_grows h₂.grows (first.live h.sound)]
    rfl

end Operands

/-- An operation that computes or loads its output, which a location of the unit then holds. -/
theorem Simulates.defines (h : S.Simulates loaded s d) {l : Location} {op : ValueId → Operation}
    {out : ValueId} {u : Lifting} {bytes : List UInt8} (he : Emits l.size op s out u)
    (ha : Assigns l out u t) (hl : l ∈ S.names) (hout : (op out).output = some out)
    (heffects : (op out).hasEffects = false)
    (hevents : ∀ args memory, (op out).events args memory = [])
    (hvalue : S.meaning.result (op out) ((op out).inputs.map (S.run s).env) (S.run s).memory = bytes)
    (hlen : bytes.length = l.size) : S.Simulates loaded t (d.assign l bytes) := by
  obtain ⟨id, hr⟩ := he.reaches
  have hu := h.grow_one he.alike hr (by simp [Meaning.memoryAfter, heffects])
  rw [hevents, List.append_nil] at hu
  refine hu.assigns ha hl (Option.isSome_of_eq_some he.kind) ?_ hlen
  rw [env_emits he hout]
  exact hvalue

/-- Once nothing is pending the graph's memory is what can be observed. -/
theorem Simulates.observed (h : S.Simulates loaded s d) (hp : s.pending = []) :
    (S.run s).memory.observed = d.memory.observed := by
  have hspace : ∀ space, space.isObservable = true →
      (S.run s).memory space = d.memory space := by
    intro space hobs
    funext x
    refine h.agrees hobs fun p hin => ?_
    rw [hp] at hin
    cases hin
  rw [Memory.observed, Memory.observed, hspace .register rfl, hspace .ram rfl]

/-- An operation that changes one space, of which everything is then forgotten. -/
theorem Simulates.forget (h : S.Simulates loaded s d) (ha : s.Alike t) {id : OpId} {op : Operation}
    (hr : s.Reaches t [(id, op)]) {space : Space} (memory : Memory)
    (hobs : space.isObservable = true) (hclear : ∀ p ∈ s.pending, p.space ≠ space)
    (hspace : (S.run t).memory space = memory space)
    (hother : ∀ other, other ≠ space →
      (S.run t).memory other = (S.run s).memory other ∧ memory other = d.memory other) :
    S.Simulates loaded (t.forget space) { d with
      memory := memory
      events := d.events ++ op.events (op.inputs.map (S.run s).env) (S.run s).memory } where
  sound := by
    refine hr.sound.forget fun p hp => ?_
    rw [ha.pending] at hp
    exact hclear p hp
  held {k w} hw := by
    rw [get?_forget] at hw
    split at hw
    next => cases hw
    next hne =>
      rw [ha.contents] at hw
      have hold : (S.run (t.forget space)).env w = d.memory.contents k :=
        (env_of_grows hr.grows (h.live_of_held hw)).trans (h.held hw)
      refine hold.trans (Memory.contents_congr fun other x hx => ?_)
      have hmem : memory other = d.memory other := (hother other (hx.1 ▸ hne)).2
      exact congrFun hmem.symm x
  agrees {other x} hobs' hclear' := by
    by_cases he : other = space
    · subst he
      exact congrFun hspace x
    · obtain ⟨hgraph, hdirect⟩ := hother other he
      refine (congrFun hgraph x).trans (Eq.trans ?_ (congrFun hdirect x).symm)
      refine h.agrees hobs' fun p hp => hclear' p ?_
      rw [← ha.pending] at hp
      exact hp
  intact {other x} hf hl := by
    have hne : other ≠ space := fun he => hf (mem_foreign_forget.mpr (Or.inr he))
    refine (congrFun (hother other hne).2 x).trans (h.intact ?_ ?_)
    · intro hin
      rw [← ha.foreign] at hin
      exact hf (mem_foreign_forget.mpr (Or.inl hin))
    · intro k hk hc
      rw [← ha.touched] at hk
      exact hl k (mem_touched_forget.mpr ⟨hk, hc.1 ▸ hne⟩) hc
  pending {p} hp := by
    have hp' : p ∈ t.pending := hp
    rw [ha.pending] at hp'
    rw [mem_touched_forget, ha.touched]
    exact ⟨⟨(h.pending hp').1, hclear p hp'⟩, (h.pending hp').2⟩
  foreign {other} hf := by
    rcases mem_foreign_forget.mp hf with hin | rfl
    · rw [ha.foreign] at hin
      exact h.foreign hin
    · exact hobs
  touched {k} hk := by
    obtain ⟨hin, hne⟩ := mem_touched_forget.mp hk
    rw [ha.touched] at hin
    refine ⟨(h.touched hin).1, ?_⟩
    rw [get?_forget, if_neg hne, ha.contents]
    refine (h.touched hin).2.imp_right ?_
    rintro ⟨j, hj, hover⟩
    rw [← ha.touched] at hj
    exact ⟨j, mem_touched_forget.mpr ⟨hj, Location.space_eq_of_overlaps hover ▸ hne⟩, hover⟩
  named {k w} hw := by
    rw [get?_forget] at hw
    split at hw
    next => cases hw
    next =>
      rw [ha.contents] at hw
      exact h.named hw
  events := by
    have hevents := events_of_grows (S := S) hr.grows
    rw [Meaning.trace, Meaning.trace, List.append_nil, h.events] at hevents
    exact hevents
  live w hw := hr.grows.live (h.live w hw)
  loads := (map_env_of_grows hr.grows h.live).trans h.loads

end Scene
end DefUse
