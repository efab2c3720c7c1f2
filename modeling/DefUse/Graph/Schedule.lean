import DefUse.Graph.Basic

namespace DefUse.Graph

/-- The operations that define the inputs. -/
def definers (g : Graph) (inputs : List ValueId) : Except Refusal (List OpId) := do
  let values ← inputs.mapM g.value
  return values.filterMap (·.definer)

/-- What each operation waits for; `last` is the previous ordered one. -/
def waits (g : Graph) :
    (last : Option OpId) → List (OpId × Operation) → Except Refusal (List (OpId × List OpId))
  | _, [] => .ok []
  | last, (id, op) :: rest => do
    let defs ← g.definers op.inputs
    if op.isOrdered then
      return (id, defs ++ last.toList) :: (← waits g (some id) rest)
    else
      return (id, defs) :: (← waits g last rest)

/-- How far scheduling has come. -/
structure Progress where
  /-- How many operations each one still waits for. -/
  pending : Assoc OpId Nat
  /-- The operations whose turn may come, in order of creation. -/
  ready : List OpId
  /-- The operations taken, the last one first. -/
  order : List OpId := []
deriving DecidableEq, Repr

namespace Progress

/-- Before the first step. What an operation waits for twice counts once. -/
def start (entries : List (OpId × List OpId)) : Progress :=
  let pending := entries.map fun (id, deps) => (id, deps.eraseDups.length)
  { pending, ready := (pending.filter fun e => e.2 = 0).map (·.1) }

/-- Puts an operation in front of the first one that was created later. -/
def enqueue (id : OpId) : List OpId → List OpId
  | [] => [id]
  | first :: rest =>
    if first.index < id.index then first :: enqueue id rest else id :: first :: rest

/-- One of those that an operation waits for is done; with the last one it is ready. -/
def countDown (s : Progress) (id : OpId) : Progress :=
  match s.pending.get? id with
  | some (n + 1) =>
    { s with
      pending := s.pending.put id n
      ready := if n = 0 then enqueue id s.ready else s.ready }
  | _ => s

/-- The operations that wait for `id`. -/
def dependents (entries : List (OpId × List OpId)) (id : OpId) : List OpId :=
  (entries.filter fun e => e.2.contains id).map (·.1)

/-- The state in which the counting down for `id` begins. -/
def take (s : Progress) (id : OpId) (ready : List OpId) : Progress :=
  { s with ready, order := id :: s.order }

/-- Takes the first operation that is ready. -/
def step (entries : List (OpId × List OpId)) (s : Progress) : Option Progress :=
  match s.ready with
  | [] => none
  | id :: ready => some ((dependents entries id).foldl countDown (s.take id ready))

/-- The first operation that still waits. -/
def stuck? (s : Progress) : Option OpId :=
  (s.pending.find? fun e => 0 < e.2).map (·.1)

def total : Assoc OpId Nat → Nat
  | [] => 0
  | (_, count) :: rest => count + total rest

def remaining (s : Progress) : Nat :=
  total s.pending + s.ready.length

theorem total_put {m : Assoc OpId Nat} {id : OpId} {n : Nat} (h : m.get? id = some n) (a : Nat) :
    total (m.put id a) + n = total m + a := by
  induction m with
  | nil => simp [Assoc.get?] at h
  | cons e rest ih =>
    obtain ⟨j, b⟩ := e
    by_cases hj : j = id
    · obtain rfl : b = n := by simpa [Assoc.get?, hj] using h
      simp only [Assoc.put, hj, if_true, total]
      omega
    · have hrest : Assoc.get? rest id = some n := by simpa [Assoc.get?, hj] using h
      have := ih hrest
      simp only [Assoc.put, hj, if_false, total]
      omega

theorem length_enqueue (id : OpId) (ready : List OpId) :
    (enqueue id ready).length = ready.length + 1 := by
  induction ready with
  | nil => rfl
  | cons first rest ih =>
    simp only [enqueue]
    split <;> simp [ih]

theorem remaining_countDown (s : Progress) (id : OpId) :
    (s.countDown id).remaining ≤ s.remaining := by
  unfold countDown
  split
  next n hn =>
    have htotal := total_put hn n
    by_cases h0 : n = 0
    · simp only [remaining, if_pos h0, length_enqueue]
      omega
    · simp only [remaining, if_neg h0]
      omega
  next => exact Nat.le_refl _

theorem remaining_foldl (ids : List OpId) (s : Progress) :
    (ids.foldl countDown s).remaining ≤ s.remaining := by
  induction ids generalizing s with
  | nil => exact Nat.le_refl _
  | cons id rest ih => exact Nat.le_trans (ih _) (remaining_countDown s id)

theorem remaining_step {entries : List (OpId × List OpId)} {s t : Progress}
    (h : s.step entries = some t) : t.remaining < s.remaining := by
  unfold step at h
  split at h
  · cases h
  next id ready hready =>
    obtain rfl := Option.some.inj h
    have := remaining_foldl (dependents entries id) (s.take id ready)
    simp only [remaining, take, hready, List.length_cons] at *
    omega

/-- Steps until nothing is ready. -/
def drain (entries : List (OpId × List OpId)) (s : Progress) : Progress :=
  match _h : s.step entries with
  | none => s
  | some t => drain entries t
termination_by s.remaining
decreasing_by exact remaining_step _h

end Progress

/-- The order in which the linked operations can run. Of those that wait for nothing, the one
created first goes next. -/
def schedule (g : Graph) : Except Refusal (List OpId) := do
  let entries ← g.waits none g.linkedOps
  let last := (Progress.start entries).drain entries
  if last.order.length = last.pending.length then .ok last.order.reverse
  else
    match last.stuck? with
    | some id => .error (.cycle id)
    | none => .error (.cycle ⟨0⟩)

end DefUse.Graph
