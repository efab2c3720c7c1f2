import DefUse.Graph.Refusal
import DefUse.Slots

namespace DefUse

abbrev Values := Slots Value

namespace Values

def value? (vs : Values) (v : ValueId) : Option Value :=
  vs.get? v.index

def modifyValue (vs : Values) (v : ValueId) (f : Value → Value) : Values :=
  vs.modify v.index f

def release (vs : Values) (v : ValueId) : Values :=
  vs.erase v.index

/-- The live values in order of creation. -/
def list (vs : Values) : List (ValueId × Value) :=
  vs.entries.map fun (i, value) => (⟨i⟩, value)

theorem value?_modifyValue (vs : Values) (v w : ValueId) (f : Value → Value) :
    (vs.modifyValue v f).value? w = if v = w then (vs.value? w).map f else vs.value? w := by
  cases v; cases w
  simp [value?, modifyValue, Slots.get?_modify]

theorem value?_release (vs : Values) (v w : ValueId) :
    (vs.release v).value? w = if v = w then none else vs.value? w := by
  cases v; cases w
  simp [value?, release, Slots.get?_erase]

theorem mem_list {vs : Values} {v : ValueId} {value : Value} :
    (v, value) ∈ vs.list ↔ vs.value? v = some value := by
  rw [value?, ← Slots.mem_entries]
  simp only [list, List.mem_map]
  constructor
  · rintro ⟨⟨i, a⟩, hm, he⟩
    obtain ⟨rfl, rfl⟩ := Prod.mk.inj he
    exact hm
  · exact fun h => ⟨(v.index, value), h, rfl⟩

def isUsed (vs : Values) (v : ValueId) : Bool :=
  match vs.value? v with
  | some value => value.isUsed
  | none => false

def create (value : Value) : Call Values ValueId := fun vs =>
  .ok ⟨vs.next⟩ (vs.push value)

/-- Records a use after those already recorded. -/
def addUse (v : ValueId) (u : Use) : Call Values Unit := fun vs =>
  match vs.value? v with
  | none => .error (.unknownValue v) vs
  | some value =>
    if value.hasUse u then .error (.duplicateUse v u) vs
    else .ok () (vs.modifyValue v fun w => { w with uses := w.uses ++ [u] })

/-- Forgets a use; the others keep their order. -/
def removeUse (v : ValueId) (u : Use) : Call Values Unit := fun vs =>
  match vs.value? v with
  | none => .error (.unknownValue v) vs
  | some value =>
    if value.hasUse u then .ok () (vs.modifyValue v fun w => { w with uses := w.uses.erase u })
    else .error (.missingUse v u) vs

/-- Makes `op` the one definer of an output. -/
def define (v : ValueId) (op : OpId) : Call Values Unit := fun vs =>
  match vs.value? v with
  | none => .error (.unknownValue v) vs
  | some value =>
    match value.origin, value.definer with
    | .output, none => .ok () (vs.modifyValue v fun w => { w with definer := some op })
    | .output, some definer => .error (.redefined v definer op) vs
    | _, _ => .error (.notAnOutput v) vs

def undefine (v : ValueId) (op : OpId) : Call Values Unit := fun vs =>
  match vs.value? v with
  | none => .error (.unknownValue v) vs
  | some value =>
    if value.definer = some op then .ok () (vs.modifyValue v fun w => { w with definer := none })
    else .error (.definerMismatch v op) vs

/-- A use of each input at its position, counted from `position`. -/
def addUses (op : OpId) : (position : Nat) → List ValueId → Call Values Unit
  | _, [] => pure ()
  | position, v :: rest => do
    addUse v ⟨op, position⟩
    addUses op (position + 1) rest

def removeUses (op : OpId) : (position : Nat) → List ValueId → Call Values Unit
  | _, [] => pure ()
  | position, v :: rest => do
    removeUse v ⟨op, position⟩
    removeUses op (position + 1) rest

end Values
end DefUse
