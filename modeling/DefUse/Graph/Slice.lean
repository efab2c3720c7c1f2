import DefUse.Graph.Basic

namespace DefUse

/-- All that `next` leads to from the work list, each once and only among `unseen`. -/
def spread {α : Type} [DecidableEq α] (next : α → List α) (unseen work : List α) : List α :=
  match work with
  | [] => []
  | a :: work =>
    if a ∈ unseen then a :: spread next (unseen.erase a) (next a ++ work)
    else spread next unseen work
termination_by (unseen.length, work.length)
decreasing_by
  next h =>
    apply Prod.Lex.left
    have := List.length_erase_of_mem h
    have := List.length_pos_of_mem h
    omega
  · exact Prod.Lex.right _ (Nat.lt_succ_self _)

namespace Graph

/-- The outputs of the operations recorded as readers of a value. -/
def dependents (g : Graph) (v : ValueId) : List ValueId :=
  match g.value? v with
  | none => []
  | some value => value.uses.filterMap fun u => (g.node? u.op).bind (·.op.output)

/-- Every value a slice can meet. -/
def sliceDomain (g : Graph) : List ValueId :=
  (g.values.list.map (·.1) ++ g.nodeList.filterMap (·.2.op.output)).eraseDups

/-- The seeds that are live and all that depends on them, in order of creation. -/
def forwardSlice (g : Graph) (seeds : List ValueId) : List ValueId :=
  (spread g.dependents g.sliceDomain (seeds.filter fun v => (g.value? v).isSome)).mergeSort
    fun a b => a.index ≤ b.index

end Graph
end DefUse
