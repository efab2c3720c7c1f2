import DefUse.Value

namespace DefUse

inductive Refusal where
  | alreadyLinked (op : OpId)
  | notLinked (op : OpId)
  | stillLinked (op : OpId)
  | duplicateUse (value : ValueId) (use : Use)
  | missingUse (value : ValueId) (use : Use)
  | redefined (value : ValueId) (definer op : OpId)
  | definerMismatch (value : ValueId) (op : OpId)
  | notAnOutput (value : ValueId)
  | operandOutOfRange (op : OpId) (mnemonic : String) (position : Nat)
  | unknownOp (op : OpId)
  | unknownValue (value : ValueId)
  | notRemovable (op : OpId) (reason : String)
  | inconsistentUses (value : ValueId) (recorded actual : Nat)
  | cycle (op : OpId)
deriving DecidableEq, Repr

namespace Refusal

def message : Refusal → String
  | alreadyLinked op => op.text ++ " is already linked"
  | notLinked op => op.text ++ " is not linked"
  | stillLinked op => op.text ++ " is still linked and cannot be detached"
  | duplicateUse value use =>
    value.text ++ " already records a use by " ++ use.op.text ++ " at position "
      ++ toString use.position
  | missingUse value use =>
    value.text ++ " has no recorded use by " ++ use.op.text ++ " at position "
      ++ toString use.position
  | redefined value definer op =>
    value.text ++ " is already defined by " ++ definer.text ++ ", cannot be defined by " ++ op.text
  | definerMismatch value op => value.text ++ " is not defined by " ++ op.text
  | notAnOutput value => value.text ++ " is not an operation output"
  | operandOutOfRange op mnemonic position =>
    op.text ++ " (" ++ mnemonic ++ ") has no operand at position " ++ toString position
  | unknownOp op => "Unknown operation " ++ op.text
  | unknownValue value => "Unknown value " ++ value.text
  | notRemovable op reason => op.text ++ " cannot be removed: " ++ reason
  | inconsistentUses value recorded actual =>
    "Inconsistent use count on " ++ value.text ++ ": " ++ toString recorded ++ " recorded, "
      ++ toString actual ++ " linked"
  | cycle op => "Dependency cycle through " ++ op.text

end Refusal

/-- A call on a state `σ`. It answers or is refused, and what it had recorded before a refusal
stays recorded. -/
abbrev Call (σ α : Type) := EStateM Refusal σ α

end DefUse
