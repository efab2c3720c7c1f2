namespace DefUse

/-- What an operation asks of an operand: `any` asks nothing. -/
inductive Behavior where
  | integer
  | float
  | any
deriving DecidableEq, Repr

/-- The type of a value, sized in bytes. -/
inductive ValueType where
  | int (size : Nat)
  | float (size : Nat)
deriving DecidableEq, Repr

namespace Behavior

def text : Behavior → String
  | .integer => "INTEGER"
  | .float => "FLOAT"
  | .any => "ANY"

/-- Whether the behavior pins a value to a category. -/
def isConcrete : Behavior → Bool
  | .any => false
  | _ => true

/-- The type of a value of `size` bytes; floats exist at 4 and 8 bytes only. -/
def resolve : Behavior → (size : Nat) → Option ValueType
  | .integer, size => some (.int size)
  | .float, 4 => some (.float 4)
  | .float, 8 => some (.float 8)
  | _, _ => none

end Behavior

namespace ValueType

def size : ValueType → Nat
  | .int size => size
  | .float size => size

def behavior : ValueType → Behavior
  | .int _ => .integer
  | .float _ => .float

/-- Whether a value of this type can be read where `required` is asked. -/
def satisfies (type : ValueType) (required : Behavior) : Bool :=
  required = .any || required = type.behavior

/-- The category's letter and the width in bits. -/
def text : ValueType → String
  | .int size => "i" ++ toString (size * 8)
  | .float size => "f" ++ toString (size * 8)

end ValueType

end DefUse
