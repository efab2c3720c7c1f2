import DefUse.Behavior

namespace DefUse

/-- Two-input computations and comparisons. -/
inductive BinaryOpcode where
  | intAdd
  | intSub
  | intMult
  | intDiv
  | intSDiv
  | intRem
  | intSRem
  | intAnd
  | intOr
  | intXor
  | intLeft
  | intRight
  | intSRight
  | boolAnd
  | boolOr
  | boolXor
  | intEqual
  | intNotEqual
  | intLess
  | intSLess
  | intLessEqual
  | intSLessEqual
  | intCarry
  | intSCarry
  | intSBorrow
  | floatAdd
  | floatSub
  | floatMult
  | floatDiv
  | floatEqual
  | floatNotEqual
  | floatLess
  | floatLessEqual
deriving DecidableEq, Repr

namespace BinaryOpcode

/-- In table order. -/
def all : List BinaryOpcode :=
  [.intAdd, .intSub, .intMult, .intDiv, .intSDiv, .intRem, .intSRem, .intAnd, .intOr, .intXor,
   .intLeft, .intRight, .intSRight, .boolAnd, .boolOr, .boolXor, .intEqual, .intNotEqual, .intLess,
   .intSLess, .intLessEqual, .intSLessEqual, .intCarry, .intSCarry, .intSBorrow, .floatAdd,
   .floatSub, .floatMult, .floatDiv, .floatEqual, .floatNotEqual, .floatLess, .floatLessEqual]

def mnemonic : BinaryOpcode → String
  | .intAdd => "INT_ADD"
  | .intSub => "INT_SUB"
  | .intMult => "INT_MULT"
  | .intDiv => "INT_DIV"
  | .intSDiv => "INT_SDIV"
  | .intRem => "INT_REM"
  | .intSRem => "INT_SREM"
  | .intAnd => "INT_AND"
  | .intOr => "INT_OR"
  | .intXor => "INT_XOR"
  | .intLeft => "INT_LEFT"
  | .intRight => "INT_RIGHT"
  | .intSRight => "INT_SRIGHT"
  | .boolAnd => "BOOL_AND"
  | .boolOr => "BOOL_OR"
  | .boolXor => "BOOL_XOR"
  | .intEqual => "INT_EQUAL"
  | .intNotEqual => "INT_NOTEQUAL"
  | .intLess => "INT_LESS"
  | .intSLess => "INT_SLESS"
  | .intLessEqual => "INT_LESSEQUAL"
  | .intSLessEqual => "INT_SLESSEQUAL"
  | .intCarry => "INT_CARRY"
  | .intSCarry => "INT_SCARRY"
  | .intSBorrow => "INT_SBORROW"
  | .floatAdd => "FLOAT_ADD"
  | .floatSub => "FLOAT_SUB"
  | .floatMult => "FLOAT_MULT"
  | .floatDiv => "FLOAT_DIV"
  | .floatEqual => "FLOAT_EQUAL"
  | .floatNotEqual => "FLOAT_NOTEQUAL"
  | .floatLess => "FLOAT_LESS"
  | .floatLessEqual => "FLOAT_LESSEQUAL"

def ofMnemonic? (text : String) : Option BinaryOpcode :=
  all.find? (·.mnemonic = text)

/-- What is asked of every input. -/
def input : BinaryOpcode → Behavior
  | .floatAdd | .floatSub | .floatMult | .floatDiv | .floatEqual | .floatNotEqual | .floatLess
  | .floatLessEqual => .float
  | _ => .integer

def output : BinaryOpcode → Behavior
  | .floatAdd | .floatSub | .floatMult | .floatDiv => .float
  | _ => .integer

theorem ofMnemonic?_mnemonic (o : BinaryOpcode) : ofMnemonic? o.mnemonic = some o := by
  cases o <;> decide

end BinaryOpcode

/-- One-input computations and conversions. -/
inductive UnaryOpcode where
  | intNegate
  | int2Comp
  | intZext
  | intSext
  | boolNegate
  | popCount
  | floatNeg
  | floatAbs
  | floatSqrt
  | floatCeil
  | floatFloor
  | floatRound
  | float2Float
  | floatNan
  | trunc
  | int2Float
deriving DecidableEq, Repr

namespace UnaryOpcode

/-- In table order. -/
def all : List UnaryOpcode :=
  [.intNegate, .int2Comp, .intZext, .intSext, .boolNegate, .popCount, .floatNeg, .floatAbs,
   .floatSqrt, .floatCeil, .floatFloor, .floatRound, .float2Float, .floatNan, .trunc, .int2Float]

def mnemonic : UnaryOpcode → String
  | .intNegate => "INT_NEGATE"
  | .int2Comp => "INT_2COMP"
  | .intZext => "INT_ZEXT"
  | .intSext => "INT_SEXT"
  | .boolNegate => "BOOL_NEGATE"
  | .popCount => "POPCOUNT"
  | .floatNeg => "FLOAT_NEG"
  | .floatAbs => "FLOAT_ABS"
  | .floatSqrt => "FLOAT_SQRT"
  | .floatCeil => "FLOAT_CEIL"
  | .floatFloor => "FLOAT_FLOOR"
  | .floatRound => "FLOAT_ROUND"
  | .float2Float => "FLOAT2FLOAT"
  | .floatNan => "FLOAT_NAN"
  | .trunc => "TRUNC"
  | .int2Float => "INT2FLOAT"

def ofMnemonic? (text : String) : Option UnaryOpcode :=
  all.find? (·.mnemonic = text)

/-- What is asked of every input. -/
def input : UnaryOpcode → Behavior
  | .floatNeg | .floatAbs | .floatSqrt | .floatCeil | .floatFloor | .floatRound | .float2Float
  | .floatNan | .trunc => .float
  | _ => .integer

def output : UnaryOpcode → Behavior
  | .floatNeg | .floatAbs | .floatSqrt | .floatCeil | .floatFloor | .floatRound | .float2Float
  | .int2Float => .float
  | _ => .integer

theorem ofMnemonic?_mnemonic (o : UnaryOpcode) : ofMnemonic? o.mnemonic = some o := by
  cases o <;> decide

end UnaryOpcode

end DefUse
