import ObjectMachine.Number.Fixnum
import ObjectMachine.Number.Integer
import ObjectMachine.Number.Operator

/-! The binary operators across kinds.

A double on either side makes the operation one on doubles, and an integer operand is converted to
the nearest double; the result stays a double.  Two integers give an exact integer, except for true
division and negative powers. -/

namespace ObjectMachine.Number

/-- Shifts a number that has to be an integer. -/
def shift (n : Number) (width : BitVec 64) : Except ArithmeticError Int :=
  match n with
  | .fixed n => Integer.shift true n width
  | .big n => Integer.shift false n width
  | .float _ => .error .shiftOfFloat

/-- Operators on integers, division aside.  Widths of any size are cut down to words. -/
def integerBinary (op : BinOp) (a b : Int) : Except ArithmeticError Numeral :=
  match op with
  | .add => .ok (.integer (a + b))
  | .sub => .ok (.integer (a - b))
  | .mul => .ok (.integer (a * b))
  | .div => .ok (.float (Integer.trueDivide a b))
  | .floorDiv => .ok (.integer (Int.fdiv a b))
  | .mod => .ok (.integer (Int.fmod a b))
  | .pow => Integer.pow a b
  | .and => .ok (.integer (Integer.and a b))
  | .or => .ok (.integer (Integer.or a b))
  | .xor => .ok (.integer (Integer.xor a b))
  | .shl => (Number.shift (.big a) (Integer.width b)).map .integer
  | .shr => (Number.shift (.big a) (Integer.opposite (Integer.width b))).map .integer

/-- The operators that divide. -/
def divides : BinOp → Bool
  | .div | .floorDiv | .mod => true
  | _ => false

open Fixnum in
/-- Operators on two fixnums.  True division converts both operands first; bit operations cannot leave
the range of fixnums. -/
def fixedBinary (op : BinOp) (a b : Int) : Except ArithmeticError Numeral :=
  if divides op && b == 0 then .error .fixnumDivisionByZero
  else match op with
    | .add => .ok (.integer (wide a + wide b).toInt)
    | .sub => .ok (.integer (wide a - wide b).toInt)
    | .mul => .ok (.integer (wide a * wide b).toInt)
    | .div => .ok (.float ((Binary64.ofInt a).div (Binary64.ofInt b)))
    | .floorDiv => .ok (.integer (floorDiv (wide a) (wide b)).toInt)
    | .mod => .ok (.integer (floorMod (wide a) (wide b)).toInt)
    | .and => .ok (.fixnum (word a &&& word b).toInt)
    | .or => .ok (.fixnum (word a ||| word b).toInt)
    | .xor => .ok (.fixnum (word a ^^^ word b).toInt)
    | .pow => Integer.pow a b
    | .shl => (Number.shift (.fixed a) (word b)).map .integer
    | .shr => (Number.shift (.fixed a) (-word b)).map .integer

/-- Operators on two integers of which at least one is a bignum. -/
def bigBinary (op : BinOp) (a b : Int) : Except ArithmeticError Numeral :=
  if divides op && b == 0 then .error .bignumDivisionByZero else integerBinary op a b

/-- Operators on a double and a number. -/
def floatBinary (op : BinOp) (a : Binary64) (right : Number) : Except ArithmeticError Numeral :=
  let b := right.toBinary64
  if divides op && right.isZero then .error .floatDivision
  else match op with
    | .add => .ok (.float (a.add b))
    | .sub => .ok (.float (a.sub b))
    | .mul => .ok (.float (a.mul b))
    | .div => .ok (.float (a.div b))
    | .floorDiv => .ok (.float (a.div b).floor)
    | .mod => .ok (.float (a.floorMod b))
    | .pow =>
      if a.isZero && b.signBit && !b.isZero && !b.isNaN then .error .zeroToNegativePower
      else .ok (.float (a.pow b))
    | .and | .or | .xor | .shl | .shr => .error .unsupported

/-- An operator on two numbers. -/
def binary (op : BinOp) : Number → Number → Except ArithmeticError Numeral
  | .fixed a, .fixed b => fixedBinary op a b
  | .fixed a, .big b => bigBinary op a b
  | .big a, .fixed b => bigBinary op a b
  | .big a, .big b => bigBinary op a b
  | .float a, right => floatBinary op a right
  | .fixed a, .float b => floatBinary op (Binary64.ofInt a) (.float b)
  | .big a, .float b => floatBinary op (Binary64.ofInt a) (.float b)

/-- The answer of a comparison to an order, which is absent beside a NaN. -/
def holds : Comparison → Option Ordering → Bool
  | .less, o => o == some .lt
  | .lessEqual, o => o == some .lt || o == some .eq
  | .greater, o => o == some .gt
  | .greaterEqual, o => o == some .gt || o == some .eq
  | .equal, o => o == some .eq
  | .notEqual, o => o != some .eq
  | .order, o => o.isSome

end ObjectMachine.Number
