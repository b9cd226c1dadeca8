import ObjectMachine.Value
import ObjectMachine.Binary64.Arithmetic

/-! Numbers across kinds.

A number is a fixnum, a bignum or a double.  `Number.compare?` orders them by their exact values
whatever their kinds, and `Number.hash` agrees with that order's equality. -/

namespace ObjectMachine

/-- A numeric operand: a small integer, a boxed integer or a double. -/
inductive Number where
  | fixed (n : Int)
  | big (n : Int)
  | float (x : Binary64)
  deriving DecidableEq

/-- An integer or a double, before it is known how it will be stored; `fixnum` is for integers known
to be in the range of fixnums. -/
inductive Numeral where
  | fixnum (n : Int)
  | integer (n : Int)
  | float (x : Binary64)
  deriving DecidableEq

namespace Number

/-- The integer of a number that is not a double. -/
def toInt? : Number → Option Int
  | .fixed n => some n
  | .big n => some n
  | .float _ => none

/-- The nearest double. -/
def toBinary64 : Number → Binary64
  | .fixed n => Binary64.ofInt n
  | .big n => Binary64.ofInt n
  | .float x => x

def isZero : Number → Bool
  | .fixed n => n == 0
  | .big n => n == 0
  | .float x => x.isZero

/-- The order of an integer and a double, through the floor of the double. -/
def compareIntFloat? (n : Int) (x : Binary64) : Option Ordering :=
  if x.isNaN then none
  else if x.isInfinite then some (if x.signBit then .gt else .lt)
  else
    let floor := x.units / Binary64.unitsPerOne
    match compare n floor with
    | .eq => some (if x.units % Binary64.unitsPerOne == 0 then .eq else .lt)
    | o => some o

/-- The order of two numbers by value; none when a NaN is involved. -/
def compare? : Number → Number → Option Ordering
  | .float x, .float y => Binary64.compare? x y
  | .float x, .fixed n => (compareIntFloat? n x).map Ordering.swap
  | .float x, .big n => (compareIntFloat? n x).map Ordering.swap
  | .fixed n, .float y => compareIntFloat? n y
  | .big n, .float y => compareIntFloat? n y
  | .fixed a, .fixed b => some (compare a b)
  | .fixed a, .big b => some (compare a b)
  | .big a, .fixed b => some (compare a b)
  | .big a, .big b => some (compare a b)

/-- The modulus of integer hashes, a Mersenne prime. -/
def hashModulus : Nat := 1 <<< 61 - 1

/-- Hash of an integer outside the fixnum range: the magnitude reduced, with the sign kept. -/
def bigHash (n : Int) : Int :=
  let reduced : Int := n.natAbs % hashModulus
  if n < 0 then -reduced else reduced

/-- Hash of an integral value: itself when it is a fixnum. -/
def integralHash (n : Int) : Int := if Value.fitsFixnum n then n else bigHash n

/-- Keeps the 62 lower bits of a word, which always make a fixnum. -/
def foldWord (w : UInt64) : Int := (w % 4611686018427387904).toNat

/-- Hash of a number.  Numbers that compare equal hash alike, and the result of a stored number
always fits a fixnum. -/
def hash : Number → Int
  | .fixed n => n
  | .big n => bigHash n
  | .float x =>
    match x.toInt? with
    | some n => integralHash n
    | none => foldWord (x.bits ^^^ (x.bits >>> 31))

end Number

end ObjectMachine
