import ObjectMachine.Digits

/-! Double precision numbers, kept as their 64 bits.

A finite number is a whole number of *units* of 2⁻¹⁰⁷⁴, the smallest positive double, so its exact
value is an integer (`units`) and every operation can be said as exact integer arithmetic followed
by one rounding.  `ofRatio` is that rounding: the double nearest to a quotient, ties to the even
significand, infinity from half a unit beyond the greatest finite double on. -/

namespace ObjectMachine

/-- A double precision number, as its bits. -/
structure Binary64 where
  bits : UInt64
  deriving DecidableEq, Inhabited

namespace Binary64

/-- Whether the sign bit is set. -/
def signBit (x : Binary64) : Bool := 1 <<< 63 ≤ x.bits.toNat

/-- The eleven exponent bits. -/
def exponentField (x : Binary64) : Nat := x.bits.toNat / (1 <<< 52) % 2048

/-- The 52 trailing bits. -/
def fraction (x : Binary64) : Nat := x.bits.toNat % (1 <<< 52)

def isNaN (x : Binary64) : Bool := x.exponentField == 2047 && x.fraction != 0

def isInfinite (x : Binary64) : Bool := x.exponentField == 2047 && x.fraction == 0

def isFinite (x : Binary64) : Bool := x.exponentField != 2047

/-- The magnitude of a finite number in units of 2⁻¹⁰⁷⁴. -/
def magnitude (x : Binary64) : Nat :=
  match x.exponentField with
  | 0 => x.fraction
  | e + 1 => (x.fraction + 1 <<< 52) <<< e

/-- The exact value of a finite number in units of 2⁻¹⁰⁷⁴. -/
def units (x : Binary64) : Int := if x.signBit then -(x.magnitude : Int) else x.magnitude

/-- How many units make one. -/
def unitsPerOne : Nat := 1 <<< 1074

/-- Whether a number is a zero of either sign. -/
def isZero (x : Binary64) : Bool := x.isFinite && x.magnitude == 0

/-- A sign bit in front of the 63 lower bits `code`. -/
def ofSign (negative : Bool) (code : Nat) : Binary64 :=
  ⟨UInt64.ofNat (code + if negative then 1 <<< 63 else 0)⟩

def zero (negative : Bool) : Binary64 := ofSign negative 0

def infinity (negative : Bool) : Binary64 := ofSign negative (2047 <<< 52)

/-- The quiet NaN without a sign. -/
def quietNaN : Binary64 := ⟨0x7ff8000000000000⟩

/-- The NaN an invalid operation gives. -/
def invalid : Binary64 := ⟨0xfff8000000000000⟩

/-- The same number with its sign bit flipped. -/
def negate (x : Binary64) : Binary64 := ⟨x.bits ^^^ 0x8000000000000000⟩

/-- The integer nearest to `num / den`, a half going to the even neighbour. -/
def nearestEven (num den : Nat) : Nat :=
  let q := num / den
  let r := num % den
  if 2 * r < den then q
  else if 2 * r > den then q + 1
  else q + q % 2

/-- How many binary digits `n` has. -/
def bitLength (n : Nat) : Nat := if n = 0 then 0 else n.log2 + 1

/-- The double nearest to `num / den` units with the given sign.

The quotient is cut down to 53 binary digits by dropping `shift` of them; a carry out of the
significand moves into the exponent field by itself. -/
def ofUnitRatio (negative : Bool) (num den : Nat) : Binary64 :=
  let shift := bitLength (num / den) - 53
  let code := shift <<< 52 + nearestEven num (den <<< shift)
  ofSign negative (min code (2047 <<< 52))

/-- The double nearest to `num / den` with the given sign. -/
def ofRatio (negative : Bool) (num den : Nat) : Binary64 :=
  ofUnitRatio negative (num * unitsPerOne) den

/-- The double nearest to an integer. -/
def ofInt (n : Int) : Binary64 := ofRatio (n < 0) n.natAbs 1

/-- The power of two with exponent `e`, for the exponents of normal numbers. -/
def twoPow (e : Int) : Binary64 :=
  if 0 ≤ e then ofRatio false (1 <<< e.toNat) 1 else ofRatio false 1 (1 <<< (-e).toNat)

/-- The exact integer a finite number is, if it is one. -/
def toInt? (x : Binary64) : Option Int :=
  if x.isFinite && x.units % unitsPerOne == 0 then some (x.units / unitsPerOne) else none

end Binary64

end ObjectMachine
