import ObjectMachine.Binary64.Basic

/-! Arithmetic and order of double precision numbers.

Every operation on finite numbers computes the exact result in integers and rounds it once.  Where
an operand is a NaN, the first one is the result; where the operation has no result, the result is
`Binary64.invalid`. -/

namespace ObjectMachine.Binary64

/-- A NaN with its quiet bit set. -/
def quiet (x : Binary64) : Binary64 := ⟨x.bits ||| 0x0008000000000000⟩

/-- The NaN among the operands that wins, if there is one. -/
def nan? (x y : Binary64) : Option Binary64 :=
  if x.isNaN then some x.quiet else if y.isNaN then some y.quiet else none

/-- Sum. -/
def add (x y : Binary64) : Binary64 :=
  match nan? x y with
  | some n => n
  | none =>
    if x.isInfinite then
      if y.isInfinite && x.signBit != y.signBit then invalid else x
    else if y.isInfinite then y
    else
      let sum := x.units + y.units
      if sum = 0 then zero (x.signBit && y.signBit)
      else ofUnitRatio (sum < 0) sum.natAbs 1

/-- Difference. -/
def sub (x y : Binary64) : Binary64 := if y.isNaN then add x y else add x y.negate

/-- Product. -/
def mul (x y : Binary64) : Binary64 :=
  match nan? x y with
  | some n => n
  | none =>
    let negative := x.signBit != y.signBit
    if x.isInfinite || y.isInfinite then
      if x.isZero || y.isZero then invalid else infinity negative
    else ofUnitRatio negative (x.magnitude * y.magnitude) unitsPerOne

/-- Quotient. -/
def div (x y : Binary64) : Binary64 :=
  match nan? x y with
  | some n => n
  | none =>
    let negative := x.signBit != y.signBit
    if x.isInfinite then (if y.isInfinite then invalid else infinity negative)
    else if y.isInfinite then zero negative
    else if y.isZero then (if x.isZero then invalid else infinity negative)
    else ofRatio negative x.magnitude y.magnitude

/-- The greatest integral number that is not above `x`. -/
def floor (x : Binary64) : Binary64 :=
  if x.isNaN then x.quiet
  else if x.isInfinite || x.units % unitsPerOne == 0 then x
  else ofInt (x.units / unitsPerOne)

/-- The remainder of the division that rounds toward zero; it has the sign of `x`. -/
def rem (x y : Binary64) : Binary64 :=
  match nan? x y with
  | some n => n
  | none =>
    if x.isInfinite || y.isZero then invalid
    else if y.isInfinite then x
    else ofUnitRatio x.signBit (x.magnitude % y.magnitude) 1

/-- The remainder of floored division: zero, or of the sign of `y`. -/
def floorMod (x y : Binary64) : Binary64 :=
  let r := rem x y
  if !r.isNaN && !r.isZero && r.signBit != y.signBit then add r y else r

/-- Whether a number is an odd integer. -/
def isOdd (x : Binary64) : Bool := x.isFinite && x.magnitude % (2 * unitsPerOne) == unitsPerOne

/-- Whether a number is a NaN whose quiet bit is not set. -/
def isSignaling (x : Binary64) : Bool := x.isNaN && x.fraction < 1 <<< 51

/-- The NaN that a power gives.  A NaN base is squared on the way, and an odd exponent then turns the
sign of a negative base. -/
def powNaN (x y : Binary64) : Binary64 :=
  if x.isNaN && x.signBit && y.isOdd then x.quiet.negate else (nan? x y).getD invalid

/-- A power of which one operand is a NaN.  The exponent zero and the base one give one all the same,
unless the NaN is a signaling one. -/
def powOfNaN (x y : Binary64) : Binary64 :=
  if x.isSignaling || y.isSignaling then powNaN x y
  else if y.isZero || x == ofInt 1 then ofInt 1
  else powNaN x y

/-- A power; of two numbers as the platform's mathematical library computes it. -/
def pow (x y : Binary64) : Binary64 :=
  if x.isNaN || y.isNaN then powOfNaN x y
  else
    let r : Binary64 := ⟨((Float.ofBits x.bits) ^ (Float.ofBits y.bits)).toBits⟩
    if r.isNaN then invalid else r

/-- The order of two numbers; none if one is a NaN. -/
def compare? (x y : Binary64) : Option Ordering :=
  if x.isNaN || y.isNaN then none
  else if x.isInfinite then
    if y.isInfinite then some (compare y.signBit x.signBit)
    else some (if x.signBit then .lt else .gt)
  else if y.isInfinite then some (if y.signBit then .gt else .lt)
  else some (compare x.units y.units)

/-- One step towards an exponent between -1000 and 1000. -/
def scaleStep : Binary64 × Int → Binary64 × Int
  | (x, e) =>
    if e > 1000 then (mul x (twoPow 1000), e - 1000)
    else if e < -1000 then (mul x (twoPow (-1000)), e + 1000)
    else (x, e)

/-- Multiplies by the power of two with exponent `e`, in steps whose powers are all finite; every
step rounds. -/
def scale (x : Binary64) (e : Int) : Binary64 :=
  let (y, rest) := scaleStep (scaleStep (x, max (-2200) (min 2200 e)))
  mul y (twoPow rest)

end ObjectMachine.Binary64
