import ObjectMachine.Number.Basic
import ObjectMachine.Number.Fixnum

/-! Integer arithmetic: two's complement bit operations, shifts, powers and true division.  Shifts and
powers refuse results that would be too large.  Widths, exponents and numbers of digits are words
there; whether they fit is checked before they are used. -/

namespace ObjectMachine

/-- Why an operation on numbers has no result. -/
inductive ArithmeticError where
  | unsupported
  | fixnumDivisionByZero
  | bignumDivisionByZero
  | floatDivision
  | zeroToNegativePower
  | exponentTooLarge
  | shiftTooWide
  | shiftOfFloat
  deriving DecidableEq

namespace Integer

/-- Largest integer, in bits, that powers and shifts will build. -/
def maxBits : Nat := 1 <<< 26

/-- How many binary digits the magnitude has. -/
def bits (n : Int) : Nat := Binary64.bitLength n.natAbs

/-- The bits of `m` that are not bits of `n`. -/
def without (m n : Nat) : Nat := m ^^^ (m &&& n)

/-- Conjunction of the two's complement digits. -/
def and : Int → Int → Int
  | .ofNat m, .ofNat n => .ofNat (m &&& n)
  | .ofNat m, .negSucc n => .ofNat (without m n)
  | .negSucc m, .ofNat n => .ofNat (without n m)
  | .negSucc m, .negSucc n => .negSucc (m ||| n)

/-- Disjunction of the two's complement digits. -/
def or : Int → Int → Int
  | .ofNat m, .ofNat n => .ofNat (m ||| n)
  | .ofNat m, .negSucc n => .negSucc (without n m)
  | .negSucc m, .ofNat n => .negSucc (without m n)
  | .negSucc m, .negSucc n => .negSucc (m &&& n)

/-- Exclusive disjunction of the two's complement digits. -/
def xor : Int → Int → Int
  | .ofNat m, .ofNat n => .ofNat (m ^^^ n)
  | .ofNat m, .negSucc n => .negSucc (m ^^^ n)
  | .negSucc m, .ofNat n => .negSucc (m ^^^ n)
  | .negSucc m, .negSucc n => .ofNat (m ^^^ n)

/-! ### Sizes and widths as words -/

/-- A size as a word of 64 bits; the greatest word stands for all sizes beyond it. -/
def saturated (n : Nat) : BitVec 64 := BitVec.ofNat 64 (min n (BitVec.allOnes 64).toNat)

/-- How many binary digits the magnitude has, as a word. -/
def length (n : Int) : BitVec 64 := saturated (bits n)

/-- An integer as a word without a sign, if it is one. -/
def unsigned? (n : Int) : Option (BitVec 64) :=
  if 0 ≤ n ∧ n ≤ (BitVec.allOnes 64).toNat then some (Fixnum.word n) else none

/-- The width of a shift as a word with a sign; the least and the greatest such word stand for all
widths beyond them. -/
def width (n : Int) : BitVec 64 :=
  if n < (BitVec.intMin 64).toInt then BitVec.intMin 64
  else if (BitVec.intMax 64).toInt < n then BitVec.intMax 64
  else Fixnum.word n

/-- The opposite width; that of the least one is the greatest one. -/
def opposite (width : BitVec 64) : BitVec 64 :=
  if width = BitVec.intMin 64 then BitVec.intMax 64 else -width

/-! ### Powers and shifts -/

/-- How many binary digits a power has at least, the first one apart, as a word of 128 bits. -/
def powerDigits (base : Int) (exponent : BitVec 64) : BitVec 128 :=
  (saturated ((length base).toNat - 1)).setWidth 128 * exponent.setWidth 128

/-- `base ** exponent`.  A huge exponent is allowed only for the bases whose powers stay bounded; an
exponent that passes the check of the size is cut down to a word of 32 bits. -/
def pow (base exponent : Int) : Except ArithmeticError Numeral :=
  if exponent < 0 then
    if base = 0 then .error .zeroToNegativePower
    else .ok (.float (Binary64.pow (Binary64.ofInt base) (Binary64.ofInt exponent)))
  else if base = 0 then .ok (.integer (if exponent = 0 then 1 else 0))
  else if base = 1 then .ok (.integer 1)
  else if base = -1 then .ok (.integer (if exponent % 2 = 1 then -1 else 1))
  else match unsigned? exponent with
    | some e =>
      if powerDigits base e ≤ BitVec.ofNat 128 maxBits then
        .ok (.integer (Int.pow base (e.setWidth 32).toNat))
      else .error .exponentTooLarge
    | none => .error .exponentTooLarge

/-- Shifts left by `width` bits, right when it is negative.  Right shifts never fail: they end at
`0` or `-1`.  A `small` integer, which is one of 64 bits, stays in a word of 128 bits as long as it
moves by less than 64 places. -/
def shift (small : Bool) (n : Int) (width : BitVec 64) : Except ArithmeticError Int :=
  if width.slt 0 then .ok (n >>> min width.abs.toNat (length n + 1).toNat)
  else if maxBits < (saturated ((length n).toNat + width.toNat)).toNat then
    if n = 0 then .ok 0 else .error .shiftTooWide
  else if small && width.toNat < 64 then .ok (Fixnum.wide n <<< width.toNat).toInt
  else .ok (n * Int.pow 2 width.toNat)

/-- Quotient as a double.  Operands below 2⁵³ convert exactly and are divided; otherwise the integer
quotient is taken to 55 binary digits, its last one standing for any remainder, then converted and
scaled. -/
def trueDivide (a b : Int) : Binary64 :=
  let x := Binary64.ofInt a
  let y := Binary64.ofInt b
  let limit : Nat := Binary64.unitsPerOne <<< 53
  if x.isFinite && y.isFinite && x.magnitude < limit && y.magnitude < limit then x.div y
  else
    let exponent : Int := (bits b : Int) - bits a + 55
    let num := if 0 ≤ exponent then a.natAbs <<< exponent.toNat else a.natAbs
    let den := if 0 ≤ exponent then b.natAbs else b.natAbs <<< (-exponent).toNat
    let quotient := num / den
    let sticky := if num % den = 0 then quotient else quotient ||| 1
    let magnitude := (Binary64.ofInt sticky).scale (-exponent)
    if (a < 0) != (b < 0) then magnitude.negate else magnitude

end Integer

end ObjectMachine
