import ObjectMachine.Value

/-! Fixnums as machine words.

Sums, products and quotients of fixnums are computed in words of 128 bits, bit operations in words
of 64 bits.  Words wrap around; that the results of fixnums never do is a matter of proof. -/

namespace ObjectMachine.Fixnum

/-- A fixnum as a word of 128 bits. -/
def wide (n : Int) : BitVec 128 := BitVec.ofInt 128 n

/-- A fixnum as a word of 64 bits. -/
def word (n : Int) : BitVec 64 := BitVec.ofInt 64 n

/-- Whether a remainder and its divisor have opposite signs, so that truncated division was not the
floored one. -/
def opposite (remainder divisor : BitVec 128) : Bool :=
  (BitVec.slt 0 remainder && divisor.slt 0) || (remainder.slt 0 && BitVec.slt 0 divisor)

/-- The quotient rounded down. -/
def floorDiv (a b : BitVec 128) : BitVec 128 :=
  if opposite (a.srem b) b then a.sdiv b - 1 else a.sdiv b

/-- The remainder that goes with the quotient rounded down. -/
def floorMod (a b : BitVec 128) : BitVec 128 :=
  if opposite (a.srem b) b then a.srem b + b else a.srem b

end ObjectMachine.Fixnum
