import Mathlib.Tactic
import Mathlib.Data.Int.Bitwise
import ObjectMachine.Primitive.Perform
import ObjectMachine.Proofs.Machine.Allocation

/-! Integer arithmetic is exact, and its results are stored in one way only.

Two fixnums meet in machine words, any other two integers in integers of any size.  The words of
128 bits are wide enough for sums, products and quotients of fixnums, and bit operations on words of
64 bits stay in the range of fixnums, so both ways give the exact result.  It is stored as a fixnum if
it is in the range and as a bignum otherwise. -/

namespace ObjectMachine

/-! ### The range of fixnums -/

namespace Value

theorem fitsFixnum_iff {n : Int} : fitsFixnum n = true ↔ -2 ^ 62 ≤ n ∧ n < 2 ^ 62 := by
  unfold fitsFixnum minFixnum maxFixnum
  rw [Bool.and_eq_true, decide_eq_true_iff, decide_eq_true_iff]
  omega

/-- The integer of a word is that of its 64 bits read with a sign, halved. -/
theorem fixnum?_eq_some_iff {v : Value} {n : Int} :
    v.fixnum? = some n ↔ v.word.toNat % 2 = 0 ∧ v.word.toBitVec.toInt / 2 = n := by
  rw [← isFixnum_iff]
  unfold fixnum?
  by_cases hv : v.isFixnum = true
  · simp only [hv, if_true, Option.some.injEq, true_and]
    rfl
  · simp [hv]

/-- Every fixnum word holds an integer of the range. -/
theorem fits_of_fixnum? {v : Value} {n : Int} (h : v.fixnum? = some n) :
    -2 ^ 62 ≤ n ∧ n < 2 ^ 62 := by
  obtain ⟨-, rfl⟩ := fixnum?_eq_some_iff.mp h
  have hlt : v.word.toBitVec.toInt < 2 ^ 63 := BitVec.toInt_lt
  have hle : -2 ^ 63 ≤ v.word.toBitVec.toInt := BitVec.le_toInt _
  omega

/-- An integer of the range is read back from its word. -/
theorem fixnum?_ofInt {n : Int} (hn : -2 ^ 62 ≤ n ∧ n < 2 ^ 62) : (ofInt n).fixnum? = some n := by
  have hnat : (ofInt n).word.toNat = ((2 * n) % 2 ^ 64).toNat := by
    rw [ofInt, UInt64.ofInt, UInt64.toNat_ofNat']
    omega
  have hint : (ofInt n).word.toBitVec.toInt = 2 * n := by
    rw [BitVec.toInt_eq_toNat_cond, UInt64.toNat_toBitVec, hnat]
    split <;> omega
  exact fixnum?_eq_some_iff.mpr ⟨by omega, by omega⟩

end Value

namespace Fixnum

/-! ### Words of 128 bits are wide enough -/

theorem toInt_wide {n : Int} (hn : -2 ^ 127 ≤ n ∧ n < 2 ^ 127) : (wide n).toInt = n := by
  rw [wide, BitVec.toInt_ofInt]
  exact Int.bmod_eq_of_le (by omega) (by omega)

theorem toInt_add_wide {a b : Int} (ha : -2 ^ 62 ≤ a ∧ a < 2 ^ 62) (hb : -2 ^ 62 ≤ b ∧ b < 2 ^ 62) :
    (wide a + wide b).toInt = a + b := by
  have hsum : wide a + wide b = wide (a + b) := (BitVec.ofInt_add a b).symm
  rw [hsum, toInt_wide (by omega)]

theorem toInt_sub_wide {a b : Int} (ha : -2 ^ 62 ≤ a ∧ a < 2 ^ 62) (hb : -2 ^ 62 ≤ b ∧ b < 2 ^ 62) :
    (wide a - wide b).toInt = a - b := by
  rw [BitVec.toInt_sub, toInt_wide (by omega), toInt_wide (by omega)]
  exact Int.bmod_eq_of_le (by omega) (by omega)

theorem toInt_neg_wide {a : Int} (ha : -2 ^ 62 ≤ a ∧ a < 2 ^ 62) : (-wide a).toInt = -a := by
  rw [BitVec.toInt_neg, toInt_wide (by omega)]
  exact Int.bmod_eq_of_le (by omega) (by omega)

theorem toInt_mul_wide {a b : Int} (ha : -2 ^ 62 ≤ a ∧ a < 2 ^ 62) (hb : -2 ^ 62 ≤ b ∧ b < 2 ^ 62) :
    (wide a * wide b).toInt = a * b := by
  have hproduct : |a * b| ≤ 2 ^ 62 * 2 ^ 62 := by
    rw [abs_mul]
    exact mul_le_mul (abs_le.mpr ⟨ha.1, by omega⟩) (abs_le.mpr ⟨hb.1, by omega⟩) (abs_nonneg _)
      (by norm_num)
  have hbounds := abs_le.mp hproduct
  have hmul : wide a * wide b = wide (a * b) := (BitVec.ofInt_mul a b).symm
  rw [hmul, toInt_wide (by omega)]

/-- A quotient of fixnums is no larger than its dividend. -/
theorem tdiv_bounds {a : Int} (ha : -2 ^ 62 ≤ a ∧ a < 2 ^ 62) (b : Int) :
    -2 ^ 62 ≤ a.tdiv b ∧ a.tdiv b ≤ 2 ^ 62 := by
  have hle : (a.tdiv b).natAbs ≤ a.natAbs := by
    rw [Int.natAbs_tdiv]
    exact Nat.div_le_self ..
  omega

theorem tmod_bounds {b : Int} (hb : -2 ^ 62 ≤ b ∧ b < 2 ^ 62) (hne : b ≠ 0) (a : Int) :
    -2 ^ 62 < a.tmod b ∧ a.tmod b < 2 ^ 62 := by
  have hlt : (a.tmod b).natAbs < b.natAbs := by
    rw [Int.natAbs_tmod]
    exact Nat.mod_lt _ (by omega)
  omega

/-- Truncated division has to be corrected exactly where remainder and divisor differ in sign. -/
theorem opposite_iff {a b : Int} (ha : -2 ^ 62 ≤ a ∧ a < 2 ^ 62) (hb : -2 ^ 62 ≤ b ∧ b < 2 ^ 62) :
    opposite ((wide a).srem (wide b)) (wide b) = true ↔
      0 < a.tmod b ∧ b < 0 ∨ a.tmod b < 0 ∧ 0 < b := by
  have hzero : (0 : BitVec 128).toInt = 0 := rfl
  simp only [opposite, Bool.or_eq_true, Bool.and_eq_true, BitVec.slt_iff_toInt_lt,
    BitVec.toInt_srem, toInt_wide (show -2 ^ 127 ≤ a ∧ a < 2 ^ 127 by omega),
    toInt_wide (show -2 ^ 127 ≤ b ∧ b < 2 ^ 127 by omega), hzero]

end Fixnum

/-! ### Floored division -/

/-- The quotient rounded down, with its remainder. -/
structure Integer.Floored (a b q r : Int) : Prop where
  eq : a = q * b + r
  sign : r = 0 ∨ r.sign = b.sign
  lt : |r| < |b|

namespace Integer

/-- Rounding down means that the remainder lies between zero and the divisor. -/
theorem floored_iff {a b q r : Int} :
    Floored a b q r ↔ a = q * b + r ∧ (0 ≤ r ∧ r < b ∨ b < r ∧ r ≤ 0) := by
  constructor
  · rintro ⟨heq, hsign, hlt⟩
    refine ⟨heq, ?_⟩
    rcases lt_trichotomy b 0 with hb | rfl | hb
    · rw [Int.sign_eq_neg_one_of_neg hb, Int.sign_eq_neg_one_iff_neg] at hsign
      rw [abs_of_neg hb] at hlt
      have := neg_abs_le r
      omega
    · exact absurd hlt (by simp)
    · rw [Int.sign_eq_one_of_pos hb, Int.sign_eq_one_iff_pos] at hsign
      rw [abs_of_pos hb] at hlt
      have := le_abs_self r
      omega
  · rintro ⟨heq, ⟨hr, hb⟩ | ⟨hb, hr⟩⟩
    · refine ⟨heq, ?_, by rwa [abs_of_nonneg hr, abs_of_pos (by omega)]⟩
      rw [Int.sign_eq_one_of_pos (show 0 < b by omega), Int.sign_eq_one_iff_pos]
      omega
    · refine ⟨heq, ?_, by rw [abs_of_nonpos hr, abs_of_neg (by omega)]; omega⟩
      rw [Int.sign_eq_neg_one_of_neg (show b < 0 by omega), Int.sign_eq_neg_one_iff_neg]
      omega

/-- There is one such quotient and one such remainder. -/
theorem floored_iff_fdiv_fmod {a b q r : Int} (hb : b ≠ 0) :
    Floored a b q r ↔ a.fdiv b = q ∧ a.fmod b = r := by
  rw [floored_iff]
  rcases lt_or_gt_of_ne hb with hb | hb
  · rw [Int.fdiv_fmod_unique' hb, mul_comm b q]
    omega
  · rw [Int.fdiv_fmod_unique hb, mul_comm b q]
    omega

end Integer

namespace Fixnum

/-- Division of fixnums in words is the floored one. -/
theorem floored_words {a b : Int} (ha : -2 ^ 62 ≤ a ∧ a < 2 ^ 62) (hb : -2 ^ 62 ≤ b ∧ b < 2 ^ 62)
    (hne : b ≠ 0) : Integer.Floored a b (floorDiv (wide a) (wide b)).toInt
      (floorMod (wide a) (wide b)).toInt := by
  have hq := tdiv_bounds ha b
  have hr := tmod_bounds hb hne a
  have hdiv : ((wide a).sdiv (wide b)).toInt = a.tdiv b := by
    rw [BitVec.toInt_sdiv, toInt_wide (by omega), toInt_wide (by omega)]
    exact Int.bmod_eq_of_le (by omega) (by omega)
  have hmod : ((wide a).srem (wide b)).toInt = a.tmod b := by
    rw [BitVec.toInt_srem, toInt_wide (by omega), toInt_wide (by omega)]
  have heq : a.tdiv b * b + a.tmod b = a := Int.tdiv_mul_add_tmod a b
  have hlt : |a.tmod b| < |b| := by
    rw [Int.abs_eq_natAbs, Int.abs_eq_natAbs, Int.natAbs_tmod]
    exact_mod_cast Nat.mod_lt _ (by omega)
  rw [Integer.floored_iff, floorDiv, floorMod]
  by_cases hop : opposite ((wide a).srem (wide b)) (wide b) = true
  · -- the truncated quotient is one too large
    have hone : (1 : BitVec 128).toInt = 1 := rfl
    rw [if_pos hop, if_pos hop, BitVec.toInt_sub, BitVec.toInt_add, hdiv, hmod, hone,
      toInt_wide (by omega), Int.bmod_eq_of_le (by omega) (by omega),
      Int.bmod_eq_of_le (by omega) (by omega)]
    rw [opposite_iff ha hb] at hop
    refine ⟨by linarith, ?_⟩
    rcases abs_cases (a.tmod b) with h | h <;> rcases abs_cases b with h' | h' <;> omega
  · rw [if_neg hop, if_neg hop, hdiv, hmod]
    rw [opposite_iff ha hb] at hop
    refine ⟨heq.symm, ?_⟩
    rcases abs_cases (a.tmod b) with h | h <;> rcases abs_cases b with h' | h' <;> omega

end Fixnum

/-! ### Bit operations -/

namespace Integer

theorem testBit_without (m n i : Nat) : (without m n).testBit i = (m.testBit i && !n.testBit i) := by
  rw [without, Nat.testBit_xor, Nat.testBit_and]
  cases m.testBit i <;> cases n.testBit i <;> rfl

theorem without_eq_ldiff (m n : Nat) : without m n = Nat.ldiff m n :=
  Nat.eq_of_testBit_eq fun i => by rw [testBit_without, Nat.testBit_ldiff]

theorem testBit_and (a b : Int) (i : Nat) : (and a b).testBit i = (a.testBit i && b.testBit i) := by
  have hland : and a b = Int.land a b := by
    cases a <;> cases b <;> simp only [and, Int.land, without_eq_ldiff] <;> rfl
  rw [hland, Int.testBit_land]

theorem testBit_or (a b : Int) (i : Nat) : (or a b).testBit i = (a.testBit i || b.testBit i) := by
  have hlor : or a b = Int.lor a b := by
    cases a <;> cases b <;> simp only [or, Int.lor, without_eq_ldiff]
    rfl
  rw [hlor, Int.testBit_lor]

theorem testBit_xor (a b : Int) (i : Nat) :
    (xor a b).testBit i = Bool.xor (a.testBit i) (b.testBit i) := by
  have hxor : xor a b = Int.xor a b := by
    cases a <;> cases b <;> rfl
  rw [hxor, Int.testBit_lxor]

theorem complement_ofNat (m : Nat) : -Int.ofNat m - 1 = .negSucc m := by
  rw [Int.ofNat_eq_natCast, Int.negSucc_eq]
  omega

theorem complement_negSucc (m : Nat) : -Int.negSucc m - 1 = .ofNat m := by
  rw [Int.ofNat_eq_natCast, Int.negSucc_eq]
  omega

theorem testBit_complement (a : Int) (i : Nat) : (-a - 1).testBit i = !a.testBit i := by
  have hnot : -a - 1 = Int.lnot a := by
    cases a with
    | ofNat m => exact complement_ofNat m
    | negSucc m => exact complement_negSucc m
  rw [hnot, Int.testBit_lnot]

/-- The binary digits of an integer, or of its complement if it is negative. -/
def digits : Int → Nat
  | .ofNat m => m
  | .negSucc m => m

/-- The range of fixnums holds the integers of at most 62 digits. -/
theorem digits_lt_iff {a : Int} : digits a < 2 ^ 62 ↔ -2 ^ 62 ≤ a ∧ a < 2 ^ 62 := by
  cases a with
  | ofNat m => rw [digits, Int.ofNat_eq_natCast]; omega
  | negSucc m => rw [digits, Int.negSucc_eq]; omega

theorem without_lt {m : Nat} (hm : m < 2 ^ 62) (n : Nat) : without m n < 2 ^ 62 :=
  Nat.xor_lt_two_pow hm (lt_of_le_of_lt Nat.and_le_left hm)

theorem digits_and_lt {a b : Int} (ha : digits a < 2 ^ 62) (hb : digits b < 2 ^ 62) :
    digits (and a b) < 2 ^ 62 := by
  cases a with
  | ofNat m =>
    cases b with
    | ofNat n => exact Nat.and_lt_two_pow _ hb
    | negSucc n => exact without_lt ha n
  | negSucc m =>
    cases b with
    | ofNat n => exact without_lt hb m
    | negSucc n => exact Nat.or_lt_two_pow ha hb

theorem digits_or_lt {a b : Int} (ha : digits a < 2 ^ 62) (hb : digits b < 2 ^ 62) :
    digits (or a b) < 2 ^ 62 := by
  cases a with
  | ofNat m =>
    cases b with
    | ofNat n => exact Nat.or_lt_two_pow ha hb
    | negSucc n => exact without_lt hb m
  | negSucc m =>
    cases b with
    | ofNat n => exact without_lt ha n
    | negSucc n => exact Nat.and_lt_two_pow _ hb

theorem digits_xor_lt {a b : Int} (ha : digits a < 2 ^ 62) (hb : digits b < 2 ^ 62) :
    digits (xor a b) < 2 ^ 62 := by
  cases a with
  | ofNat m => cases b <;> exact Nat.xor_lt_two_pow ha hb
  | negSucc m => cases b <;> exact Nat.xor_lt_two_pow ha hb

end Integer

namespace Fixnum

theorem toInt_word {n : Int} (hn : -2 ^ 63 ≤ n ∧ n < 2 ^ 63) : (word n).toInt = n := by
  rw [word, BitVec.toInt_ofInt]
  exact Int.bmod_eq_of_le (by omega) (by omega)

theorem word_ofNat (m : Nat) : word (.ofNat m) = BitVec.ofNat 64 m := rfl

theorem word_negSucc (m : Nat) : word (.negSucc m) = ~~~BitVec.ofNat 64 m :=
  BitVec.ofInt_negSucc_eq_not_ofNat

theorem ofNat_without (m n : Nat) :
    BitVec.ofNat 64 (Integer.without m n) = BitVec.ofNat 64 m &&& ~~~BitVec.ofNat 64 n := by
  refine BitVec.eq_of_getLsbD_eq fun i hi => ?_
  simp only [BitVec.getLsbD_and, BitVec.getLsbD_not, BitVec.getLsbD_ofNat, Integer.testBit_without,
    hi, decide_true, Bool.true_and]

/-- Bit operations on words are those on integers of any size. -/
theorem word_and (a b : Int) : word a &&& word b = word (Integer.and a b) := by
  cases a with
  | ofNat m =>
    cases b with
    | ofNat n => exact BitVec.ofNat_and.symm
    | negSucc n => rw [Integer.and, word_ofNat, word_ofNat, word_negSucc, ofNat_without]
  | negSucc m =>
    cases b with
    | ofNat n =>
      rw [Integer.and, word_ofNat, word_ofNat, word_negSucc, ofNat_without, BitVec.and_comm]
    | negSucc n =>
      rw [Integer.and, word_negSucc, word_negSucc, word_negSucc, BitVec.ofNat_or, BitVec.not_or]

theorem word_or (a b : Int) : word a ||| word b = word (Integer.or a b) := by
  cases a with
  | ofNat m =>
    cases b with
    | ofNat n => exact BitVec.ofNat_or.symm
    | negSucc n =>
      rw [Integer.or, word_ofNat, word_negSucc, word_negSucc, ofNat_without, BitVec.not_and,
        BitVec.not_not, BitVec.or_comm]
  | negSucc m =>
    cases b with
    | ofNat n =>
      rw [Integer.or, word_ofNat, word_negSucc, word_negSucc, ofNat_without, BitVec.not_and,
        BitVec.not_not]
    | negSucc n =>
      rw [Integer.or, word_negSucc, word_negSucc, word_negSucc, BitVec.ofNat_and, BitVec.not_and]

theorem word_xor (a b : Int) : word a ^^^ word b = word (Integer.xor a b) := by
  cases a with
  | ofNat m =>
    cases b with
    | ofNat n => exact BitVec.ofNat_xor.symm
    | negSucc n =>
      rw [Integer.xor, word_ofNat, word_negSucc, word_negSucc, BitVec.ofNat_xor,
        BitVec.not_xor_right]
  | negSucc m =>
    cases b with
    | ofNat n =>
      rw [Integer.xor, word_ofNat, word_negSucc, word_negSucc, BitVec.ofNat_xor,
        BitVec.not_xor_left]
    | negSucc n =>
      rw [Integer.xor, word_ofNat, word_negSucc, word_negSucc, BitVec.ofNat_xor,
        ← BitVec.not_xor_left, ← BitVec.not_xor_right, BitVec.not_not]

theorem word_not (a : Int) : ~~~word a = word (-a - 1) := by
  cases a with
  | ofNat m => rw [Integer.complement_ofNat, word_negSucc, word_ofNat]
  | negSucc m => rw [Integer.complement_negSucc, word_negSucc, word_ofNat, BitVec.not_not]

end Fixnum

/-! ### Both ways of computing agree -/

/-- A numeral stands for an integer, and says it is a fixnum only if it is in the range. -/
def Numeral.Holds (r : Numeral) (n : Int) : Prop :=
  r = .integer n ∨ r = .fixnum n ∧ -2 ^ 62 ≤ n ∧ n < 2 ^ 62

namespace Number

/-- The operators whose result is an integer whatever the integers they are applied to. -/
def exactOperators : List BinOp := [.add, .sub, .mul, .and, .or, .xor, .floorDiv, .mod]

variable {op : BinOp} {a b n : Int}

theorem divides_guard (hb : divides op = true → b ≠ 0) : (divides op && b == 0) = false := by
  cases hd : divides op with
  | false => rfl
  | true => simpa using hb hd

theorem bigBinary_eq (hb : divides op = true → b ≠ 0) : bigBinary op a b = integerBinary op a b := by
  rw [bigBinary, divides_guard hb]
  rfl

open Fixnum in
/-- Two fixnums give in words what they give as integers of any size. -/
theorem fixedBinary_holds (hop : op ∈ exactOperators) (hne : divides op = true → b ≠ 0)
    (ha : -2 ^ 62 ≤ a ∧ a < 2 ^ 62) (hb : -2 ^ 62 ≤ b ∧ b < 2 ^ 62)
    (h : integerBinary op a b = .ok (.integer n)) :
    ∃ r, fixedBinary op a b = .ok r ∧ r.Holds n := by
  have hda := Integer.digits_lt_iff.mpr ha
  have hdb := Integer.digits_lt_iff.mpr hb
  unfold fixedBinary
  rw [divides_guard hne]
  simp only [exactOperators, List.mem_cons, List.not_mem_nil, or_false] at hop
  rcases hop with rfl | rfl | rfl | rfl | rfl | rfl | rfl | rfl <;>
    simp only [integerBinary, Except.ok.injEq, Numeral.integer.injEq] at h <;> subst h
  · exact ⟨_, rfl, Or.inl (by rw [toInt_add_wide ha hb])⟩
  · exact ⟨_, rfl, Or.inl (by rw [toInt_sub_wide ha hb])⟩
  · exact ⟨_, rfl, Or.inl (by rw [toInt_mul_wide ha hb])⟩
  · have hfits := Integer.digits_lt_iff.mp (Integer.digits_and_lt hda hdb)
    exact ⟨_, rfl, Or.inr ⟨by rw [word_and, toInt_word (by omega)], hfits⟩⟩
  · have hfits := Integer.digits_lt_iff.mp (Integer.digits_or_lt hda hdb)
    exact ⟨_, rfl, Or.inr ⟨by rw [word_or, toInt_word (by omega)], hfits⟩⟩
  · have hfits := Integer.digits_lt_iff.mp (Integer.digits_xor_lt hda hdb)
    exact ⟨_, rfl, Or.inr ⟨by rw [word_xor, toInt_word (by omega)], hfits⟩⟩
  · have hdiv := (Integer.floored_iff_fdiv_fmod (hne rfl)).mp (floored_words ha hb (hne rfl))
    exact ⟨_, rfl, Or.inl (by rw [hdiv.1])⟩
  · have hmod := (Integer.floored_iff_fdiv_fmod (hne rfl)).mp (floored_words ha hb (hne rfl))
    exact ⟨_, rfl, Or.inl (by rw [hmod.2])⟩

/-- Integers of any size give an integer. -/
theorem exists_integerBinary (hop : op ∈ exactOperators) (a b : Int) :
    ∃ n, integerBinary op a b = .ok (.integer n) := by
  simp only [exactOperators, List.mem_cons, List.not_mem_nil, or_false] at hop
  rcases hop with rfl | rfl | rfl | rfl | rfl | rfl | rfl | rfl <;> exact ⟨_, rfl⟩

/-- Words and integers of any size give the same integer. -/
theorem fixedBinary_agrees (hop : op ∈ exactOperators) (hne : divides op = true → b ≠ 0)
    (ha : -2 ^ 62 ≤ a ∧ a < 2 ^ 62) (hb : -2 ^ 62 ≤ b ∧ b < 2 ^ 62) :
    ∃ r n, fixedBinary op a b = .ok r ∧ r.Holds n ∧ bigBinary op a b = .ok (.integer n) := by
  obtain ⟨n, hn⟩ := exists_integerBinary hop a b
  obtain ⟨r, hr, hholds⟩ := fixedBinary_holds hop hne ha hb hn
  exact ⟨r, n, hr, hholds, (bigBinary_eq hne).trans hn⟩

/-- An integer operand; a small one is in the range of fixnums. -/
def IsInteger (x : Number) (n : Int) : Prop :=
  x = .fixed n ∧ (-2 ^ 62 ≤ n ∧ n < 2 ^ 62) ∨ x = .big n

/-- Integers of all kinds give what they give as integers of any size. -/
theorem binary_holds (hop : op ∈ exactOperators) (hne : divides op = true → b ≠ 0) {x y : Number}
    (hx : x.IsInteger a) (hy : y.IsInteger b) (h : integerBinary op a b = .ok (.integer n)) :
    ∃ r, binary op x y = .ok r ∧ r.Holds n := by
  have hbig : ∃ r, bigBinary op a b = .ok r ∧ r.Holds n :=
    ⟨_, (bigBinary_eq hne).trans h, Or.inl rfl⟩
  rcases hx with ⟨rfl, ha⟩ | rfl
  · rcases hy with ⟨rfl, hb⟩ | rfl
    · exact fixedBinary_holds hop hne ha hb h
    · exact hbig
  · rcases hy with ⟨rfl, hb⟩ | rfl
    · exact hbig
    · exact hbig

end Number

/-! ### Results are stored in one way -/

namespace Machine

variable {m : Machine} {v : Value} {n : Int}

/-- The integer that a value is, as a fixnum or as a bignum. -/
def integer? (m : Machine) (v : Value) : Option Int := (m.number? v).bind Number.toInt?

/-- A value is an integer in the form results have: a fixnum in the range of fixnums, else a
bignum. -/
def Normalised (m : Machine) (v : Value) (n : Int) : Prop :=
  if -2 ^ 62 ≤ n ∧ n < 2 ^ 62 then v.fixnum? = some n else m.heap.read Facet.bignum v = .ok n

/-- A number is a fixnum, a bignum or a double, and is read as such. -/
theorem number?_cases {x : Number} (h : m.number? v = some x) :
    (∃ n, x = .fixed n ∧ v.fixnum? = some n) ∨
      (∃ n, x = .big n ∧ v.isFixnum = false ∧ m.heap.read Facet.bignum v = .ok n) ∨
      ∃ y, x = .float y ∧ v.isFixnum = false ∧ m.heap.read Facet.float v = .ok y := by
  unfold number? at h
  cases hf : v.fixnum? with
  | some k =>
    rw [hf] at h
    exact Or.inl ⟨k, (Option.some.inj h).symm, rfl⟩
  | none =>
    have hnot : v.isFixnum = false := by
      rw [Value.fixnum?] at hf
      simpa using hf
    simp only [hf] at h
    cases hy : m.heap.read? Facet.float v with
    | some y =>
      rw [hy] at h
      obtain ⟨o, ho, hb⟩ := Option.bind_eq_some_iff.mp hy
      exact Or.inr (Or.inr ⟨y, (Option.some.inj h).symm, hnot, Heap.read_eq_ok_iff.mpr ⟨o, ho, hb⟩⟩)
    | none =>
      rw [hy] at h
      obtain ⟨k, hk, hx⟩ := Option.map_eq_some_iff.mp h
      obtain ⟨o, ho, hb⟩ := Option.bind_eq_some_iff.mp hk
      exact Or.inr (Or.inl ⟨k, hx.symm, hnot, Heap.read_eq_ok_iff.mpr ⟨o, ho, hb⟩⟩)

/-- An integer is a fixnum of the range or a bignum of any size. -/
theorem integer?_cases (h : m.integer? v = some n) :
    v.fixnum? = some n ∧ m.number? v = some (.fixed n) ∧ -2 ^ 62 ≤ n ∧ n < 2 ^ 62 ∨
      v.isFixnum = false ∧ m.number? v = some (.big n) ∧ m.heap.read Facet.bignum v = .ok n := by
  obtain ⟨x, hx, hn⟩ := Option.bind_eq_some_iff.mp h
  rcases number?_cases hx with ⟨k, rfl, hfix⟩ | ⟨k, rfl, hnot, hread⟩ | ⟨y, rfl, -⟩
  · obtain rfl := Option.some.inj hn
    exact Or.inl ⟨hfix, hx, Value.fits_of_fixnum? hfix⟩
  · obtain rfl := Option.some.inj hn
    exact Or.inr ⟨hnot, hx, hread⟩
  · cases hn

theorem fits_of_isFixnum (h : m.integer? v = some n) (hv : v.isFixnum = true) :
    -2 ^ 62 ≤ n ∧ n < 2 ^ 62 := by
  rcases integer?_cases h with ⟨-, -, hfits⟩ | ⟨hnot, -, -⟩
  · exact hfits
  · rw [hv] at hnot
    exact Bool.noConfusion hnot

theorem isInteger_of_integer? (h : m.integer? v = some n) :
    ∃ x, m.number? v = some x ∧ x.IsInteger n := by
  rcases integer?_cases h with ⟨-, hx, hfits⟩ | ⟨-, hx, -⟩
  · exact ⟨_, hx, Or.inl ⟨rfl, hfits⟩⟩
  · exact ⟨_, hx, Or.inr rfl⟩

end Machine

namespace Effect

open Machine

variable {m : Machine}

/-- An integer is stored in the form results have. -/
theorem newInteger_normalised (hs : m.heap.Sound) (hroom : m.heap.slots.size < 2 ^ 32) (n : Int) :
    ∃ v m', newInteger n m = .ok v m' ∧ m'.Normalised v n := by
  unfold newInteger Value.ofInt? Normalised
  by_cases hn : -2 ^ 62 ≤ n ∧ n < 2 ^ 62
  · rw [if_pos (Value.fitsFixnum_iff.mpr hn)]
    exact ⟨_, m, rfl, by rw [if_pos hn]; exact Value.fixnum?_ofInt hn⟩
  · rw [if_neg (mt Value.fitsFixnum_iff.mp hn)]
    obtain ⟨v, m', o, halloc, hget, -, hbody⟩ :=
      exists_alloc hs hroom (m.classValue .bignum) (.bignum n)
    refine ⟨v, m', halloc, ?_⟩
    rw [if_neg hn, Heap.read_eq_ok_iff]
    exact ⟨o, hget, by rw [hbody]; rfl⟩

theorem newNumeral_normalised (hs : m.heap.Sound) (hroom : m.heap.slots.size < 2 ^ 32) {r : Numeral}
    {n : Int} (hr : r.Holds n) : ∃ v m', newNumeral r m = .ok v m' ∧ m'.Normalised v n := by
  rcases hr with rfl | ⟨rfl, hn⟩
  · exact newInteger_normalised hs hroom n
  · exact ⟨_, m, rfl, by rw [Normalised, if_pos hn]; exact Value.fixnum?_ofInt hn⟩

end Effect

/-! ### The methods of integers -/

/-- The built-in methods of an integer's class. -/
def integerMethods (v : Value) : PrimitiveList := if v.isFixnum then .fixnum else .bignum

/-- A built-in method of an integer returns an integer in the form results have. -/
def Returns (calls : Calls) (m : Machine) (receiver : Value) (name : String) (args : List Value)
    (n : Int) : Prop :=
  ∃ p, (integerMethods receiver).find? name = some p ∧
    ∃ v m', p.perform calls receiver args m = .ok v m' ∧ m'.Normalised v n

section Methods

open Effect Machine

variable {calls : Calls} {m : Machine} {x y : Value} {a b n : Int}

theorem integerMethods_find? (x : Value) (op : BinOp) :
    (integerMethods x).find? op.symbol =
      some (if x.isFixnum then .fixnumBinary op else .bignumBinary op) := by
  unfold integerMethods
  cases x.isFixnum with
  | true => cases op <;> decide
  | false => cases op <;> decide

theorem isFixnum_of_fixnum? (h : x.fixnum? = some n) : x.isFixnum = true := by
  by_contra hno
  simp [Value.fixnum?, hno] at h

/-- A binary method classifies its receiver, then computes. -/
theorem perform_binary (calls : Calls) (hx : m.integer? x = some a) (op : BinOp) (y : Value) :
    ∃ left, Number.IsInteger left a ∧
      (if x.isFixnum then Primitive.fixnumBinary op else .bignumBinary op).perform calls x [y] m =
        Effect.binary op left x y m := by
  rcases integer?_cases hx with ⟨hfix, -, hfits⟩ | ⟨hnot, -, hread⟩
  · refine ⟨.fixed a, Or.inl ⟨rfl, hfits⟩, ?_⟩
    simp only [isFixnum_of_fixnum? hfix, if_true, Primitive.perform, fixnumBinary, argument, expectFixnum, hfix]
    rfl
  · refine ⟨.big a, Or.inr rfl, ?_⟩
    simp only [hnot, Primitive.perform, bignumBinary, argument]
    exact bind_of_ok (read_of_ok hread)

/-- Two numbers are computed with and the outcome is stored or raised. -/
theorem binary_of_number? {op : BinOp} {left right : Number} (hright : m.number? y = some right) :
    Effect.binary op left x y m =
      finishArithmetic op.symbol x y (Number.binary op left right) m := by
  have hask : ask (·.number? y) m = .ok (some right) m := by rw [ask, hright]
  rw [Effect.binary, bind_of_ok hask]

/-- A method that computes an integer returns it. -/
theorem returns_of_binary (op : BinOp) (hs : m.heap.Sound) (hroom : m.heap.slots.size < 2 ^ 32)
    (hx : m.integer? x = some a) (hy : m.integer? y = some b)
    (h : ∀ left right : Number, left.IsInteger a → right.IsInteger b →
      ∃ r, Number.binary op left right = .ok r ∧ r.Holds n) :
    Returns calls m x op.symbol [y] n := by
  refine ⟨_, integerMethods_find? x op, ?_⟩
  obtain ⟨left, hleft, hperform⟩ := perform_binary calls hx op y
  obtain ⟨right, hy, hright⟩ := isInteger_of_integer? hy
  obtain ⟨r, hr, hholds⟩ := h left right hleft hright
  rw [hperform, binary_of_number? hy, hr]
  exact newNumeral_normalised hs hroom hholds

/-- The exact operators return what integers of any size give. -/
theorem returns_binary (hs : m.heap.Sound) (hroom : m.heap.slots.size < 2 ^ 32)
    (hx : m.integer? x = some a) (hy : m.integer? y = some b) {op : BinOp}
    (hop : op ∈ Number.exactOperators) (hne : Number.divides op = true → b ≠ 0)
    (h : Number.integerBinary op a b = .ok (.integer n)) :
    Returns calls m x op.symbol [y] n :=
  returns_of_binary op hs hroom hx hy fun _ _ hleft hright =>
    Number.binary_holds hop hne hleft hright h

theorem returns_negate (hs : m.heap.Sound) (hroom : m.heap.slots.size < 2 ^ 32)
    (hx : m.integer? x = some a) : Returns calls m x "-self" [] (-a) := by
  rcases integer?_cases hx with ⟨hfix, -, hfits⟩ | ⟨hnot, -, hread⟩
  · refine ⟨.fixnumNegate, by rw [integerMethods, isFixnum_of_fixnum? hfix]; decide, ?_⟩
    have hperform : Primitive.fixnumNegate.perform calls x [] m = newInteger (-a) m := by
      simp only [Primitive.perform, expectFixnum, hfix, pure_bind, Fixnum.toInt_neg_wide hfits]
    rw [hperform]
    exact newInteger_normalised hs hroom _
  · refine ⟨.bignumNegate, by rw [integerMethods, hnot]; decide, ?_⟩
    have hperform : Primitive.bignumNegate.perform calls x [] m = newInteger (-a) m :=
      bind_of_ok (read_of_ok hread)
    rw [hperform]
    exact newInteger_normalised hs hroom _

theorem returns_invert (hs : m.heap.Sound) (hroom : m.heap.slots.size < 2 ^ 32)
    (hx : m.integer? x = some a) : Returns calls m x "~self" [] (-a - 1) := by
  rcases integer?_cases hx with ⟨hfix, -, hfits⟩ | ⟨hnot, -, hread⟩
  · refine ⟨.fixnumInvert, by rw [integerMethods, isFixnum_of_fixnum? hfix]; decide, ?_⟩
    have hperform : Primitive.fixnumInvert.perform calls x [] m = .ok (.ofInt (-a - 1)) m := by
      simp only [Primitive.perform, expectFixnum, hfix, pure_bind, Fixnum.word_not]
      rw [Fixnum.toInt_word (by omega)]
      rfl
    refine ⟨_, m, hperform, ?_⟩
    rw [Machine.Normalised, if_pos (by omega)]
    exact Value.fixnum?_ofInt (by omega)
  · refine ⟨.bignumInvert, by rw [integerMethods, hnot]; decide, ?_⟩
    have hperform : Primitive.bignumInvert.perform calls x [] m = newInteger (-a - 1) m :=
      bind_of_ok (read_of_ok hread)
    rw [hperform]
    exact newInteger_normalised hs hroom _

/-- For every two integers, each a fixnum or a bignum of any size: `+`, `-`, `*` and `-self` return the
sum, the difference, the product and the negative; `&`, `|`, `^` and `~self` the integer with the
digits of the two's complement; `//` and `%`, unless the divisor is zero, the quotient rounded down
and its remainder.  Each result is a fixnum if it lies in the range of fixnums, else a bignum.  Two
fixnums, which are computed with in machine words, give what they would give as bignums. -/
theorem integer_arithmetic_exact (calls : Calls) (m : Machine) (hs : m.heap.Sound)
    (hroom : m.heap.slots.size < 2 ^ 32) (x y : Value) (a b : Int) (hx : m.integer? x = some a)
    (hy : m.integer? y = some b) :
    Returns calls m x "+" [y] (a + b) ∧
    Returns calls m x "-" [y] (a - b) ∧
    Returns calls m x "*" [y] (a * b) ∧
    (∃ n, Returns calls m x "&" [y] n ∧ ∀ i, n.testBit i = (a.testBit i && b.testBit i)) ∧
    (∃ n, Returns calls m x "|" [y] n ∧ ∀ i, n.testBit i = (a.testBit i || b.testBit i)) ∧
    (∃ n, Returns calls m x "^" [y] n ∧ ∀ i, n.testBit i = Bool.xor (a.testBit i) (b.testBit i)) ∧
    (b ≠ 0 → ∃ q r, Returns calls m x "//" [y] q ∧ Returns calls m x "%" [y] r ∧
      a = q * b + r ∧ (r = 0 ∨ r.sign = b.sign) ∧ |r| < |b|) ∧
    Returns calls m x "-self" [] (-a) ∧
    (∃ n, Returns calls m x "~self" [] n ∧ ∀ i, n.testBit i = !a.testBit i) ∧
    ∀ op ∈ Number.exactOperators, (Number.divides op = true → b ≠ 0) → x.isFixnum = true →
      y.isFixnum = true → ∃ r n, Number.fixedBinary op a b = .ok r ∧ r.Holds n ∧
        Number.bigBinary op a b = .ok (.integer n) := by
  have hbinary : ∀ op n, op ∈ Number.exactOperators → (Number.divides op = true → b ≠ 0) →
      Number.integerBinary op a b = .ok (.integer n) → Returns calls m x op.symbol [y] n :=
    fun op n hop hne h => returns_binary hs hroom hx hy hop hne h
  refine ⟨?_, ?_, ?_, ⟨_, ?_, Integer.testBit_and a b⟩, ⟨_, ?_, Integer.testBit_or a b⟩,
    ⟨_, ?_, Integer.testBit_xor a b⟩, fun hb => ?_, returns_negate hs hroom hx,
    ⟨_, returns_invert hs hroom hx, Integer.testBit_complement a⟩, ?_⟩
  · exact hbinary .add _ (by decide) nofun rfl
  · exact hbinary .sub _ (by decide) nofun rfl
  · exact hbinary .mul _ (by decide) nofun rfl
  · exact hbinary .and _ (by decide) nofun rfl
  · exact hbinary .or _ (by decide) nofun rfl
  · exact hbinary .xor _ (by decide) nofun rfl
  · obtain ⟨heq, hsign, hlt⟩ := (Integer.floored_iff_fdiv_fmod hb).mpr ⟨rfl, rfl⟩
    exact ⟨_, _, hbinary .floorDiv _ (by decide) (fun _ => hb) rfl,
      hbinary .mod _ (by decide) (fun _ => hb) rfl, heq, hsign, hlt⟩
  · intro op hop hne hxf hyf
    exact Number.fixedBinary_agrees hop hne (fits_of_isFixnum hx hxf) (fits_of_isFixnum hy hyf)

/-- The two ends of the range: the least fixnum divided by minus one is stored as a bignum, and the
bignum just above the range comes back into it. -/
theorem integer_arithmetic_exact_at_bounds :
    let calls := Calls.exhausted
    let start : Heap := { settings := {} }
    let m : Machine := { heap := start.insert .nil (.bignum (2 ^ 62)) }
    let least := Value.ofInt (-2 ^ 62)
    (∃ q r, Returns calls m least "//" [.ofInt (-1)] q ∧
      Returns calls m least "%" [.ofInt (-1)] r ∧ (q = 2 ^ 62 ∧ r = 0)) ∧
      Returns calls m start.nextReference "+" [.ofInt (-1)] (2 ^ 62 - 1) := by
  intro calls start m least
  have hs : m.heap.Sound := (Heap.sound_fresh {}).insert _ _
  have hleast : m.integer? least = some (-2 ^ 62) := by decide
  have hone : m.integer? (.ofInt (-1)) = some (-1) := by decide
  have hbig : m.integer? start.nextReference = some (2 ^ 62) := by decide
  refine ⟨?_, (integer_arithmetic_exact calls m hs (by decide) _ _ _ _ hbig hone).1⟩
  obtain ⟨-, -, -, -, -, -, hdiv, -⟩ :=
    integer_arithmetic_exact calls m hs (by decide) _ _ _ _ hleast hone
  obtain ⟨q, r, hq, hr, heq, -, hlt⟩ := hdiv (by decide)
  have hzero : r = 0 := by
    rw [abs_neg, abs_one] at hlt
    exact Int.abs_lt_one_iff.mp hlt
  exact ⟨q, r, hq, hr, by omega, hzero⟩

end Methods
end ObjectMachine
