import Mathlib
import ObjectMachine.Proofs.Number.Rounding

/-! Significands of 53 digits.

An integer quotient whose last digit stands for any remainder is rounded to 53 digits as the exact
quotient would be: the digits below the 53rd are at least two, so an odd last one is never on the border
between two roundings.  Scaling by a power of two then rounds once more, in however many steps it is done:
all but one of them are exact or leave no doubt about the result.  That second rounding keeps all the
digits of a normal number, but a subnormal number has fewer of them. -/

namespace ObjectMachine

namespace Binary64

variable {q u v : ℚ} {m n s t num den : ℕ} {k : ℤ} {negative : Bool} {x : Binary64}

/-! ### Sticky digits -/

theorem or_one (n : ℕ) : n ||| 1 = 2 * (n / 2) + 1 := by
  refine Nat.eq_of_testBit_eq fun i => ?_
  rw [Nat.testBit_or]
  cases i with
  | zero => simp [Nat.testBit_zero]
  | succ i =>
    rw [Nat.testBit_add_one, Nat.testBit_add_one, Nat.testBit_add_one]
    have hhalf : (2 * (n / 2) + 1) / 2 = n / 2 := by omega
    rw [hhalf]
    simp

/-- The integer quotient, with an odd last digit if there is a remainder. -/
def sticky (num den : ℕ) : ℕ := if num % den = 0 then num / den else num / den ||| 1

/-- With a remainder, the quotient lies strictly between two neighbouring even numbers. -/
theorem between_evens (hden : 0 < den) (hrem : num % den ≠ 0) :
    (2 * (num / den / 2 : ℕ) : ℚ) < num / den ∧ (num : ℚ) / den < 2 * (num / den / 2 : ℕ) + 2 := by
  have hpos : (0 : ℚ) < den := by exact_mod_cast hden
  set half := num / den / 2 with hhalf
  rw [lt_div_iff₀ hpos, div_lt_iff₀ hpos]
  constructor
  · have hdiv := Nat.div_add_mod num den
    have hle : 2 * half * den ≤ num / den * den := Nat.mul_le_mul_right _ (by omega)
    have hlt : 2 * half * den < num := by
      rw [mul_comm den] at hdiv
      omega
    exact_mod_cast hlt
  · have hlt : num < (2 * half + 2) * den := by
      have hnext := Nat.lt_mul_div_succ num hden
      rw [mul_comm] at hnext
      exact hnext.trans_le (Nat.mul_le_mul_right _ (by omega))
    exact_mod_cast hlt

/-- The digit that stands for the remainder does not change how at least two digits are dropped. -/
theorem RoundsTo.of_sticky (hden : 0 < den) (h : RoundsTo (sticky num den / 2 ^ (s + 2)) m) :
    RoundsTo (num / den / 2 ^ (s + 2)) m := by
  have hpos : (0 : ℚ) < den := by exact_mod_cast hden
  rw [sticky] at h
  split at h
  · rename_i hrem
    rwa [Nat.cast_div (Nat.dvd_of_mod_eq_zero hrem) hpos.ne'] at h
  · rename_i hrem
    rw [or_one] at h
    obtain ⟨hlow, hhigh⟩ := between_evens hden hrem
    generalize num / den / 2 = half at h hlow hhigh
    obtain ⟨hlo, hhi⟩ := h.bounds
    have hscale : (2 : ℚ) ^ (s + 2) = 4 * (2 ^ s : ℕ) := by rw [pow_add]; push_cast; ring
    have hw : (0 : ℚ) < (2 ^ s : ℕ) := by positivity
    rw [hscale] at hlo hhi ⊢
    generalize (2 ^ s : ℕ) = w at hlo hhi hw ⊢
    rw [sub_le_iff_le_add, div_le_iff₀ (by positivity)] at hlo
    rw [← sub_le_iff_le_add, le_div_iff₀ (by positivity)] at hhi
    have hlo' : 2 * half + 1 ≤ 4 * m * w + 2 * w := by
      have : ((2 * half + 1 : ℕ) : ℚ) ≤ (4 * m * w + 2 * w : ℕ) := by push_cast at hlo ⊢; linarith
      exact_mod_cast this
    have hhi' : 4 * m * w ≤ 2 * half + 1 + 2 * w := by
      have : ((4 * m * w : ℕ) : ℚ) ≤ (2 * half + 1 + 2 * w : ℕ) := by push_cast at hhi ⊢; linarith
      exact_mod_cast this
    have hbelow : 4 * m * w ≤ 2 * half + 2 * w := by
      have heven : 4 * m * w = 2 * (2 * m * w) := by ring
      omega
    have habove : 2 * half + 2 ≤ 4 * m * w + 2 * w := by
      have heven : 4 * m * w = 2 * (2 * m * w) := by ring
      omega
    have hbelow' : (4 * m * w : ℚ) ≤ 2 * half + 2 * w := by exact_mod_cast hbelow
    have habove' : (2 * half + 2 : ℚ) ≤ 4 * m * w + 2 * w := by exact_mod_cast habove
    have hstrict : |(num : ℚ) / den / (4 * w) - m| < 1 / 2 := by
      rw [abs_lt, neg_lt_sub_iff_lt_add, sub_lt_iff_lt_add, div_lt_iff₀ (by positivity),
        ← sub_lt_iff_lt_add', lt_div_iff₀ (by positivity)]
      constructor <;> linarith
    exact ⟨hstrict.le, fun hhalf => absurd hhalf hstrict.ne⟩

/-! ### Fifty-three digits -/

/-- The first 53 binary digits of `v` are rounded to `m`, with `k` as the exponent of the last. -/
structure Significand (v : ℚ) (m : ℕ) (k : ℤ) : Prop where
  low : 2 ^ 52 * 2 ^ k ≤ v
  high : v < 2 ^ 53 * 2 ^ k
  nearest : RoundsTo (v / 2 ^ k) m

/-- `p` is `q` rounded to 53 significant binary digits, whatever its size. -/
def Digits53 (q p : ℚ) : Prop :=
  q = 0 ∧ p = 0 ∨ ∃ m k, Significand |q| m k ∧ p = signed (q < 0) (m * 2 ^ k)

theorem Significand.ge (h : Significand v m k) : 2 ^ 52 ≤ m := by
  refine h.nearest.ge_of_ge ?_
  rw [le_div_iff₀ (zpow_pos two_pos k), Nat.cast_pow, Nat.cast_ofNat]
  exact h.low

theorem Significand.le (h : Significand v m k) : m ≤ 2 ^ 53 := by
  refine h.nearest.le_of_le ?_
  rw [div_le_iff₀ (zpow_pos two_pos k), Nat.cast_pow, Nat.cast_ofNat]
  exact h.high.le

/-- Every positive number has its first 53 digits. -/
theorem exists_significand (hv : 0 < v) : ∃ m k, Significand v m k := by
  obtain ⟨i, hlow, hhigh⟩ := exists_mem_Ico_zpow hv one_lt_two
  have hsplit : ∀ j : ℕ, (2 : ℚ) ^ j * 2 ^ (i - 52) = 2 ^ (i - 52 + j) := by
    intro j
    rw [zpow_add₀ two_ne_zero, mul_comm, zpow_natCast]
  have hpos : (0 : ℚ) < v / 2 ^ (i - 52) := div_pos hv (zpow_pos two_pos _)
  refine ⟨nearestEven (v / 2 ^ (i - 52)).num.toNat (v / 2 ^ (i - 52)).den, i - 52, ?_, ?_, ?_⟩
  · rw [hsplit 52]
    simpa using hlow
  · have hexp : i - 52 + (53 : ℕ) = i + 1 := by omega
    rwa [hsplit 53, hexp]
  · have h := roundsTo_nearestEven (v / 2 ^ (i - 52)).num.toNat (v / 2 ^ (i - 52)).pos
    rwa [num_div_den_of_nonneg hpos.le] at h

theorem lt_overflow {q : ℚ} (h : q ≤ 2 ^ 63) : q < overflow := by
  have hpow : (2 : ℚ) ^ 63 < 2 ^ 970 := pow_lt_pow_right₀ one_lt_two (by decide)
  have hsplit : overflow = 2 ^ 970 * (2 ^ 54 - 1) := by
    rw [overflow, mul_sub, mul_one, ← pow_add]
  refine h.trans_lt (hpow.trans_le ?_)
  rw [hsplit]
  exact le_mul_of_one_le_right (pow_pos two_pos _).le (by norm_num)

/-- The greatest finite double. -/
def greatest : ℚ := (2 ^ 53 - 1) * 2 ^ 971

/-- No number of 53 digits lies between the greatest finite double and the numbers that are rounded to
infinity. -/
theorem overflow_le_iff {p q : ℚ} (h : Digits53 q p) : overflow ≤ |p| ↔ greatest < |p| := by
  have hlast : (0 : ℚ) < 2 ^ 971 := pow_pos two_pos _
  have hgap : greatest < overflow := by
    rw [overflow_eq, greatest]
    exact mul_lt_mul_of_pos_right (by norm_num) hlast
  refine ⟨hgap.trans_le, fun hgt => ?_⟩
  rcases h with ⟨-, rfl⟩ | ⟨m, k, h, rfl⟩
  · rw [abs_zero, greatest] at hgt
    exact absurd hgt (not_lt.mpr (mul_nonneg (by norm_num) hlast.le))
  · have hk : (0 : ℚ) < 2 ^ k := zpow_pos two_pos k
    have hhigh : (m : ℚ) * 2 ^ k ≤ 2 ^ 53 * 2 ^ k :=
      mul_le_mul_of_nonneg_right (by exact_mod_cast h.le) hk.le
    have hlow : 2 ^ 52 * 2 ^ k ≤ (m : ℚ) * 2 ^ k :=
      mul_le_mul_of_nonneg_right (by exact_mod_cast h.ge) hk.le
    have hstep : ∀ {i j : ℤ}, i < j → (2 : ℚ) ^ i * 2 ≤ 2 ^ j := by
      intro i j hij
      rw [← zpow_add_one₀ two_ne_zero]
      exact zpow_le_zpow_right₀ one_le_two hij
    rw [abs_signed _ (mul_nonneg m.cast_nonneg hk.le)] at hgt ⊢
    rw [overflow_eq, ← zpow_natCast (2 : ℚ) 971]
    rw [greatest, ← zpow_natCast (2 : ℚ) 971] at hgt
    rw [← zpow_natCast (2 : ℚ) 971] at hlast
    rcases lt_trichotomy k (971 : ℕ) with hk' | hk' | hk'
    · have hhalf := hstep hk'
      generalize (2 : ℚ) ^ ((971 : ℕ) : ℤ) = last at *
      linarith
    · rw [hk'] at hgt ⊢
      have hm : ((2 ^ 53 : ℕ) : ℚ) < (m + 1 : ℕ) := by
        have := lt_of_mul_lt_mul_right hgt hlast.le
        push_cast
        linarith
      have hm' : ((2 ^ 53 : ℕ) : ℚ) ≤ m := Nat.cast_le.mpr (Nat.lt_succ_iff.mp (Nat.cast_lt.mp hm))
      push_cast at hm'
      exact mul_le_mul_of_nonneg_right (by linarith) hlast.le
    · have hdouble := hstep hk'
      generalize (2 : ℚ) ^ ((971 : ℕ) : ℤ) = last at *
      linarith

theorem unitsPerOne_cast : (unitsPerOne : ℚ) = 2 ^ (1074 : ℤ) := by
  rw [unitsPerOne_eq, Nat.cast_pow, Nat.cast_ofNat]
  rfl

/-- A significand that fits is not rounded. -/
theorem rounded_exact {c j : ℕ} (hc : c ≤ 2 ^ 53) (hlt : c * 2 ^ j < 2 ^ 53 * 2 ^ maxShift)
    (negative : Bool) : (rounded negative (c * 2 ^ j)).isFinite = true ∧
      (rounded negative (c * 2 ^ j)).signBit = negative ∧
      (rounded negative (c * 2 ^ j)).magnitude = c * 2 ^ j := by
  have hu : (0 : ℚ) ≤ c * 2 ^ j := by positivity
  obtain ⟨s, m, h⟩ := exists_rounding hu
  have hexact := h.exact hc
  obtain ⟨hfinite, hsign, hmag, -⟩ := h.finite hu (hexact ▸ hlt) negative
  exact ⟨hfinite, hsign, hmag.trans hexact⟩

/-- A significand of 53 digits and the number it was rounded from are rounded alike, unless they are
subnormal. -/
theorem Significand.rounded_eq (h : Significand v m k) (hnormal : 2 ^ (-1022 : ℤ) ≤ v)
    (negative : Bool) : rounded negative (m * 2 ^ k * unitsPerOne) = rounded negative (v * unitsPerOne) := by
  have htwo : (2 : ℚ) ≠ 0 := two_ne_zero
  obtain ⟨s, hs⟩ : ∃ s : ℕ, k + 1074 = s := by
    have hlt : (2 : ℚ) ^ (-1022 : ℤ) < 2 ^ (53 + k) := by
      rw [zpow_add₀ htwo]
      exact hnormal.trans_lt (by exact_mod_cast h.high)
    have := (zpow_lt_zpow_iff_right₀ one_lt_two).mp hlt
    exact ⟨(k + 1074).toNat, by omega⟩
  have hshift : (2 : ℚ) ^ k * unitsPerOne = 2 ^ s := by
    rw [unitsPerOne_cast, ← zpow_add₀ htwo, hs, zpow_natCast]
  have hpos : (0 : ℚ) < unitsPerOne := by exact_mod_cast unitsPerOne_pos
  have hv : 0 ≤ v := le_trans (by positivity) h.low
  have hquotient : v * unitsPerOne / 2 ^ s = v / 2 ^ k := by
    rw [← hshift, mul_div_mul_right _ _ hpos.ne']
  have hround : Rounding (v * unitsPerOne) s m := by
    refine ⟨Or.inr ?_, ?_, hquotient ▸ h.nearest⟩
    · rw [pow_add, ← hshift, ← mul_assoc]
      exact mul_le_mul_of_nonneg_right h.low hpos.le
    · rw [pow_add, ← hshift, ← mul_assoc]
      exact mul_lt_mul_of_pos_right h.high hpos
  have hm := h.ge
  rw [mul_assoc, hshift, hround.rounded_eq (mul_nonneg hv hpos.le)]
  rcases hround.le.lt_or_eq with hlt | rfl
  · have hself : Rounding (m * 2 ^ s) s m := by
      refine ⟨Or.inr ?_, ?_, ?_⟩
      · rw [pow_add]
        exact mul_le_mul_of_nonneg_right (by exact_mod_cast hm) (by positivity)
      · rw [pow_add]
        exact mul_lt_mul_of_pos_right (by exact_mod_cast hlt) (by positivity)
      · rw [mul_div_cancel_right₀ _ (by positivity)]
        exact roundsTo_self m
    exact hself.rounded_eq (by positivity) negative
  · -- a carry: one digit more is dropped from a power of two
    have hcarry : Rounding ((2 ^ 53 : ℕ) * 2 ^ s) (s + 1) (2 ^ 52) := by
      have hsplit : ((2 ^ 53 : ℕ) : ℚ) * 2 ^ s = (2 ^ 52 : ℕ) * 2 ^ (s + 1) := by push_cast; ring
      rw [hsplit]
      refine ⟨Or.inr ?_, ?_, ?_⟩
      · rw [pow_add (2 : ℚ) 52]
        push_cast
        exact le_rfl
      · rw [pow_add (2 : ℚ) 53]
        exact mul_lt_mul_of_pos_right (by norm_num) (by positivity)
      · rw [mul_div_cancel_right₀ _ (by positivity)]
        exact roundsTo_self _
    have hcode : (s + 1) * 2 ^ 52 + 2 ^ 52 = s * 2 ^ 52 + 2 ^ 53 := by ring
    rw [hcarry.rounded_eq (by positivity), hcode]

theorem rounded_eq_infinity (h : 2 ^ 53 * 2 ^ maxShift ≤ u) (negative : Bool) :
    rounded negative u = infinity negative := by
  have hu : 0 ≤ u := le_trans (by positivity) h
  obtain ⟨s, m, hround⟩ := exists_rounding hu
  refine hround.infinite hu ((hround.carry_iff maxShift).mpr (le_trans ?_ h)) negative
  exact mul_le_mul_of_nonneg_right (by norm_num) (by positivity)

/-- Less than half a unit is nothing. -/
theorem rounded_eq_zero (hu : 0 ≤ u) (h : u < 1 / 2) (negative : Bool) :
    rounded negative u = zero negative := by
  have hround : Rounding u 0 0 := by
    refine ⟨Or.inl rfl, h.trans (by norm_num), ?_⟩
    have hdist : |u / 2 ^ 0 - (0 : ℕ)| < 1 / 2 := by
      rw [pow_zero, div_one, Nat.cast_zero, sub_zero, abs_of_nonneg hu]
      exact h
    exact ⟨hdist.le, fun hhalf => absurd hhalf hdist.ne⟩
  rw [hround.rounded_eq hu, Nat.zero_mul, Nat.zero_add, Nat.zero_min]
  rfl

/-! ### Operations on finite doubles -/

theorem toRat_zero : (zero false).toRat = 0 := by
  rw [toRat_eq_signed, (by decide : (zero false).magnitude = 0), Nat.cast_zero, zero_div, signed_zero]

theorem signBit_rounded {u : ℚ} (hu : 0 ≤ u) (negative : Bool) : (rounded negative u).signBit = negative := by
  obtain ⟨s, m, h⟩ := exists_rounding hu
  rw [h.rounded_eq hu]
  refine (fields_ofSign negative ((min_le_right _ _).trans ?_)).1
  rw [maxShift_eq]

theorem nearest_of_eq_rounded {p : ℚ} {x : Binary64} {negative : Bool} (hp : p = signed negative |p|)
    (hx : x = rounded negative (|p| * unitsPerOne)) : Nearest p x := by
  have hunit : (unitsPerOne : ℚ) ≠ 0 := Nat.cast_ne_zero.mpr unitsPerOne_pos.ne'
  have h := nearest_rounded negative (mul_nonneg (abs_nonneg p) (Nat.cast_nonneg unitsPerOne))
  rw [mul_div_cancel_right₀ _ hunit, ← hp] at h
  rwa [hx]

theorem special_of_finite (hx : x.isFinite = true) : x.isNaN = false ∧ x.isInfinite = false := by
  rw [isFinite, bne_iff_ne] at hx
  simp [isNaN, isInfinite, hx]

theorem Nearest.isInfinite_iff (h : Nearest q x) : x.isInfinite = true ↔ overflow ≤ |q| := by
  refine ⟨fun hinf => not_lt.mp fun hlt => ?_, fun hge => ?_⟩
  · rw [(special_of_finite (h.finite hlt).1).2] at hinf
    cases hinf
  · rw [h.infinite hge]
    cases decide (q < 0) <;> decide

theorem ofInt_eq_rounded (n : ℤ) : ofInt n = rounded (n < 0) (n.natAbs * unitsPerOne) := by
  rw [ofInt, ofRatio, ofUnitRatio_eq_rounded one_pos, Nat.cast_one, div_one, Nat.cast_mul]

theorem mul_eq_rounded {y : Binary64} (hx : x.isFinite = true) (hy : y.isFinite = true) :
    mul x y = rounded (x.signBit != y.signBit) (x.magnitude * y.magnitude / unitsPerOne) := by
  obtain ⟨hxn, hxi⟩ := special_of_finite hx
  obtain ⟨hyn, hyi⟩ := special_of_finite hy
  rw [mul, nan?, hxn, hyn, hxi, hyi]
  exact (ofUnitRatio_eq_rounded unitsPerOne_pos _).trans (by rw [Nat.cast_mul])

theorem div_eq_rounded {y : Binary64} (hx : x.isFinite = true) (hy : y.isFinite = true)
    (hne : y.magnitude ≠ 0) : div x y =
      rounded (x.signBit != y.signBit) (x.magnitude / y.magnitude * unitsPerOne) := by
  obtain ⟨hxn, hxi⟩ := special_of_finite hx
  obtain ⟨hyn, hyi⟩ := special_of_finite hy
  have hyz : y.isZero = false := by
    rw [isZero, hy, Bool.true_and]
    exact beq_false_of_ne hne
  rw [div, nan?, hxn, hyn, hxi, hyi, hyz]
  refine (ofUnitRatio_eq_rounded (Nat.pos_of_ne_zero hne) _).trans ?_
  rw [Nat.cast_mul, mul_div_right_comm]

/-! ### Scaling -/

/-- `x` is a finite number of `n` units without a sign. -/
structure Amounts (x : Binary64) (n : ℕ) : Prop where
  finite : x.isFinite = true
  sign : x.signBit = false
  magnitude : x.magnitude = n

theorem amounts_rounded {c j : ℕ} (hc : c ≤ 2 ^ 53) (hlt : c * 2 ^ j < 2 ^ 53 * 2 ^ maxShift) :
    Amounts (rounded false (c * 2 ^ j)) (c * 2 ^ j) := by
  obtain ⟨hfinite, hsign, hmag⟩ := rounded_exact hc hlt false
  exact ⟨hfinite, hsign, hmag⟩

theorem amounts_twoPow {e : ℤ} {j : ℕ} (hj : e + 1074 = j) (hle : e ≤ 1000) :
    Amounts (twoPow e) (2 ^ j) := by
  have hround : twoPow e = rounded false ((1 : ℕ) * 2 ^ j) := by
    have hpow : (2 : ℚ) ^ j = 2 ^ e * unitsPerOne := by
      rw [unitsPerOne_cast, ← zpow_add₀ two_ne_zero, hj, zpow_natCast]
    rw [Nat.cast_one, one_mul, hpow, twoPow]
    split
    · rename_i he
      obtain ⟨i, rfl⟩ := Int.eq_ofNat_of_zero_le he
      rw [ofRatio, ofUnitRatio_eq_rounded one_pos, Int.toNat_natCast, Nat.one_shiftLeft,
        Nat.cast_one, div_one, Nat.cast_mul, Nat.cast_pow, Nat.cast_ofNat, zpow_natCast]
    · rename_i he
      obtain ⟨i, hi⟩ := Int.eq_ofNat_of_zero_le (by omega : 0 ≤ -e)
      obtain rfl : e = -(i : ℤ) := by omega
      rw [ofRatio, neg_neg, Int.toNat_natCast, Nat.one_shiftLeft,
        ofUnitRatio_eq_rounded (Nat.two_pow_pos i), one_mul, Nat.cast_pow, Nat.cast_ofNat, zpow_neg,
        zpow_natCast, inv_mul_eq_div]
  have hlt : 1 * 2 ^ j < 2 ^ 53 * 2 ^ maxShift := by
    rw [one_mul, ← pow_add]
    exact Nat.pow_lt_pow_right (by decide) (by rw [maxShift_eq]; omega)
  have h := amounts_rounded (by decide) hlt
  rw [one_mul] at h
  rwa [hround]

theorem Amounts.mul_twoPow (hx : Amounts x n) {e : ℤ} (he : -1000 ≤ e ∧ e ≤ 1000) :
    mul x (twoPow e) = rounded false (n * 2 ^ e) := by
  obtain ⟨j, hj⟩ := Int.eq_ofNat_of_zero_le (by omega : 0 ≤ e + 1074)
  have hp := amounts_twoPow hj he.2
  have hpow : ((2 ^ j : ℕ) : ℚ) = 2 ^ e * unitsPerOne := by
    rw [unitsPerOne_cast, ← zpow_add₀ two_ne_zero, hj, zpow_natCast, Nat.cast_pow, Nat.cast_ofNat]
  have hunit : (unitsPerOne : ℚ) ≠ 0 := by exact_mod_cast unitsPerOne_pos.ne'
  rw [mul_eq_rounded hx.finite hp.finite, hx.sign, hp.sign, hx.magnitude, hp.magnitude, hpow,
    ← mul_assoc, mul_div_cancel_right₀ _ hunit]
  rfl

theorem infinity_mul_twoPow {e : ℤ} (he : -1000 ≤ e ∧ e ≤ 1000) :
    mul (infinity false) (twoPow e) = infinity false := by
  obtain ⟨j, hj⟩ := Int.eq_ofNat_of_zero_le (by omega : 0 ≤ e + 1074)
  have hp := amounts_twoPow hj he.2
  obtain ⟨hn, hi⟩ := special_of_finite hp.finite
  have hz : (twoPow e).isZero = false := by
    rw [isZero, hp.finite, hp.magnitude, Bool.true_and]
    exact beq_false_of_ne (Nat.two_pow_pos j).ne'
  have hinf : (infinity false).isNaN = false ∧ (infinity false).isInfinite = true ∧
      (infinity false).isZero = false ∧ (infinity false).signBit = false := by decide
  rw [mul, nan?, hinf.1, hn, hinf.2.1, hi, hinf.2.2.1, hz, hinf.2.2.2, hp.sign]
  rfl

theorem scaleStep_above {e : ℤ} (he : 1000 < e) (y : Binary64) :
    scaleStep (y, e) = (mul y (twoPow 1000), e - 1000) := if_pos he

theorem scaleStep_below {e : ℤ} (he : e < -1000) (y : Binary64) :
    scaleStep (y, e) = (mul y (twoPow (-1000)), e + 1000) :=
  (if_neg (by omega)).trans (if_pos he)

theorem scaleStep_within {e : ℤ} (he : -1000 ≤ e ∧ e ≤ 1000) (y : Binary64) :
    scaleStep (y, e) = (y, e) :=
  (if_neg (by omega)).trans (if_neg (by omega))

theorem overflow_le_scaled (hm : 2 ^ 52 ≤ m) (ht : 1076 ≤ t) (hk : 1000 ≤ k) :
    (2 : ℚ) ^ 53 * 2 ^ maxShift ≤ (m * 2 ^ t : ℕ) * 2 ^ k := by
  have hlow : ((2 ^ 52 : ℕ) : ℚ) ≤ m := by exact_mod_cast hm
  have hpow : (2 : ℚ) ^ 1076 ≤ 2 ^ t := pow_le_pow_right₀ one_le_two ht
  have hpow' : (2 : ℚ) ^ (1000 : ℤ) ≤ 2 ^ k := zpow_le_zpow_right₀ one_le_two hk
  calc (2 : ℚ) ^ 53 * 2 ^ maxShift = 2 ^ 2098 := by rw [maxShift_eq, ← pow_add]
    _ ≤ 2 ^ 2128 := pow_le_pow_right₀ one_le_two (by decide)
    _ = 2 ^ 52 * 2 ^ 1076 * 2 ^ 1000 := by rw [← pow_add, ← pow_add]
    _ ≤ m * 2 ^ t * 2 ^ k := by
      refine mul_le_mul (mul_le_mul (by exact_mod_cast hm) hpow (by positivity) (by positivity))
        hpow' (by positivity) (by positivity)
    _ = (m * 2 ^ t : ℕ) * 2 ^ k := by push_cast; rfl

theorem scaled_lt_half (hm : m ≤ 2 ^ 53) (ht : t ≤ 1077) (hk : k ≤ -2000) :
    ((m * 2 ^ t : ℕ) : ℚ) * 2 ^ k < 1 / 2 := by
  have hhigh : (m : ℚ) ≤ (2 ^ 53 : ℕ) := by exact_mod_cast hm
  have hpow : (2 : ℚ) ^ t ≤ 2 ^ 1077 := pow_le_pow_right₀ one_le_two ht
  have hpow' : (2 : ℚ) ^ k ≤ 2 ^ (-2000 : ℤ) := zpow_le_zpow_right₀ one_le_two hk
  calc ((m * 2 ^ t : ℕ) : ℚ) * 2 ^ k = m * 2 ^ t * 2 ^ k := by push_cast; rfl
    _ ≤ (2 ^ 53 : ℕ) * 2 ^ 1077 * 2 ^ (-2000 : ℤ) := by
      refine mul_le_mul (mul_le_mul hhigh hpow (by positivity) (by positivity)) hpow'
        (by positivity) (by positivity)
    _ = 2 ^ (-870 : ℤ) := by
      rw [Nat.cast_pow, Nat.cast_ofNat, ← zpow_natCast, ← zpow_natCast, ← zpow_add₀ two_ne_zero,
        ← zpow_add₀ two_ne_zero]
      rfl
    _ < 2 ^ (-1 : ℤ) := zpow_lt_zpow_right₀ one_lt_two (by decide)
    _ = 1 / 2 := by rw [zpow_neg_one, one_div]

/-- Without a step there is one rounding. -/
theorem Amounts.scale_within (hx : Amounts x n) (hk : -1000 ≤ k ∧ k ≤ 1000) :
    x.scale k = rounded false (n * 2 ^ k) := by
  have hclamp : max (-2200) (min 2200 k) = k := by omega
  rw [Binary64.scale, hclamp, scaleStep_within hk, scaleStep_within hk]
  exact hx.mul_twoPow hk

/-- The first step up is beyond the greatest finite number, where the others stay. -/
theorem Amounts.scale_above (hx : Amounts x (m * 2 ^ t)) (hm : 2 ^ 52 ≤ m) (ht : 1076 ≤ t)
    (hk : 1000 < k) : x.scale k = rounded false ((m * 2 ^ t : ℕ) * 2 ^ k) := by
  rw [rounded_eq_infinity (overflow_le_scaled hm ht hk.le) false, Binary64.scale]
  generalize hclamp : max (-2200) (min 2200 k) = f
  have hfirst : mul x (twoPow 1000) = infinity false :=
    (hx.mul_twoPow (by decide)).trans (rounded_eq_infinity (overflow_le_scaled hm ht le_rfl) false)
  rw [scaleStep_above (e := f) (by omega), hfirst]
  by_cases htwice : 1000 < f - 1000
  · rw [scaleStep_above htwice, infinity_mul_twoPow (by decide)]
    exact infinity_mul_twoPow (by omega)
  · rw [scaleStep_within (by omega)]
    exact infinity_mul_twoPow (by omega)

/-- The first step down is exact. -/
theorem Amounts.mul_lowest (hx : Amounts x (m * 2 ^ t)) (hm : m ≤ 2 ^ 53) (ht : 1000 ≤ t)
    (ht' : t ≤ 1077) : Amounts (mul x (twoPow (-1000))) (m * 2 ^ (t - 1000)) := by
  have hpow : (2 : ℚ) ^ t * 2 ^ (-1000 : ℤ) = 2 ^ (t - 1000) := by
    rw [← zpow_natCast, ← zpow_natCast, ← zpow_add₀ two_ne_zero]
    congr 1
    omega
  have hfirst : mul x (twoPow (-1000)) = rounded false (m * 2 ^ (t - 1000)) := by
    rw [hx.mul_twoPow (by decide), Nat.cast_mul, Nat.cast_pow, Nat.cast_ofNat, mul_assoc, hpow]
  have hlt : m * 2 ^ (t - 1000) < 2 ^ 53 * 2 ^ maxShift := by
    have hpow : 2 ^ (t - 1000) < 2 ^ maxShift :=
      Nat.pow_lt_pow_right (by decide) (by rw [maxShift_eq]; omega)
    exact (Nat.mul_le_mul_right _ hm).trans_lt (Nat.mul_lt_mul_of_pos_left hpow (by decide))
  rw [hfirst]
  exact amounts_rounded hm hlt

/-- After the step down there is one rounding, or the number is below half a unit. -/
theorem Amounts.scale_below (hx : Amounts x (m * 2 ^ t)) (hm : m ≤ 2 ^ 53) (ht : 1000 ≤ t)
    (ht' : t ≤ 1077) (hk : k < -1000) : x.scale k = rounded false ((m * 2 ^ t : ℕ) * 2 ^ k) := by
  have hy := hx.mul_lowest hm ht ht'
  have hrest : ∀ g : ℤ,
      ((m * 2 ^ (t - 1000) : ℕ) : ℚ) * 2 ^ (g + 1000) = (m * 2 ^ t : ℕ) * 2 ^ g := by
    intro g
    have hexp : ((t - 1000 : ℕ) : ℤ) + (g + 1000) = t + g := by omega
    rw [Nat.cast_mul, Nat.cast_mul, Nat.cast_pow, Nat.cast_pow, Nat.cast_ofNat, mul_assoc, mul_assoc,
      ← zpow_natCast, ← zpow_natCast, ← zpow_add₀ two_ne_zero, ← zpow_add₀ two_ne_zero, hexp]
  rw [Binary64.scale]
  generalize hclamp : max (-2200) (min 2200 k) = f
  rw [scaleStep_below (e := f) (by omega)]
  by_cases htwice : f + 1000 < -1000
  · have hsecond : mul (mul x (twoPow (-1000))) (twoPow (-1000)) = zero false := by
      rw [hy.mul_twoPow (by decide), (by rfl : (-1000 : ℤ) = -2000 + 1000), hrest]
      exact rounded_eq_zero (by positivity) (scaled_lt_half hm ht' le_rfl) false
    have hzero : Amounts (zero false) 0 := ⟨by decide, by decide, by decide⟩
    rw [rounded_eq_zero (by positivity) (scaled_lt_half hm ht' (by omega)) false,
      scaleStep_below htwice, hsecond]
    refine (hzero.mul_twoPow (by omega)).trans ?_
    rw [Nat.cast_zero, zero_mul]
    exact rounded_eq_zero le_rfl (by norm_num) false
  · rw [scaleStep_within (by omega)]
    refine (hy.mul_twoPow (by omega)).trans ?_
    rw [hrest f, (by omega : f = k)]

/-- Scaling a number of 53 digits, which is not small, rounds once. -/
theorem Amounts.scale (hx : Amounts x (m * 2 ^ t)) (hm : 2 ^ 52 ≤ m) (hm' : m ≤ 2 ^ 53)
    (ht : 1076 ≤ t) (ht' : t ≤ 1077) (e : ℤ) :
    x.scale e = rounded false (m * 2 ^ t * 2 ^ e) := by
  have hcast : ((m * 2 ^ t : ℕ) : ℚ) = m * 2 ^ t := by push_cast; rfl
  rw [← hcast]
  by_cases habove : 1000 < e
  · exact hx.scale_above hm ht habove
  by_cases hbelow : e < -1000
  · exact hx.scale_below hm' (by omega) ht' hbelow
  · exact hx.scale_within (by omega)

/-- Scaling zero leaves it zero. -/
theorem scale_zero (e : ℤ) : (zero false).scale e = zero false := by
  have hzero : Amounts (zero false) 0 := ⟨by decide, by decide, by decide⟩
  have hmul : ∀ {g : ℤ}, -1000 ≤ g ∧ g ≤ 1000 → mul (zero false) (twoPow g) = zero false := by
    intro g hg
    rw [hzero.mul_twoPow hg, Nat.cast_zero, zero_mul]
    exact rounded_eq_zero le_rfl (by norm_num) false
  have hstep : ∀ {f : ℤ} (bound : ℤ), 0 ≤ bound → -(bound + 1000) ≤ f ∧ f ≤ bound + 1000 →
      ∃ g, scaleStep (zero false, f) = (zero false, g) ∧ -(max bound 1000) ≤ g ∧ g ≤ max bound 1000 := by
    intro f bound hbound hf
    by_cases habove : 1000 < f
    · exact ⟨f - 1000, by rw [scaleStep_above habove, hmul (by decide)], by omega, by omega⟩
    · by_cases hbelow : f < -1000
      · exact ⟨f + 1000, by rw [scaleStep_below hbelow, hmul (by decide)], by omega, by omega⟩
      · exact ⟨f, scaleStep_within (by omega) _, by omega, by omega⟩
  unfold scale
  obtain ⟨g, hg, hglow, hghigh⟩ := hstep (f := max (-2200) (min 2200 e)) 1200 (by decide) (by omega)
  obtain ⟨g', hg', hglow', hghigh'⟩ := hstep (f := g) 1000 (by decide) (by omega)
  rw [hg, hg']
  exact hmul (by omega)

/-! ### Signs -/

theorem negate_ofSign {code : ℕ} (h : code ≤ 2047 * 2 ^ 52) :
    (ofSign false code).negate = ofSign true code := by
  have hlt : code < 2 ^ 63 := by omega
  have hxor : code ^^^ 2 ^ 63 = code + 2 ^ 63 := by
    have hor := Nat.two_pow_add_eq_or_of_lt hlt 1
    rw [mul_one] at hor
    rw [add_comm code, hor]
    refine Nat.eq_of_testBit_eq fun i => ?_
    rw [Nat.testBit_xor, Nat.testBit_or, Nat.testBit_two_pow]
    by_cases hi : 63 = i
    · subst hi
      rw [Nat.testBit_lt_two_pow hlt]
      rfl
    · simp [hi]
  have hmask : UInt64.toNat 0x8000000000000000 = 2 ^ 63 := rfl
  have hfirst := toNat_bits_ofSign false h
  have hsecond := toNat_bits_ofSign true h
  refine congrArg Binary64.mk (UInt64.toNat_inj.mp ?_)
  rw [UInt64.toNat_xor, hmask, hfirst]
  refine Eq.trans ?_ hsecond.symm
  simpa using hxor

theorem negate_rounded (hu : 0 ≤ u) : (rounded false u).negate = rounded true u := by
  obtain ⟨s, m, h⟩ := exists_rounding hu
  rw [h.rounded_eq hu, h.rounded_eq hu]
  refine negate_ofSign ((min_le_right _ _).trans ?_)
  rw [maxShift_eq]

theorem negate_of_sign {u : ℚ} (hu : 0 ≤ u) (negative : Bool) :
    (if negative then (rounded false u).negate else rounded false u) = rounded negative u := by
  cases negative
  · rfl
  · exact negate_rounded hu

/-- A sign in front of a quotient. -/
theorem div_signed (a b : Bool) (p r : ℚ) : signed a p / signed b r = signed (a != b) (p / r) := by
  cases a <;> cases b <;> simp [signed, neg_div, div_neg]

end Binary64

end ObjectMachine
