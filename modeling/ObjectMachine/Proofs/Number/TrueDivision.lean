import Mathlib
import ObjectMachine.Proofs.Number.Significands

/-! True division of integers.

Beyond the integers that doubles hold exactly, the integer quotient is taken to 55 or 56 binary digits,
rounded to 53 and scaled.  Two fixnums are rounded before they are divided.  So the result is the double
nearest to the exact quotient, except for fixnums that are no doubles and for subnormal results. -/

namespace ObjectMachine

namespace Integer

open Binary64

variable {a b : ℤ} {m n d s num den : ℕ}

/-! ### Integers as doubles -/

theorem ofInt_fields (a : ℤ) : (ofInt a).signBit = decide (a < 0) ∧
    ((ofInt a).isFinite = true → (ofInt a).magnitude = 0 → a = 0) := by
  obtain ⟨hzero, hsign, -⟩ := Binary64.ofInt_fields a
  refine ⟨Bool.eq_iff_iff.mpr (by rw [hsign, decide_eq_true_iff]), fun hfinite hmag => hzero.mp ?_⟩
  rw [isZero, hfinite, hmag]
  rfl

/-- An integer of 53 digits is a double. -/
theorem ofInt_exact (h : a.natAbs ≤ 2 ^ 53) :
    (ofInt a).isFinite = true ∧ (ofInt a).magnitude = a.natAbs * unitsPerOne := by
  obtain ⟨j, hunits, hj⟩ : ∃ j, unitsPerOne = 2 ^ j ∧ j < maxShift :=
    ⟨1074, unitsPerOne_eq, by rw [maxShift_eq]; decide⟩
  have hlt : a.natAbs * 2 ^ j < 2 ^ 53 * 2 ^ maxShift :=
    (Nat.mul_le_mul_right _ h).trans_lt
      (Nat.mul_lt_mul_of_pos_left (Nat.pow_lt_pow_right one_lt_two hj) (by decide))
  obtain ⟨hfinite, -, hmag⟩ := rounded_exact h hlt (decide (a < 0))
  rw [ofInt_eq_rounded, hunits, Nat.cast_pow, Nat.cast_ofNat]
  exact ⟨hfinite, hmag⟩

/-- An integer that is a double below `2⁵³` is below `2⁵³`. -/
theorem natAbs_lt_of_magnitude_lt (hfinite : (ofInt a).isFinite = true)
    (h : (ofInt a).magnitude < unitsPerOne <<< 53) : a.natAbs < 2 ^ 53 := by
  by_contra hge
  rw [not_lt] at hge
  have hu : (0 : ℚ) ≤ a.natAbs * unitsPerOne := mul_nonneg (Nat.cast_nonneg _) (Nat.cast_nonneg _)
  obtain ⟨j, hunits⟩ : ∃ j, unitsPerOne = 2 ^ j := ⟨1074, unitsPerOne_eq⟩
  obtain ⟨s, m, hround⟩ := exists_rounding hu
  have hs : j < s := by
    have hlow : (2 : ℚ) ^ (53 + j) ≤ a.natAbs * unitsPerOne := by
      rw [pow_add, hunits, Nat.cast_pow, Nat.cast_ofNat]
      exact mul_le_mul_of_nonneg_right (by exact_mod_cast hge) (pow_nonneg zero_le_two _)
    have hlt := (pow_lt_pow_iff_right₀ one_lt_two).mp (hlow.trans_lt hround.high)
    omega
  have hm := hround.ge (by omega)
  rw [ofInt_eq_rounded] at h hfinite
  by_cases hfit : m * 2 ^ s < 2 ^ 53 * 2 ^ maxShift
  · have hle : unitsPerOne <<< 53 ≤ m * 2 ^ s :=
      calc unitsPerOne <<< 53 = 2 ^ 52 * 2 ^ (j + 1) := by
            have hexp : j + 53 = 52 + (j + 1) := by omega
            rw [Nat.shiftLeft_eq, hunits, ← pow_add, ← pow_add, hexp]
        _ ≤ m * 2 ^ s := Nat.mul_le_mul hm (Nat.pow_le_pow_right two_pos hs)
    rw [(hround.finite hu hfit _).2.2.1] at h
    exact absurd h (not_lt.mpr hle)
  · rw [hround.infinite hu (not_lt.mp hfit)] at hfinite
    generalize decide (a < 0) = negative at hfinite
    cases negative <;> exact absurd hfinite (by decide)

/-- The double of a natural number is its significand. -/
theorem amounts_ofInt (h : Rounding (n : ℕ) s m) (hs : s ≠ 0) (hs' : s ≤ 3) :
    Amounts (ofInt n) (m * 2 ^ (s + 1074)) := by
  have hcast : (((n : ℕ) : ℤ).natAbs : ℚ) = (n : ℕ) := by rw [Int.natAbs_natCast]
  have hsign : decide (((n : ℕ) : ℤ) < 0) = false := decide_eq_false (by omega)
  have hunits : (unitsPerOne : ℚ) = 2 ^ 1074 := by
    rw [unitsPerOne_eq, Nat.cast_pow, Nat.cast_ofNat]
  have hup : (0 : ℚ) < 2 ^ 1074 := pow_pos two_pos _
  have hwide : Rounding ((n : ℕ) * 2 ^ 1074) (s + 1074) m := by
    refine ⟨Or.inr ?_, ?_, ?_⟩
    · rw [← Nat.add_assoc, pow_add]
      exact mul_le_mul_of_nonneg_right (h.low.resolve_left hs) hup.le
    · rw [← Nat.add_assoc, pow_add]
      exact mul_lt_mul_of_pos_right h.high hup
    · rw [pow_add (2 : ℚ) s, mul_div_mul_right _ _ hup.ne']
      exact h.nearest
  have hlt : m * 2 ^ (s + 1074) < 2 ^ 53 * 2 ^ maxShift := by
    have hpow : 2 ^ (s + 1074) < 2 ^ maxShift :=
      Nat.pow_lt_pow_right (by decide) (by rw [maxShift_eq]; omega)
    exact (Nat.mul_le_mul_right _ h.le).trans_lt (Nat.mul_lt_mul_of_pos_left hpow (by decide))
  rw [ofInt_eq_rounded, hcast, hsign, hunits]
  obtain ⟨hfinite, hsign, hmag, -⟩ := hwide.finite (mul_nonneg (Nat.cast_nonneg _) hup.le) hlt false
  exact ⟨hfinite, hsign, hmag⟩

/-- The quotient has as many digits as the sticky quotient, and the same significand. -/
theorem significand_of_sticky (hden : 0 < den) (h : Rounding (sticky num den : ℕ) (s + 2) m) :
    Significand (num / den) m ((s + 2 : ℕ) : ℤ) := by
  have hpos : (0 : ℚ) < den := Nat.cast_pos.mpr hden
  -- the sticky quotient is the quotient, or the odd number beside it
  have hcases : sticky num den = num / den ∨ sticky num den = 2 * (num / den / 2) + 1 := by
    rw [sticky, or_one]
    split
    · exact Or.inl rfl
    · exact Or.inr rfl
  have hhigh : (num : ℚ) / den < (num / den + 1 : ℕ) := by
    rw [div_lt_iff₀ hpos]
    have hnext := Nat.lt_mul_div_succ num hden
    rw [mul_comm] at hnext
    exact_mod_cast hnext
  have hsplit : ∀ i : ℕ, (2 : ℚ) ^ i * 2 ^ ((s + 2 : ℕ) : ℤ) = (2 ^ (i + (s + 2)) : ℕ) := by
    intro i
    rw [zpow_natCast, ← pow_add, Nat.cast_pow, Nat.cast_ofNat]
  refine ⟨?_, ?_, ?_⟩
  · rw [hsplit]
    refine le_trans (Nat.cast_le.mpr ?_) Nat.cast_div_le
    have hge : 2 ^ (52 + (s + 2)) ≤ sticky num den := by
      have := h.low.resolve_left (by omega)
      exact_mod_cast this
    have heven : 2 ^ (52 + (s + 2)) = 2 * 2 ^ (53 + s) := by rw [← pow_succ']; congr 1; omega
    omega
  · rw [hsplit]
    refine lt_of_lt_of_le hhigh (Nat.cast_le.mpr ?_)
    have hlt : sticky num den < 2 ^ (53 + (s + 2)) := by exact_mod_cast h.high
    have heven : 2 ^ (53 + (s + 2)) = 2 * 2 ^ (54 + s) := by rw [← pow_succ']; congr 1; omega
    omega
  · rw [zpow_natCast]
    exact RoundsTo.of_sticky hden h.nearest

/-- The integer quotient of 55 or 56 digits is rounded to 53 as the exact quotient is, and scaling it
gives the double nearest to that. -/
theorem exists_digits {v : ℚ} {e : ℤ} (hratio : (num : ℚ) / den = v * 2 ^ e) (hden : 0 < den)
    (hlow : 2 ^ 54 ≤ num / den) (hhigh : num / den < 2 ^ 56) :
    ∃ m k, Significand v m k ∧
      (ofInt (sticky num den)).scale (-e) = rounded false (m * 2 ^ k * unitsPerOne) := by
  have htwo : (2 : ℚ) ≠ 0 := two_ne_zero
  obtain ⟨s', m, hround⟩ := exists_rounding (u := (sticky num den : ℕ)) (Nat.cast_nonneg _)
  have hs : 2 ≤ s' ∧ s' ≤ 3 := by
    have hsticky : num / den / 2 * 2 ≤ sticky num den ∧ sticky num den ≤ num / den / 2 * 2 + 1 := by
      rw [sticky, or_one]
      split <;> omega
    have hlt : sticky num den < 2 ^ (53 + s') := by exact_mod_cast hround.high
    have h1 : 54 < 53 + s' := (Nat.pow_lt_pow_iff_right one_lt_two).mp (by omega)
    have hge : 2 ^ (52 + s') ≤ sticky num den := by
      have := hround.low.resolve_left (by omega)
      exact_mod_cast this
    have h2 : 52 + s' < 56 := (Nat.pow_lt_pow_iff_right one_lt_two).mp (by omega)
    omega
  obtain ⟨s, rfl⟩ : ∃ s, s' = s + 2 := ⟨s' - 2, by omega⟩
  obtain ⟨hdlow, hdhigh, hdnear⟩ := significand_of_sticky hden hround
  rw [hratio] at hdlow hdhigh hdnear
  have hpow : (2 : ℚ) ^ (((s + 2 : ℕ) : ℤ) - e) = 2 ^ ((s + 2 : ℕ) : ℤ) / 2 ^ e := zpow_sub₀ htwo _ _
  have he : (0 : ℚ) < 2 ^ e := zpow_pos two_pos e
  refine ⟨m, ((s + 2 : ℕ) : ℤ) - e, ⟨?_, ?_, ?_⟩, ?_⟩
  · rwa [hpow, mul_div_assoc', div_le_iff₀ he]
  · rwa [hpow, mul_div_assoc', lt_div_iff₀ he]
  · rwa [hpow, div_div_eq_mul_div]
  · rw [(amounts_ofInt hround (by omega) hs.2).scale (hround.ge (by omega)) hround.le (by omega) (by omega),
      unitsPerOne_cast, zpow_sub₀ htwo, zpow_neg, pow_add, zpow_natCast]
    have hword : (2 : ℚ) ^ 1074 = 2 ^ (1074 : ℤ) := (zpow_natCast 2 1074).symm
    rw [hword]
    congr 1
    ring

theorem natAbs_eq_signed (a : ℤ) : (a : ℚ) = signed (a < 0) a.natAbs := by
  rw [signed, Nat.cast_natAbs]
  split
  · rename_i h
    rw [decide_eq_true_iff] at h
    rw [abs_of_neg h, Int.cast_neg, neg_neg]
  · rename_i h
    rw [decide_eq_true_iff, not_lt] at h
    rw [abs_of_nonneg h]

theorem quotient_eq_signed (a b : ℤ) :
    (a / b : ℚ) = signed ((a < 0 : Bool) != (b < 0 : Bool)) (a.natAbs / b.natAbs) :=
  (congrArg₂ (· / ·) (natAbs_eq_signed a) (natAbs_eq_signed b)).trans (div_signed _ _ _ _)

/-- Moved by the difference of the lengths, the quotient has 55 or 56 binary digits. -/
theorem aligned_bounds (ha : a ≠ 0) (hb : b ≠ 0) :
    2 ^ 54 < (a.natAbs / b.natAbs : ℚ) * 2 ^ ((bits b : ℤ) - bits a + 55) ∧
      (a.natAbs / b.natAbs : ℚ) * 2 ^ ((bits b : ℤ) - bits a + 55) < 2 ^ 56 := by
  have htwo : (2 : ℚ) ≠ 0 := two_ne_zero
  have hbounds : ∀ {c : ℤ}, c ≠ 0 → (2 : ℚ) ^ ((bits c : ℤ) - 1) ≤ c.natAbs ∧ (c.natAbs : ℚ) < 2 ^ (bits c : ℤ) := by
    intro c hc
    have hne : c.natAbs ≠ 0 := Int.natAbs_ne_zero.mpr hc
    have hpos : 1 ≤ bits c := by rw [bits, bitLength, if_neg hne]; omega
    have hexp : ((bits c - 1 : ℕ) : ℤ) = (bits c : ℤ) - 1 := by omega
    constructor
    · rw [← hexp, zpow_natCast]
      exact_mod_cast two_pow_bitLength_le hne
    · rw [zpow_natCast]
      exact_mod_cast lt_two_pow_bitLength c.natAbs
  obtain ⟨halow, hahigh⟩ := hbounds ha
  obtain ⟨hblow, hbhigh⟩ := hbounds hb
  have hbpos : (0 : ℚ) < b.natAbs := lt_of_lt_of_le (zpow_pos two_pos _) hblow
  rw [div_mul_eq_mul_div, lt_div_iff₀ hbpos, div_lt_iff₀ hbpos]
  generalize (bits a : ℤ) = p at *
  generalize (bits b : ℤ) = r at *
  have hpow : ∀ i : ℤ, (0 : ℚ) < 2 ^ i := fun i => zpow_pos two_pos i
  constructor
  · calc (2 : ℚ) ^ 54 * b.natAbs < 2 ^ 54 * 2 ^ r := mul_lt_mul_of_pos_left hbhigh (by norm_num)
      _ = 2 ^ (p - 1) * 2 ^ (r - p + 55) := by
        rw [← zpow_natCast, ← zpow_add₀ htwo, ← zpow_add₀ htwo]
        congr 1
        push_cast
        ring
      _ ≤ a.natAbs * 2 ^ (r - p + 55) := mul_le_mul_of_nonneg_right halow (hpow _).le
  · calc (a.natAbs : ℚ) * 2 ^ (r - p + 55) < 2 ^ p * 2 ^ (r - p + 55) :=
          mul_lt_mul_of_pos_right hahigh (hpow _)
      _ = 2 ^ 56 * 2 ^ (r - 1) := by
        rw [← zpow_natCast, ← zpow_add₀ htwo, ← zpow_add₀ htwo]
        congr 1
        push_cast
        ring
      _ ≤ 2 ^ 56 * b.natAbs := mul_le_mul_of_nonneg_left hblow (by norm_num)

/-- A quotient of at least `2⁻⁶²` is far from the subnormal numbers. -/
theorem normal_of_le {c d : ℕ} (hc : 0 < c) (hd : 0 < d) (hle : d ≤ 2 ^ 62) :
    (2 : ℚ) ^ (-1022 : ℤ) ≤ c / d := by
  have hdq : (0 : ℚ) < d := Nat.cast_pos.mpr hd
  have hone : ((1 : ℕ) : ℚ) ≤ c := Nat.cast_le.mpr hc
  have hbound : (d : ℚ) ≤ (2 ^ 62 : ℕ) := Nat.cast_le.mpr hle
  rw [le_div_iff₀ hdq]
  calc (2 : ℚ) ^ (-1022 : ℤ) * d ≤ 2 ^ (-62 : ℤ) * (2 ^ 62 : ℕ) :=
        mul_le_mul (zpow_le_zpow_right₀ one_le_two (by decide)) hbound hdq.le (zpow_pos two_pos _).le
    _ = ((1 : ℕ) : ℚ) := by norm_num
    _ ≤ c := hone

/-- Shifting the one number or the other scales their quotient. -/
theorem shifted_quotient {c d : ℕ} (hd : 0 < d) (e : ℤ) :
    0 < (if 0 ≤ e then d else d <<< (-e).toNat) ∧
      ((if 0 ≤ e then c <<< e.toNat else c : ℕ) : ℚ) / (if 0 ≤ e then d else d <<< (-e).toNat : ℕ) =
        c / d * 2 ^ e := by
  split
  · rename_i hnonneg
    obtain ⟨i, rfl⟩ := Int.eq_ofNat_of_zero_le hnonneg
    refine ⟨hd, ?_⟩
    rw [Int.toNat_natCast, Nat.shiftLeft_eq, Nat.cast_mul, Nat.cast_pow, Nat.cast_ofNat,
      zpow_natCast, mul_div_right_comm]
  · rename_i hneg
    obtain ⟨i, hi⟩ := Int.eq_ofNat_of_zero_le (by omega : 0 ≤ -e)
    obtain rfl : e = -(i : ℤ) := by omega
    refine ⟨?_, ?_⟩
    · rw [Nat.shiftLeft_eq]
      positivity
    · rw [neg_neg, Int.toNat_natCast, Nat.shiftLeft_eq, Nat.cast_mul, Nat.cast_pow,
        Nat.cast_ofNat, zpow_neg, zpow_natCast, ← div_div, div_eq_mul_inv _ ((2 : ℚ) ^ i)]

/-- The quotient is rounded to 53 digits, and then to a double. -/
theorem exists_trueDivide (ha : a ≠ 0) (hb : b ≠ 0) :
    ∃ m k, Significand (a.natAbs / b.natAbs) m k ∧
      trueDivide a b = rounded ((a < 0 : Bool) != (b < 0 : Bool)) (m * 2 ^ k * unitsPerOne) := by
  have hapos : 0 < a.natAbs := Int.natAbs_pos.mpr ha
  have hbpos : 0 < b.natAbs := Int.natAbs_pos.mpr hb
  have haq : (0 : ℚ) < a.natAbs := Nat.cast_pos.mpr hapos
  have hbq : (0 : ℚ) < b.natAbs := Nat.cast_pos.mpr hbpos
  unfold trueDivide
  dsimp only
  split
  · rename_i hsmall
    simp only [Bool.and_eq_true, decide_eq_true_iff] at hsmall
    obtain ⟨⟨⟨hxfin, hyfin⟩, hxmag⟩, hymag⟩ := hsmall
    have halt := natAbs_lt_of_magnitude_lt hxfin hxmag
    have hblt := natAbs_lt_of_magnitude_lt hyfin hymag
    obtain ⟨m, k, h⟩ := exists_significand (div_pos haq hbq)
    refine ⟨m, k, h, ?_⟩
    have hnormal := normal_of_le hapos hbpos (hblt.le.trans (by norm_num))
    have hunit : (unitsPerOne : ℚ) ≠ 0 := Nat.cast_ne_zero.mpr unitsPerOne_pos.ne'
    obtain ⟨hxsign, -⟩ := ofInt_fields a
    obtain ⟨hysign, hyzero⟩ := ofInt_fields b
    rw [div_eq_rounded hxfin hyfin fun hzero => hb (hyzero hyfin hzero), hxsign, hysign,
      (ofInt_exact halt.le).2, (ofInt_exact hblt.le).2, Nat.cast_mul, Nat.cast_mul,
      mul_div_mul_right _ _ hunit, h.rounded_eq hnormal]
  · generalize he : (bits b : ℤ) - bits a + 55 = e
    obtain ⟨hlow, hhigh⟩ := aligned_bounds ha hb
    rw [he] at hlow hhigh
    obtain ⟨hdenpos, hquotient⟩ := shifted_quotient (c := a.natAbs) hbpos e
    generalize (if 0 ≤ e then a.natAbs <<< e.toNat else a.natAbs) = num at hquotient ⊢
    generalize (if 0 ≤ e then b.natAbs else b.natAbs <<< (-e).toNat) = den at hdenpos hquotient ⊢
    rw [← hquotient] at hlow hhigh
    have hdenq : (0 : ℚ) < den := Nat.cast_pos.mpr hdenpos
    rw [lt_div_iff₀ hdenq] at hlow
    rw [div_lt_iff₀ hdenq] at hhigh
    obtain ⟨m, k, h, hscale⟩ := exists_digits hquotient hdenpos
      ((Nat.le_div_iff_mul_le hdenpos).mpr (by exact_mod_cast hlow.le))
      ((Nat.div_lt_iff_lt_mul hdenpos).mpr (by exact_mod_cast hhigh))
    refine ⟨m, k, h, ?_⟩
    have hscale' : (ofInt ↑(if num % den = 0 then num / den else num / den ||| 1)).scale (-e) =
        rounded false (m * 2 ^ k * unitsPerOne) := hscale
    rw [hscale']
    exact negate_of_sign (mul_nonneg (mul_nonneg m.cast_nonneg (zpow_pos two_pos k).le) (Nat.cast_nonneg _)) _

theorem trueDivide_zero (hb : b ≠ 0) : trueDivide 0 b = zero (b < 0) := by
  have hxzero : ofInt 0 = zero false := by
    rw [ofInt_eq_rounded, Int.natAbs_zero, Nat.cast_zero, zero_mul]
    exact rounded_eq_zero le_rfl (by norm_num) _
  have hxfields : (zero false).isFinite = true ∧ (zero false).magnitude = 0 ∧ (zero false).signBit = false := by
    decide
  unfold trueDivide
  dsimp only
  split
  · rename_i hsmall
    simp only [Bool.and_eq_true, decide_eq_true_iff] at hsmall
    obtain ⟨hysign, hyzero⟩ := ofInt_fields b
    have hyfin := hsmall.1.1.2
    rw [div_eq_rounded hsmall.1.1.1 hyfin fun hzero => hb (hyzero hyfin hzero), hysign, hxzero, hxfields.2.1,
      hxfields.2.2, Nat.cast_zero, zero_div, zero_mul, Bool.false_bne]
    exact rounded_eq_zero le_rfl (by norm_num) _
  · simp only [Int.natAbs_zero, Nat.zero_shiftLeft, ite_self, Nat.zero_mod, if_true, Nat.zero_div, Nat.cast_zero]
    rw [hxzero, scale_zero]
    have hsplit := negate_of_sign (le_refl (0 : ℚ)) (b < 0)
    rw [rounded_eq_zero le_rfl (by norm_num), rounded_eq_zero le_rfl (by norm_num)] at hsplit
    simpa using hsplit

/-- The quotient of the sizes, with its sign. -/
theorem abs_quotient (a b : ℤ) : |(a / b : ℚ)| = a.natAbs / b.natAbs := by
  rw [quotient_eq_signed]
  exact abs_signed _ (div_nonneg (Nat.cast_nonneg _) (Nat.cast_nonneg _))

theorem sign_of_quotient (ha : a ≠ 0) (hb : b ≠ 0) :
    decide ((a / b : ℚ) < 0) = ((a < 0 : Bool) != (b < 0 : Bool)) := by
  have hpos : (0 : ℚ) < a.natAbs / b.natAbs :=
    div_pos (Nat.cast_pos.mpr (Int.natAbs_pos.mpr ha)) (Nat.cast_pos.mpr (Int.natAbs_pos.mpr hb))
  rw [quotient_eq_signed, signed]
  cases (a < 0 : Bool) != (b < 0 : Bool)
  · exact decide_eq_false (not_lt.mpr hpos.le)
  · exact decide_eq_true (neg_lt_zero.mpr hpos)

theorem exists_digits53 (a : ℤ) (hb : b ≠ 0) : ∃ p, Digits53 (a / b) p ∧
    p = signed ((a < 0 : Bool) != (b < 0 : Bool)) |p| ∧
    trueDivide a b = rounded ((a < 0 : Bool) != (b < 0 : Bool)) (|p| * unitsPerOne) := by
  by_cases ha : a = 0
  · subst ha
    refine ⟨0, Or.inl ⟨by rw [Int.cast_zero, zero_div], rfl⟩, ?_, ?_⟩
    · rw [abs_zero, signed_zero]
    · rw [trueDivide_zero hb, abs_zero, zero_mul, rounded_eq_zero le_rfl (by norm_num)]
      simp
  · obtain ⟨m, k, h, heq⟩ := exists_trueDivide ha hb
    have hp : (0 : ℚ) ≤ m * 2 ^ k := mul_nonneg m.cast_nonneg (zpow_pos two_pos k).le
    refine ⟨signed ((a < 0 : Bool) != (b < 0 : Bool)) (m * 2 ^ k), Or.inr ⟨m, k, ?_, ?_⟩, ?_, ?_⟩
    · rwa [abs_quotient]
    · rw [sign_of_quotient ha hb]
    · rw [abs_signed _ hp]
    · rw [abs_signed _ hp, heq]

/-- Apart from subnormal results, nothing is lost by rounding twice. -/
theorem trueDivide_normal (hb : b ≠ 0) (h : a = 0 ∨ 2 ^ (-1022 : ℤ) ≤ |(a / b : ℚ)|) :
    trueDivide a b = rounded ((a < 0 : Bool) != (b < 0 : Bool)) (|(a / b : ℚ)| * unitsPerOne) := by
  by_cases ha : a = 0
  · subst ha
    rw [trueDivide_zero hb, Int.cast_zero, zero_div, abs_zero, zero_mul, rounded_eq_zero le_rfl (by norm_num)]
    simp
  · have hnormal := h.resolve_left ha
    obtain ⟨m, k, hdigits, heq⟩ := exists_trueDivide ha hb
    rw [abs_quotient] at hnormal ⊢
    rw [heq, hdigits.rounded_eq hnormal]

/-! ### Converted operands -/

theorem nearest_ofInt (a : ℤ) : Nearest a (ofInt a) := by
  have hunit : (unitsPerOne : ℚ) ≠ 0 := Nat.cast_ne_zero.mpr unitsPerOne_pos.ne'
  have h := nearest_rounded (a < 0) (mul_nonneg (Nat.cast_nonneg a.natAbs) (Nat.cast_nonneg unitsPerOne))
  rwa [mul_div_cancel_right₀ _ hunit, ← natAbs_eq_signed, ← ofInt_eq_rounded] at h

theorem toRat_ofInt (h : a.natAbs ≤ 2 ^ 53) : (ofInt a).toRat = a := by
  have hunit : (unitsPerOne : ℚ) ≠ 0 := Nat.cast_ne_zero.mpr unitsPerOne_pos.ne'
  rw [toRat_eq_signed, (ofInt_exact h).2, (ofInt_fields a).1, Nat.cast_mul, mul_div_cancel_right₀ _ hunit,
    ← natAbs_eq_signed]

/-- A fixnum becomes a finite double of at most twice its size, and one that is not zero keeps at least
the size of one. -/
theorem ofInt_fixnum (h : -2 ^ 62 ≤ a ∧ a < 2 ^ 62) : (ofInt a).isFinite = true ∧
    |(ofInt a).toRat| ≤ 2 ^ 63 ∧ (a ≠ 0 → 1 ≤ |(ofInt a).toRat|) := by
  have habs : |(a : ℚ)| ≤ 2 ^ 62 := by
    have hint : |a| ≤ 2 ^ 62 := abs_le.mpr ⟨h.1, h.2.le⟩
    exact_mod_cast hint
  obtain ⟨hfinite, hnear⟩ := (nearest_ofInt a).finite (lt_overflow (habs.trans (by norm_num)))
  refine ⟨hfinite, ?_, fun hne => ?_⟩
  · have hzero := (hnear (zero false) (by decide)).1
    have hvalue : (zero false).toRat = 0 := by
      rw [toRat_eq_signed, (by decide : (zero false).magnitude = 0), Nat.cast_zero, zero_div, signed_zero]
    rw [hvalue, sub_zero] at hzero
    calc |(ofInt a).toRat| = |a - (a - (ofInt a).toRat)| := by rw [sub_sub_cancel]
      _ ≤ |(a : ℚ)| + |a - (ofInt a).toRat| := abs_sub _ _
      _ ≤ 2 ^ 63 := by linarith
  · -- the sign of `a`, which is at least as near to zero, is a double itself
    have hsmall : a.sign.natAbs ≤ 2 ^ 53 := by
      rw [Int.natAbs_sign]
      split <;> decide
    have hone := (hnear _ (ofInt_exact hsmall).1).1
    rw [toRat_ofInt hsmall] at hone
    have hdist : |(a : ℚ) - a.sign| = |(a : ℚ)| - 1 := by
      rcases hne.lt_or_gt with hlt | hgt
      · have hle : (a : ℚ) ≤ -1 := by exact_mod_cast (by omega : a ≤ -1)
        rw [Int.sign_eq_neg_one_of_neg hlt, abs_of_nonpos (by push_cast; linarith), abs_of_neg (by linarith)]
        push_cast
        ring
      · have hge : (1 : ℚ) ≤ a := by exact_mod_cast (by omega : 1 ≤ a)
        rw [Int.sign_eq_one_of_pos hgt, abs_of_nonneg (by push_cast; linarith), abs_of_pos (by linarith)]
        push_cast
        ring
    have htriangle : |(a : ℚ)| ≤ |(ofInt a).toRat| + |a - (ofInt a).toRat| := by
      calc |(a : ℚ)| = |(ofInt a).toRat + (a - (ofInt a).toRat)| := by rw [add_sub_cancel]
        _ ≤ _ := abs_add_le _ _
    linarith

/-- The quotient of fixnums is far from the subnormal numbers. -/
theorem normal_of_fixnum (hb : -2 ^ 62 ≤ b ∧ b < 2 ^ 62) (hne : b ≠ 0) :
    a = 0 ∨ 2 ^ (-1022 : ℤ) ≤ |(a / b : ℚ)| := by
  refine or_iff_not_imp_left.mpr fun ha => ?_
  have hbpos : 0 < b.natAbs := Int.natAbs_pos.mpr hne
  rw [abs_quotient]
  exact normal_of_le (Int.natAbs_pos.mpr ha) hbpos (by omega)

/-- The quotient of two fixnums is the double nearest to the quotient of the doubles nearest to them. -/
theorem div_fixnums (ha : -2 ^ 62 ≤ a ∧ a < 2 ^ 62) (hb : -2 ^ 62 ≤ b ∧ b < 2 ^ 62) (hne : b ≠ 0) :
    Nearest ((ofInt a).toRat / (ofInt b).toRat) ((ofInt a).div (ofInt b)) ∧
      ((ofInt a).div (ofInt b)).isFinite = true ∧
      (ofInt a).div (ofInt b) = rounded ((a < 0 : Bool) != (b < 0 : Bool))
        (|(ofInt a).toRat / (ofInt b).toRat| * unitsPerOne) := by
  obtain ⟨hxfin, hxle, -⟩ := ofInt_fixnum ha
  obtain ⟨hyfin, -, hyge⟩ := ofInt_fixnum hb
  obtain ⟨hysign, hyzero⟩ := ofInt_fields b
  have hunit : (unitsPerOne : ℚ) ≠ 0 := Nat.cast_ne_zero.mpr unitsPerOne_pos.ne'
  have hquotient : (ofInt a).toRat / (ofInt b).toRat = signed ((a < 0 : Bool) != (b < 0 : Bool))
      ((ofInt a).magnitude / (ofInt b).magnitude) := by
    rw [toRat_eq_signed, toRat_eq_signed, div_signed, (ofInt_fields a).1, hysign,
      div_div_div_cancel_right₀ hunit]
  have habs : |(ofInt a).toRat / (ofInt b).toRat| = (ofInt a).magnitude / (ofInt b).magnitude := by
    rw [hquotient, abs_signed _ (div_nonneg (Nat.cast_nonneg _) (Nat.cast_nonneg _))]
  have hrounded : (ofInt a).div (ofInt b) = rounded ((a < 0 : Bool) != (b < 0 : Bool))
      (|(ofInt a).toRat / (ofInt b).toRat| * unitsPerOne) := by
    rw [div_eq_rounded hxfin hyfin fun hzero => hne (hyzero hyfin hzero), (ofInt_fields a).1, hysign, habs]
  have hnearest := nearest_of_eq_rounded (hquotient.trans (by rw [habs])) hrounded
  have hsmall : |(ofInt a).toRat / (ofInt b).toRat| ≤ 2 ^ 63 := by
    rw [abs_div]
    exact (div_le_self (abs_nonneg _) (hyge hne)).trans hxle
  exact ⟨hnearest, (hnearest.finite (lt_overflow hsmall)).1, hrounded⟩

end Integer

open Binary64 in
/-- True division of integers gives a double with the sign of the quotient.  Two fixnums are first
converted to the nearest doubles, and the result is the double nearest to the quotient of these; it is
finite, and it is the double nearest to `a / b` if the operands are doubles themselves.  Other operands
give the double nearest to their exact quotient rounded to 53 binary digits, infinity exactly if that is
beyond the greatest finite double; it is the one nearest to `a / b` itself unless the quotient is
subnormal. -/
theorem true_division_rounds_twice (x y : Number) (hx : x.InRange) (hy : y.InRange) (a b : ℤ)
    (ha : x.toInt? = some a) (hb : y.toInt? = some b) (hne : b ≠ 0) :
    ∃ z, Number.binary .div x y = .ok (.float z) ∧
      z.signBit = (decide (a < 0) != decide (b < 0)) ∧
      (x = .fixed a → y = .fixed b →
        Nearest a (ofInt a) ∧ Nearest b (ofInt b) ∧
        Nearest ((ofInt a).toRat / (ofInt b).toRat) z ∧ z.isFinite = true ∧
        ((ofInt a).toRat = a → (ofInt b).toRat = b →
          Nearest (a / b) z ∧ z = Integer.trueDivide a b)) ∧
      (¬ (x = .fixed a ∧ y = .fixed b) →
        z = Integer.trueDivide a b ∧
        (∃ p, Digits53 (a / b) p ∧ Nearest p z ∧ (z.isInfinite = true ↔ greatest < |p|)) ∧
        (a = 0 ∨ 2 ^ (-1022 : ℤ) ≤ |(a / b : ℚ)| → Nearest (a / b) z)) := by
  by_cases hfixed : x = .fixed a ∧ y = .fixed b
  · obtain ⟨rfl, rfl⟩ := hfixed
    have hbinary : Number.binary .div (.fixed a) (.fixed b) = .ok (.float ((ofInt a).div (ofInt b))) := by
      rw [Number.binary, Number.fixedBinary, Number.divides_guard fun _ => hne]
      rfl
    have hafits := hx a rfl
    have hbfits := hy b rfl
    obtain ⟨hnearest, hfinite, hrounded⟩ := Integer.div_fixnums hafits hbfits hne
    have hsign := signBit_rounded
      (mul_nonneg (abs_nonneg ((ofInt a).toRat / (ofInt b).toRat)) (Nat.cast_nonneg unitsPerOne))
      (decide (a < 0) != decide (b < 0))
    refine ⟨_, hbinary, hrounded ▸ hsign, fun _ _ => ⟨Integer.nearest_ofInt a, Integer.nearest_ofInt b,
      hnearest, hfinite, fun hatoRat hbtoRat => ?_⟩, fun hnot => absurd ⟨rfl, rfl⟩ hnot⟩
    rw [hatoRat, hbtoRat] at hnearest hrounded
    exact ⟨hnearest, hrounded.trans (Integer.trueDivide_normal hne (Integer.normal_of_fixnum hbfits hne)).symm⟩
  · have hbinary : Number.binary .div x y = .ok (.float (Integer.trueDivide a b)) := by
      have hbig : Number.bigBinary .div a b = .ok (.float (Integer.trueDivide a b)) :=
        Number.bigBinary_eq fun _ => hne
      cases x with
      | float z => cases ha
      | fixed n =>
        cases y with
        | float z => cases hb
        | fixed k =>
          obtain rfl := Option.some.inj ha
          obtain rfl := Option.some.inj hb
          exact absurd ⟨rfl, rfl⟩ hfixed
        | big k =>
          obtain rfl := Option.some.inj ha
          obtain rfl := Option.some.inj hb
          exact hbig
      | big n =>
        cases y with
        | float z => cases hb
        | fixed k =>
          obtain rfl := Option.some.inj ha
          obtain rfl := Option.some.inj hb
          exact hbig
        | big k =>
          obtain rfl := Option.some.inj ha
          obtain rfl := Option.some.inj hb
          exact hbig
    obtain ⟨p, hdigits, hp, heq⟩ := Integer.exists_digits53 a hne
    have hnearest := nearest_of_eq_rounded hp heq
    have hsign := signBit_rounded (mul_nonneg (abs_nonneg p) (Nat.cast_nonneg unitsPerOne))
      (decide (a < 0) != decide (b < 0))
    refine ⟨_, hbinary, heq ▸ hsign, fun h h' => absurd ⟨h, h'⟩ hfixed, fun _ => ⟨rfl, ⟨p, hdigits, hnearest, ?_⟩,
      fun hnormal => ?_⟩⟩
    · rw [← overflow_le_iff hdigits]
      exact hnearest.isInfinite_iff
    · refine nearest_of_eq_rounded ?_ (Integer.trueDivide_normal hne hnormal)
      rw [Integer.abs_quotient]
      exact Integer.quotient_eq_signed a b

open Binary64 in
/-- One third as fixnums, and two divided by the bignum `2⁶² + 1`, which is no double. -/
theorem true_division_rounds_twice_thirds :
    (∃ z, Number.binary .div (.fixed 1) (.fixed 3) = .ok (.float z) ∧ z.isFinite = true ∧
      Nearest ((1 : ℤ) / (3 : ℤ)) z) ∧
    ∃ z, Number.binary .div (.fixed 2) (.big (2 ^ 62 + 1)) = .ok (.float z) ∧
      Nearest ((2 : ℤ) / (2 ^ 62 + 1 : ℤ)) z := by
  have hrange : ∀ k : ℤ, -2 ^ 62 ≤ k ∧ k < 2 ^ 62 → (Number.fixed k).InRange := by
    intro k hk n hn
    rwa [← Number.fixed.inj hn]
  have hbig : (Number.big (2 ^ 62 + 1)).InRange := by
    intro n hn
    cases hn
  constructor
  · obtain ⟨z, hz, -, hfixed, -⟩ := true_division_rounds_twice (.fixed 1) (.fixed 3)
      (hrange 1 (by decide)) (hrange 3 (by decide)) 1 3 rfl rfl (by decide)
    obtain ⟨-, -, -, hfinite, hexact⟩ := hfixed rfl rfl
    exact ⟨z, hz, hfinite, (hexact (Integer.toRat_ofInt (by decide)) (Integer.toRat_ofInt (by decide))).1⟩
  · obtain ⟨z, hz, -, -, hbignum⟩ := true_division_rounds_twice (.fixed 2) (.big (2 ^ 62 + 1))
      (hrange 2 (by decide)) hbig 2 (2 ^ 62 + 1) rfl rfl (by decide)
    obtain ⟨-, -, hnearest⟩ := hbignum fun h => by cases h.2
    have hnormal : (2 : ℚ) ^ (-1022 : ℤ) ≤ |((2 : ℤ) / (2 ^ 62 + 1 : ℤ) : ℚ)| :=
      calc (2 : ℚ) ^ (-1022 : ℤ) ≤ 2 ^ (-63 : ℤ) := zpow_le_zpow_right₀ one_le_two (by decide)
        _ ≤ |((2 : ℤ) / (2 ^ 62 + 1 : ℤ) : ℚ)| := by norm_num [abs_of_pos]
    exact ⟨z, hz, hnearest (Or.inr hnormal)⟩

open Binary64 in
/-- Not the nearest double: the fixnum `2⁵³ + 1` is a multiple of three, but it is rounded to `2⁵³` before it
is divided, and the quotient just above half of the least double is rounded to half of it and then to
zero. -/
theorem true_division_misses_nearest :
    (∃ z, Number.binary .div (.fixed (2 ^ 53 + 1)) (.fixed 3) = .ok (.float z) ∧
      ¬ Nearest ((2 ^ 53 + 1 : ℤ) / (3 : ℤ)) z) ∧
    ∃ z, Number.binary .div (.fixed (2 ^ 60 + 1)) (.big (2 ^ 1135)) = .ok (.float z) ∧
      ¬ Nearest ((2 ^ 60 + 1 : ℤ) / (2 ^ 1135 : ℤ)) z := by
  constructor
  · refine ⟨⟨0x4325555555555555⟩, by decide +kernel, fun h => ?_⟩
    -- the quotient is a double itself
    have hquotient : ((2 ^ 53 + 1 : ℤ) / (3 : ℤ) : ℚ) = (ofInt 3002399751580331).toRat := by
      rw [Integer.toRat_ofInt (by decide)]
      norm_num
    rw [hquotient] at h
    have hlt : |(ofInt 3002399751580331).toRat| < overflow := by
      rw [Integer.toRat_ofInt (by decide)]
      exact lt_overflow (by norm_num)
    have hself := ((h.finite hlt).2 _ (by decide +kernel : (ofInt 3002399751580331).isFinite = true)).1
    rw [sub_self, abs_zero] at hself
    have hsame := sub_eq_zero.mp (abs_eq_zero.mp (le_antisymm hself (abs_nonneg _)))
    rw [toRat_eq_ofUnits, toRat_eq_ofUnits] at hsame
    exact absurd (strictMono_ofUnits.injective hsame) (by decide +kernel)
  · refine ⟨zero false, by decide +kernel, fun h => ?_⟩
    have hunit : (0 : ℚ) < unitsPerOne := Nat.cast_pos.mpr unitsPerOne_pos
    have hquotient : ((2 ^ 60 + 1 : ℤ) / (2 ^ 1135 : ℤ) : ℚ) = (1 / 2 + 1 / 2 ^ 61) / unitsPerOne := by
      have hhead : (1 / 2 + 1 / 2 ^ 61 : ℚ) = (2 ^ 60 + 1) / 2 ^ 61 := by norm_num
      have htail : (2 : ℚ) ^ 1135 = 2 ^ 61 * 2 ^ 1074 := pow_add 2 61 1074
      rw [hhead, div_div, unitsPerOne_eq, Nat.cast_pow, Nat.cast_ofNat, ← htail, Int.cast_add, Int.cast_pow,
        Int.cast_pow, Int.cast_one, Int.cast_ofNat]
    rw [hquotient] at h
    have hpos : 0 ≤ (1 / 2 + 1 / 2 ^ 61) / (unitsPerOne : ℚ) := div_nonneg (by norm_num) hunit.le
    have hsmall : |(1 / 2 + 1 / 2 ^ 61) / (unitsPerOne : ℚ)| < overflow := by
      rw [abs_of_nonneg hpos]
      refine lt_overflow ((div_le_self (by norm_num) ?_).trans (by norm_num))
      exact Nat.one_le_cast.mpr unitsPerOne_pos
    have hless := ((h.finite hsmall).2 ⟨1⟩ (by decide)).1
    have hleast : (⟨1⟩ : Binary64).toRat = 1 / unitsPerOne := by
      rw [toRat_eq_signed, (by decide : (⟨1⟩ : Binary64).magnitude = 1),
        (by decide : (⟨1⟩ : Binary64).signBit = false), Nat.cast_one]
      rfl
    rw [toRat_zero, sub_zero, hleast, ← sub_div, abs_div, abs_div, abs_of_pos hunit,
      div_le_div_iff_of_pos_right hunit] at hless
    norm_num [abs_of_pos, abs_of_neg] at hless

end ObjectMachine
