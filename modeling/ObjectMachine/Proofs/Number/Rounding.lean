import Mathlib
import ObjectMachine.Proofs.Number.Errors

/-! Rounding to the nearest double.

A quotient of units is cut down to 53 binary digits, a half going to the even significand.  The result
is nearest to the quotient among all finite doubles, since those of its size are the multiples of the
last digit kept, and those below are farther away.  The code of exponent and significand is a sum, into
which a carry fits by itself; it ends at infinity, which stands for everything from half a unit beyond
the greatest finite double on. -/

namespace ObjectMachine.Binary64

variable {q u : ℚ} {m n s num den : ℕ} {negative : Bool}

/-! ### Rounding to an integer -/

/-- `n` is nearest to `q` among the natural numbers, and even if another one is as near. -/
def RoundsTo (q : ℚ) (n : ℕ) : Prop := |q - n| ≤ 1 / 2 ∧ (|q - n| = 1 / 2 → Even n)

theorem RoundsTo.bounds (h : RoundsTo q n) : q - 1 / 2 ≤ n ∧ (n : ℚ) ≤ q + 1 / 2 := by
  have := abs_le.mp h.1
  constructor <;> linarith

theorem RoundsTo.le_of_le {k : ℕ} (h : RoundsTo q n) (hq : q ≤ k) : n ≤ k := by
  have hn := h.bounds.2
  have hlt : (n : ℚ) < (k + 1 : ℕ) := by
    push_cast
    linarith
  exact Nat.lt_succ_iff.mp (Nat.cast_lt.mp hlt)

theorem RoundsTo.ge_of_ge {k : ℕ} (h : RoundsTo q n) (hq : k ≤ q) : k ≤ n := by
  have hn := h.bounds.1
  have hlt : (k : ℚ) < (n + 1 : ℕ) := by
    push_cast
    linarith
  exact Nat.lt_succ_iff.mp (Nat.cast_lt.mp hlt)

theorem roundsTo_self (n : ℕ) : RoundsTo n n := by
  refine ⟨by simp, fun h => ?_⟩
  simp at h

/-- Different integers are at least one apart. -/
theorem one_le_abs_sub {k : ℕ} (h : k ≠ n) : (1 : ℚ) ≤ |(k : ℚ) - n| := by
  have hint : (1 : ℤ) ≤ |(k : ℤ) - n| := Int.one_le_abs (by omega)
  exact_mod_cast hint

theorem RoundsTo.near (h : RoundsTo q n) (k : ℕ) :
    |q - n| ≤ |q - k| ∧ (|q - n| = |q - k| → k = n ∨ Even n) := by
  by_cases hk : k = n
  · subst hk
    exact ⟨le_rfl, fun _ => Or.inl rfl⟩
  · have hapart := one_le_abs_sub hk
    have htriangle : |(k : ℚ) - n| ≤ |q - n| + |q - k| := by
      have hsplit : (k : ℚ) - n = (q - n) - (q - k) := by ring
      rw [hsplit]
      exact abs_sub (q - n) (q - k)
    have hhalf := h.1
    refine ⟨by linarith, fun heq => Or.inr (h.2 ?_)⟩
    linarith

theorem RoundsTo.unique (h : RoundsTo q m) (h' : RoundsTo q n) : m = n := by
  by_contra hne
  obtain ⟨hle, htie⟩ := h.near n
  obtain ⟨hle', htie'⟩ := h'.near m
  have heq := le_antisymm hle hle'
  have heven := (htie heq).resolve_left (Ne.symm hne)
  have heven' := (htie' heq.symm).resolve_left hne
  -- both are a half away, so they are neighbours
  obtain ⟨hlo, hhi⟩ := h.bounds
  obtain ⟨hlo', hhi'⟩ := h'.bounds
  have hmn : (m : ℚ) ≤ n + 1 := by linarith
  have hnm : (n : ℚ) ≤ m + 1 := by linarith
  norm_cast at hmn hnm
  obtain ⟨i, hi⟩ := heven
  obtain ⟨j, hj⟩ := heven'
  omega

/-- The division of natural numbers, rounded. -/
theorem roundsTo_nearestEven (num : ℕ) (hden : 0 < den) : RoundsTo (num / den) (nearestEven num den) := by
  have hpos : (0 : ℚ) < den := by exact_mod_cast hden
  have hrem : num % den < den := Nat.mod_lt _ hden
  have hsplit : (num : ℚ) / den = (num / den : ℕ) + (num % den : ℕ) / (den : ℚ) := by
    have hdiv : (num : ℚ) = den * (num / den : ℕ) + (num % den : ℕ) := by
      exact_mod_cast (Nat.div_add_mod num den).symm
    field_simp
    linarith
  have hnonneg : (0 : ℚ) ≤ (num % den : ℕ) / (den : ℚ) := by positivity
  rw [hsplit, nearestEven]
  split
  · rename_i hlt
    have hhalf : ((num % den : ℕ) : ℚ) / den < 1 / 2 := by
      rw [div_lt_iff₀ hpos]
      have hcast : (2 * (num % den : ℕ) : ℚ) < den := by exact_mod_cast hlt
      linarith
    rw [RoundsTo, add_sub_cancel_left, abs_of_nonneg hnonneg]
    exact ⟨hhalf.le, fun h => absurd h hhalf.ne⟩
  · split
    · rename_i hgt
      have hhalf : 1 / 2 < ((num % den : ℕ) : ℚ) / den := by
        rw [lt_div_iff₀ hpos]
        have hcast : (den : ℚ) < 2 * (num % den : ℕ) := by exact_mod_cast hgt
        linarith
      have hone : ((num % den : ℕ) : ℚ) / den < 1 := by
        rw [div_lt_one hpos]
        exact_mod_cast hrem
      have hdist : |((num / den : ℕ) : ℚ) + (num % den : ℕ) / den - (num / den + 1 : ℕ)| =
          1 - (num % den : ℕ) / den := by
        rw [abs_of_nonpos (by push_cast; linarith)]
        push_cast
        ring
      rw [RoundsTo, hdist]
      exact ⟨by linarith, fun h => by linarith⟩
    · rename_i hlt hgt
      have hhalf : ((num % den : ℕ) : ℚ) / den = 1 / 2 := by
        rw [div_eq_div_iff hpos.ne' two_ne_zero]
        have : 2 * (num % den) = den := by omega
        have hcast : (2 * (num % den : ℕ) : ℚ) = den := by exact_mod_cast this
        linarith
      rw [RoundsTo, hhalf]
      rcases Nat.mod_two_eq_zero_or_one (num / den) with hmod | hmod
      · rw [hmod, Nat.add_zero, add_sub_cancel_left]
        exact ⟨(abs_of_nonneg (by norm_num)).le, fun _ => Nat.even_iff.mpr hmod⟩
      · have hdist : |((num / den : ℕ) : ℚ) + 1 / 2 - (num / den + 1 : ℕ)| = 1 / 2 := by
          rw [abs_of_nonpos (by push_cast; linarith)]
          push_cast
          ring
        rw [hmod, hdist]
        exact ⟨le_rfl, fun _ => Nat.even_iff.mpr (by omega)⟩

/-! ### Binary digits -/

theorem lt_two_pow_bitLength (n : ℕ) : n < 2 ^ bitLength n := by
  unfold bitLength
  split
  · omega
  · exact Nat.lt_log2_self

theorem two_pow_bitLength_le (h : n ≠ 0) : 2 ^ (bitLength n - 1) ≤ n := by
  rw [bitLength, if_neg h, Nat.add_sub_cancel]
  exact Nat.log2_self_le h

/-! ### Significands -/

/-- Rounding `u` units drops `s` binary digits and leaves the significand `m`, which has at most 53
of them, apart from a carry. -/
structure Rounding (u : ℚ) (s m : ℕ) : Prop where
  low : s = 0 ∨ 2 ^ (52 + s) ≤ u
  high : u < 2 ^ (53 + s)
  nearest : RoundsTo (u / 2 ^ s) m

namespace Rounding

theorem le (h : Rounding u s m) : m ≤ 2 ^ 53 := by
  refine h.nearest.le_of_le ?_
  rw [div_le_iff₀ (by positivity), Nat.cast_pow, Nat.cast_ofNat, ← pow_add]
  exact h.high.le

theorem ge (h : Rounding u s m) (hs : s ≠ 0) : 2 ^ 52 ≤ m := by
  refine h.nearest.ge_of_ge ?_
  rw [le_div_iff₀ (by positivity), Nat.cast_pow, Nat.cast_ofNat, ← pow_add]
  exact h.low.resolve_left hs

/-- How many digits are dropped, and what is left, is determined. -/
theorem unique {s' m' : ℕ} (h : Rounding u s m) (h' : Rounding u s' m') : s = s' ∧ m = m' := by
  have hless : ∀ {i j k l : ℕ}, Rounding u i k → Rounding u j l → ¬ i < j := by
    intro i j k l hi hj hij
    have hlow := hj.low.resolve_left (by omega)
    have hpow : (2 : ℚ) ^ (53 + i) ≤ 2 ^ (52 + j) := pow_le_pow_right₀ one_le_two (by omega)
    linarith [hi.high]
  have hs : s = s' := le_antisymm (not_lt.mp (hless h' h)) (not_lt.mp (hless h h'))
  subst hs
  exact ⟨rfl, h.nearest.unique h'.nearest⟩

/-- Nothing is lost of a number of at most 53 digits. -/
theorem exact {c j : ℕ} (h : Rounding (c * 2 ^ j) s m) (hc : c ≤ 2 ^ 53) : m * 2 ^ s = c * 2 ^ j := by
  have hwhole : ∀ k : ℕ, (c * 2 ^ j : ℚ) / 2 ^ s = k → m * 2 ^ s = c * 2 ^ j := by
    intro k hk
    have hm : m = k := (hk ▸ h.nearest).unique (roundsTo_self k)
    have hcast : ((m * 2 ^ s : ℕ) : ℚ) = (c * 2 ^ j : ℕ) := by
      rw [hm]
      push_cast
      rw [← hk, div_mul_cancel₀ _ (by positivity)]
    exact_mod_cast hcast
  by_cases hsj : s ≤ j
  · refine hwhole (c * 2 ^ (j - s)) ?_
    have hsplit : (2 : ℚ) ^ j = 2 ^ (j - s) * 2 ^ s := by rw [← pow_add, Nat.sub_add_cancel hsj]
    rw [hsplit, ← mul_assoc, mul_div_cancel_right₀ _ (by positivity)]
    push_cast
    rfl
  · -- only a carry has more digits than places
    have hlow := h.low.resolve_left (by omega)
    have hcast : 2 ^ (52 + s) ≤ c * 2 ^ j := by exact_mod_cast hlow
    have hle : c * 2 ^ j ≤ 2 ^ (53 + j) := by
      rw [pow_add]
      exact Nat.mul_le_mul_right _ hc
    have hs : s = j + 1 := by
      have := (Nat.pow_le_pow_iff_right (by decide)).mp (hcast.trans hle)
      omega
    subst hs
    have hc' : c = 2 ^ 53 := by
      have hpow : 2 ^ (52 + (j + 1)) = 2 ^ 53 * 2 ^ j := by rw [← pow_add]; congr 1; omega
      rw [hpow] at hcast
      exact le_antisymm hc (Nat.le_of_mul_le_mul_right hcast (by positivity))
    refine hwhole (2 ^ 52) ?_
    rw [hc', div_eq_iff (by positivity)]
    push_cast
    ring

/-- The code of exponent and significand stays below that of `2 ^ 53` with `t` digits dropped as long as
the number does. -/
theorem code_lt_iff (h : Rounding u s m) (t : ℕ) :
    s * 2 ^ 52 + m < (t + 2) * 2 ^ 52 ↔ m * 2 ^ s < 2 ^ 53 * 2 ^ t := by
  have hle := h.le
  rcases lt_trichotomy s t with hs | rfl | hs
  · refine iff_of_true (by omega) ?_
    calc m * 2 ^ s ≤ 2 ^ 53 * 2 ^ s := Nat.mul_le_mul_right _ hle
      _ < 2 ^ 53 * 2 ^ t :=
        Nat.mul_lt_mul_of_pos_left (Nat.pow_lt_pow_right (by decide) hs) (by positivity)
  · have hm : s * 2 ^ 52 + m < (s + 2) * 2 ^ 52 ↔ m < 2 ^ 53 := by omega
    exact hm.trans (Nat.mul_lt_mul_right (Nat.two_pow_pos s)).symm
  · have hge := h.ge (by omega)
    refine iff_of_false (by omega) (not_lt.mpr ?_)
    calc 2 ^ 53 * 2 ^ t = 2 ^ 52 * 2 ^ (t + 1) := by rw [pow_succ 2 t, pow_succ 2 52]; ring
      _ ≤ m * 2 ^ s := Nat.mul_le_mul hge (Nat.pow_le_pow_right (by decide) hs)

/-- What is rounded to `2 ^ 53` with `t` digits dropped, or beyond it, is at most half a unit below. -/
theorem carry_iff (h : Rounding u s m) (t : ℕ) :
    2 ^ 53 * 2 ^ t ≤ m * 2 ^ s ↔ (2 ^ 53 - 1 / 2) * 2 ^ t ≤ u := by
  rw [← not_lt, ← h.code_lt_iff, not_lt]
  have hle := h.le
  rcases lt_trichotomy s t with hs | rfl | hs
  · -- too small for both
    refine iff_of_false (by omega) (not_le.mpr ?_)
    have hpow : (2 : ℚ) ^ (53 + s) ≤ 2 ^ 52 * 2 ^ t := by
      rw [← pow_add]
      exact pow_le_pow_right₀ one_le_two (by omega)
    have hgap : (2 : ℚ) ^ 52 * 2 ^ t ≤ (2 ^ 53 - 1 / 2) * 2 ^ t :=
      mul_le_mul_of_nonneg_right (by norm_num) (by positivity)
    exact h.high.trans_le (hpow.trans hgap)
  · rw [← le_div_iff₀ (by positivity)]
    obtain ⟨hhalf, htie⟩ := h.nearest
    obtain ⟨hlo, hhi⟩ := h.nearest.bounds
    constructor
    · intro hcode
      have hm : ((2 ^ 53 : ℕ) : ℚ) ≤ m := by exact_mod_cast (by omega : 2 ^ 53 ≤ m)
      push_cast at hm
      linarith
    · intro hv
      have hm : ((2 ^ 53 : ℕ) : ℚ) ≤ (m + 1 : ℕ) := by
        push_cast
        linarith
      have hge := Nat.cast_le.mp hm
      -- the greatest significand is odd, so that half a unit is rounded up
      by_contra hcode
      have hm' : m = 2 ^ 53 - 1 := by omega
      have hdist : |u / 2 ^ s - m| = 1 / 2 := by
        refine le_antisymm hhalf (le_trans ?_ (le_abs_self _))
        rw [hm']
        norm_num at hv ⊢
        linarith
      have heven := Nat.even_iff.mp (htie hdist)
      rw [hm'] at heven
      norm_num at heven
  · -- too great for both
    have hge := h.ge (by omega)
    refine iff_of_true (by omega) (le_trans ?_ (h.low.resolve_left (by omega)))
    have hpow : (2 : ℚ) ^ 53 * 2 ^ t ≤ 2 ^ (52 + s) := by
      rw [← pow_add]
      exact pow_le_pow_right₀ one_le_two (by omega)
    refine le_trans ?_ hpow
    exact mul_le_mul_of_nonneg_right (by norm_num) (by positivity)

end Rounding

/-- Every quotient is rounded. -/
theorem rounding_ratio (num : ℕ) (hden : 0 < den) : Rounding (num / den) (bitLength (num / den) - 53)
    (nearestEven num (den <<< (bitLength (num / den) - 53))) := by
  have hpos : (0 : ℚ) < den := by exact_mod_cast hden
  have hlength := lt_two_pow_bitLength (num / den)
  generalize hs : bitLength (num / den) - 53 = s
  refine ⟨?_, ?_, ?_⟩
  · by_cases hzero : s = 0
    · exact Or.inl hzero
    · have hne : num / den ≠ 0 := by
        intro h
        rw [h, bitLength, if_pos rfl] at hs
        omega
      have hle := two_pow_bitLength_le hne
      have hexp : bitLength (num / den) - 1 = 52 + s := by omega
      rw [hexp, Nat.le_div_iff_mul_le hden] at hle
      refine Or.inr ((le_div_iff₀ hpos).mpr ?_)
      exact_mod_cast hle
  · have hlt : num / den < 2 ^ (53 + s) :=
      hlength.trans_le (Nat.pow_le_pow_right (by decide) (by omega))
    rw [Nat.div_lt_iff_lt_mul hden] at hlt
    rw [div_lt_iff₀ hpos]
    exact_mod_cast hlt
  · have hscaled : 0 < den <<< s := by
      rw [Nat.shiftLeft_eq]
      positivity
    have hshift := roundsTo_nearestEven num hscaled
    rwa [Nat.shiftLeft_eq, Nat.cast_mul, Nat.cast_pow, Nat.cast_ofNat, ← div_div, ← Nat.shiftLeft_eq]
      at hshift

/-! ### The double of a rounded number -/

/-- How many digits the greatest finite double drops. -/
@[irreducible] def maxShift : ℕ := 2045

theorem maxShift_eq : maxShift = 2045 := by
  unfold maxShift
  rfl

theorem ofUnitRatio_eq (h : Rounding (num / den) s m) (hden : 0 < den) (negative : Bool) :
    ofUnitRatio negative num den = ofSign negative (min (s * 2 ^ 52 + m) ((maxShift + 2) * 2 ^ 52)) := by
  obtain ⟨hs, hm⟩ := (rounding_ratio num hden).unique h
  unfold ofUnitRatio
  simp only [hs] at hm ⊢
  rw [hm, Nat.shiftLeft_eq, maxShift_eq]
  rfl

/-- The double nearest to a number of units. -/
def rounded (negative : Bool) (u : ℚ) : Binary64 := ofUnitRatio negative u.num.toNat u.den

theorem num_div_den_of_nonneg (hu : 0 ≤ u) : (u.num.toNat : ℚ) / u.den = u := by
  have hnum : ((u.num.toNat : ℤ) : ℚ) = u.num := by
    rw [Int.toNat_of_nonneg (Rat.num_nonneg.mpr hu)]
  rw [Int.cast_natCast] at hnum
  rw [hnum, Rat.num_div_den]

theorem exists_rounding (hu : 0 ≤ u) : ∃ s m, Rounding u s m := by
  have h := rounding_ratio u.num.toNat u.pos
  rw [num_div_den_of_nonneg hu] at h
  exact ⟨_, _, h⟩

theorem Rounding.rounded_eq (h : Rounding u s m) (hu : 0 ≤ u) (negative : Bool) :
    rounded negative u = ofSign negative (min (s * 2 ^ 52 + m) ((maxShift + 2) * 2 ^ 52)) := by
  refine ofUnitRatio_eq ?_ u.pos negative
  rwa [num_div_den_of_nonneg hu]

/-- Only the quotient matters. -/
theorem ofUnitRatio_eq_rounded (hden : 0 < den) (negative : Bool) :
    ofUnitRatio negative num den = rounded negative (num / den) := by
  have h := rounding_ratio num hden
  rw [ofUnitRatio_eq h hden, h.rounded_eq (by positivity)]

/-- The fields of what is rounded to a finite double. -/
theorem Rounding.finite (h : Rounding u s m) (hu : 0 ≤ u) (hlt : m * 2 ^ s < 2 ^ 53 * 2 ^ maxShift)
    (negative : Bool) : (rounded negative u).isFinite = true ∧
      (rounded negative u).signBit = negative ∧ (rounded negative u).magnitude = m * 2 ^ s ∧
      (rounded negative u).fraction % 2 = m % 2 := by
  have hcode := (h.code_lt_iff maxShift).mpr hlt
  have hle := h.le
  rw [h.rounded_eq hu, min_eq_left hcode.le]
  have htop : (maxShift + 2) * 2 ^ 52 = 2047 * 2 ^ 52 := by rw [maxShift_eq]
  rw [htop] at hcode
  obtain ⟨hsign, hexp, hfrac⟩ := fields_ofSign negative hcode.le
  generalize ofSign negative (s * 2 ^ 52 + m) = x at hsign hexp hfrac
  have hfinite : x.isFinite = true := by
    rw [isFinite, bne_iff_ne, hexp]
    omega
  refine ⟨hfinite, hsign, ?_, by omega⟩
  rcases Nat.lt_or_ge m (2 ^ 52) with hm | hm
  · have hs : s = 0 := by
      by_contra hs
      exact absurd (h.ge hs) (not_le.mpr hm)
    subst hs
    rw [magnitude_of_subnormal (by omega), pow_zero, mul_one]
    omega
  · rcases Nat.lt_or_ge m (2 ^ 53) with hm' | hm'
    · have hexp' : x.exponentField = s + 1 := by omega
      have hfrac' : x.fraction + 2 ^ 52 = m := by omega
      rw [(magnitude_bounds hexp').1, hfrac']
    · have hexp' : x.exponentField = s + 1 + 1 := by omega
      have hfrac' : x.fraction = 0 := by omega
      have hmax : m = 2 ^ 52 * 2 := by omega
      rw [(magnitude_bounds hexp').1, hfrac', hmax, pow_succ 2 s]
      ring

/-- Beyond the greatest finite double is infinity. -/
theorem Rounding.infinite (h : Rounding u s m) (hu : 0 ≤ u)
    (hge : 2 ^ 53 * 2 ^ maxShift ≤ m * 2 ^ s) (negative : Bool) :
    rounded negative u = infinity negative := by
  have hcode := mt (h.code_lt_iff maxShift).mp (not_lt.mpr hge)
  rw [h.rounded_eq hu, min_eq_right (not_lt.mp hcode), maxShift_eq]
  rfl

/-! ### Nearest doubles -/

/-- A double that is large enough is a multiple of the last digit kept at its size. -/
theorem two_pow_dvd_magnitude {x : Binary64} (h : 2 ^ (52 + s) ≤ x.magnitude) :
    2 ^ s ∣ x.magnitude := by
  cases he : x.exponentField with
  | zero =>
    rw [magnitude_of_subnormal he] at h ⊢
    have hs : 52 + s < 52 := (Nat.pow_lt_pow_iff_right (by decide)).mp (h.trans_lt x.fraction_lt)
    omega
  | succ e =>
    obtain ⟨hmag, -, hlt⟩ := magnitude_bounds he
    have hs : 52 + s < 53 + e := (Nat.pow_lt_pow_iff_right (by decide)).mp (h.trans_lt hlt)
    rw [hmag]
    exact Dvd.dvd.mul_left (pow_dvd_pow 2 (by omega)) _

/-- No double is nearer than the rounded number, and one as near is another only if the significand is
even. -/
theorem Rounding.near (h : Rounding u s m) (y : Binary64) :
    |u - (m * 2 ^ s : ℕ)| ≤ |u - y.magnitude| ∧
      (|u - (m * 2 ^ s : ℕ)| = |u - y.magnitude| → y.magnitude = m * 2 ^ s ∨ Even m) := by
  have hpos : (0 : ℚ) < 2 ^ s := by positivity
  have hscale : ∀ k : ℕ, |u - (k * 2 ^ s : ℕ)| = |u / 2 ^ s - k| * 2 ^ s := by
    intro k
    rw [← abs_of_pos hpos, ← abs_mul, abs_of_pos hpos, sub_mul, div_mul_cancel₀ _ hpos.ne']
    push_cast
    rfl
  have hmultiple : ∀ k : ℕ, |u - (m * 2 ^ s : ℕ)| ≤ |u - (k * 2 ^ s : ℕ)| ∧
      (|u - (m * 2 ^ s : ℕ)| = |u - (k * 2 ^ s : ℕ)| → k * 2 ^ s = m * 2 ^ s ∨ Even m) := by
    intro k
    obtain ⟨hle, htie⟩ := h.nearest.near k
    rw [hscale, hscale]
    refine ⟨mul_le_mul_of_nonneg_right hle hpos.le, fun heq => ?_⟩
    exact (htie (mul_right_cancel₀ hpos.ne' heq)).imp_left fun hk => by rw [hk]
  by_cases hbig : s = 0 ∨ 2 ^ (52 + s) ≤ y.magnitude
  · have hdvd : 2 ^ s ∣ y.magnitude := by
      rcases hbig with rfl | hbig
      · exact one_dvd _
      · exact two_pow_dvd_magnitude hbig
    obtain ⟨k, hk⟩ := hdvd
    rw [hk, mul_comm (2 ^ s) k]
    exact hmultiple k
  · -- a smaller double is below the least number of this size
    rw [not_or, not_le] at hbig
    have hlow := h.low.resolve_left hbig.1
    have hleast := (hmultiple (2 ^ 52)).1
    rw [← pow_add] at hleast
    have hy : (y.magnitude : ℚ) < (2 ^ (52 + s) : ℕ) := by exact_mod_cast hbig.2
    have hcast : ((2 ^ (52 + s) : ℕ) : ℚ) = 2 ^ (52 + s) := by push_cast; rfl
    rw [abs_of_nonneg (by linarith : (0 : ℚ) ≤ u - (2 ^ (52 + s) : ℕ))] at hleast
    have hfar : u - (2 ^ (52 + s) : ℕ) < |u - y.magnitude| :=
      lt_of_lt_of_le (by linarith) (le_abs_self _)
    exact ⟨(hleast.trans_lt hfar).le, fun heq => absurd heq (hleast.trans_lt hfar).ne⟩

/-- A rational with a sign. -/
def signed (negative : Bool) (q : ℚ) : ℚ := if negative then -q else q

theorem abs_signed (negative : Bool) (hq : 0 ≤ q) : |signed negative q| = q := by
  cases negative <;> simp [signed, abs_of_nonneg hq]

theorem signed_zero (negative : Bool) : signed negative 0 = 0 := by
  cases negative <;> simp [signed]

theorem toRat_eq_signed (x : Binary64) : x.toRat = signed x.signBit (x.magnitude / unitsPerOne) := by
  rw [toRat_eq_ofUnits, ofUnits, units, signed]
  cases x.signBit
  · simp
  · simp [neg_div]

/-- Numbers of different signs are farther apart than their magnitudes. -/
theorem abs_sub_le_signed {p r : ℚ} (hp : 0 ≤ p) (hr : 0 ≤ r) (a b : Bool) :
    |p - r| ≤ |signed a p - signed b r| ∧ |p - r| = |signed a p - signed a r| ∧
      (|p - r| = |signed a p - signed b r| → p = 0 ∨ r = 0 ∨ a = b) := by
  have hsame : |p - r| = |-p - -r| := by rw [neg_sub_neg, abs_sub_comm]
  have hother : |p - r| ≤ p + r := abs_le.mpr ⟨by linarith, by linarith⟩
  have hsum : |p - r| = p + r → p = 0 ∨ r = 0 := by
    intro h
    rcases abs_cases (p - r) with ⟨habs, -⟩ | ⟨habs, -⟩
    · exact Or.inr (by linarith)
    · exact Or.inl (by linarith)
  have hdist : |p - -r| = p + r := by rw [sub_neg_eq_add, abs_of_nonneg (by linarith)]
  have hdist' : |-p - r| = p + r := by rw [← abs_neg, neg_sub, sub_neg_eq_add, add_comm, abs_of_nonneg (by linarith)]
  cases a <;> cases b
  · exact ⟨le_rfl, rfl, fun _ => Or.inr (Or.inr rfl)⟩
  · refine ⟨hdist.symm ▸ hother, rfl, fun h => ?_⟩
    exact (hsum (h.trans hdist)).imp_right Or.inl
  · refine ⟨hdist'.symm ▸ hother, hsame, fun h => ?_⟩
    exact (hsum (h.trans hdist')).imp_right Or.inl
  · exact ⟨hsame.le, hsame, fun _ => Or.inr (Or.inr rfl)⟩

/-- From here on, half a unit beyond the greatest finite double, infinity is the nearest double. -/
def overflow : ℚ := 2 ^ 1024 - 2 ^ 970

/-- `x` is the double nearest to `q`: no finite double is nearer, the last digit of `x` is even if
another one is as near, and infinity stands for whatever is too large. -/
structure Nearest (q : ℚ) (x : Binary64) : Prop where
  finite : |q| < overflow → x.isFinite = true ∧ ∀ y : Binary64, y.isFinite = true →
    |q - x.toRat| ≤ |q - y.toRat| ∧
      (|q - x.toRat| = |q - y.toRat| → y.toRat = x.toRat ∨ x.fraction % 2 = 0)
  infinite : overflow ≤ |q| → x = infinity (q < 0)

theorem overflow_eq : overflow = (2 ^ 53 - 1 / 2) * 2 ^ 971 := by
  have hlast : (2 : ℚ) ^ 970 = 1 / 2 * 2 ^ 971 := by
    rw [pow_succ (2 : ℚ) 970, mul_comm (2 ^ 970 : ℚ) 2, ← mul_assoc, one_div,
      inv_mul_cancel₀ two_ne_zero, one_mul]
  rw [overflow, hlast, show (2 : ℚ) ^ 1024 = 2 ^ 53 * 2 ^ 971 from pow_add 2 53 971, ← sub_mul]

theorem overflow_mul_unitsPerOne : overflow * unitsPerOne = (2 ^ 53 - 1 / 2) * 2 ^ maxShift := by
  have hsum : (2 : ℚ) ^ 971 * 2 ^ 1074 = 2 ^ maxShift := by
    rw [maxShift_eq]
    exact (pow_add 2 971 1074).symm
  rw [overflow_eq, unitsPerOne_eq, Nat.cast_pow, Nat.cast_ofNat, mul_assoc, hsum]

/-- Rounding gives the nearest double. -/
theorem nearest_rounded (negative : Bool) (hu : 0 ≤ u) :
    Nearest (signed negative (u / unitsPerOne)) (rounded negative u) := by
  have hunit : (0 : ℚ) < unitsPerOne := by exact_mod_cast unitsPerOne_pos
  have hquotient : 0 ≤ u / unitsPerOne := div_nonneg hu hunit.le
  obtain ⟨s, m, h⟩ := exists_rounding hu
  have hcarry := h.carry_iff maxShift
  rw [← overflow_mul_unitsPerOne, ← le_div_iff₀ hunit] at hcarry
  refine ⟨fun hlt => ?_, fun hge => ?_⟩
  · rw [abs_signed negative hquotient, ← not_le, ← hcarry, not_le] at hlt
    obtain ⟨hfinite, hsign, hmag, hfrac⟩ := h.finite hu hlt negative
    refine ⟨hfinite, fun y _ => ?_⟩
    rw [toRat_eq_signed, toRat_eq_signed, hsign, hmag]
    obtain ⟨hle, htie⟩ := h.near y
    have hscale : ∀ n : ℕ, |u / unitsPerOne - n / unitsPerOne| = |u - n| / unitsPerOne := by
      intro n
      rw [← sub_div, abs_div, abs_of_pos hunit]
    have hnonneg : ∀ n : ℕ, 0 ≤ (n : ℚ) / unitsPerOne := fun n => div_nonneg n.cast_nonneg hunit.le
    obtain ⟨-, hown, -⟩ := abs_sub_le_signed hquotient (hnonneg (m * 2 ^ s)) negative negative
    obtain ⟨hother, -, hdiffer⟩ := abs_sub_le_signed hquotient (hnonneg y.magnitude) negative y.signBit
    have hmiddle := div_le_div_of_nonneg_right hle hunit.le
    rw [← hscale, ← hscale] at hmiddle
    rw [← hown]
    refine ⟨hmiddle.trans hother, fun heq => ?_⟩
    -- as near as the rounded number, so its magnitude is as near, and the signs do not matter
    have hmags := le_antisymm hmiddle (hother.trans_eq heq.symm)
    rcases htie ((div_left_inj' hunit.ne').mp (by rw [← hscale, ← hscale]; exact hmags)) with hsame | heven
    · left
      rw [hsame]
      rcases hdiffer (hmags.symm.trans heq) with hzero | hzero | hsigns
      · have hu0 : u = 0 := (div_eq_zero_iff.mp hzero).resolve_right hunit.ne'
        have hm : m = 0 := by
          have hround := h.nearest
          rw [hu0, zero_div] at hround
          exact hround.unique (by exact_mod_cast roundsTo_self 0)
        rw [hm, zero_mul, Nat.cast_zero, zero_div, signed_zero, signed_zero]
      · rw [hsame] at hzero
        rw [hzero, signed_zero, signed_zero]
      · rw [hsigns]
    · exact Or.inr (by rw [hfrac]; exact Nat.even_iff.mp heven)
  · rw [abs_signed negative hquotient, ← hcarry] at hge
    rw [h.infinite hu hge]
    have hpos : 0 < u / unitsPerOne := by
      refine lt_of_lt_of_le ?_ (hcarry.mp hge)
      exact sub_pos.mpr (pow_lt_pow_right₀ one_lt_two (by decide))
    cases negative
    · rw [signed, if_neg Bool.false_ne_true, decide_eq_false (not_lt.mpr hpos.le)]
    · rw [signed, if_pos rfl, decide_eq_true (neg_lt_zero.mpr hpos)]

end ObjectMachine.Binary64
