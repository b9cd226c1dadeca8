import Mathlib.Tactic
import Mathlib.Data.Nat.Size
import ObjectMachine.Proofs.Number.Failure

/-! Powers of integers are exact or refused.

Whether a power may be built is decided in machine words: the number of binary digits of the base and
the exponent are words of 64 bits, their product one of 128, and the exponent is cut down to 32 bits
before the power is taken.  No digit gets lost on the way.  A size that no word holds is beyond the
limit already, the product of two words of 64 bits fits in 128, and an exponent that passes the check
is far below 2³². -/

namespace ObjectMachine

namespace Integer

/-! ### Sizes as words -/

/-- Binary digits are counted as `Nat.size` does. -/
theorem bits_eq_size (n : Int) : bits n = n.natAbs.size := by
  have hsize : ∀ k : Nat, Binary64.bitLength k = k.size := by
    intro k
    unfold Binary64.bitLength
    by_cases hk : k = 0
    · rw [if_pos hk, hk, Nat.size_zero]
    · rw [if_neg hk]
      refine le_antisymm ?_ (Nat.size_le.mpr (Nat.log2_lt hk |>.mp (Nat.lt_succ_self _)))
      exact Nat.lt_size.mpr (Nat.log2_self_le hk)
  exact hsize n.natAbs

theorem toNat_saturated (n : Nat) : (saturated n).toNat = min n (2 ^ 64 - 1) := by
  have hmax : (BitVec.allOnes 64).toNat = 2 ^ 64 - 1 := rfl
  rw [saturated, BitVec.toNat_ofNat, hmax]
  exact Nat.mod_eq_of_lt (by omega)

theorem toNat_length (n : Int) : (length n).toNat = min n.natAbs.size (2 ^ 64 - 1) := by
  rw [length, toNat_saturated, bits_eq_size]

/-- A word without a sign stands for its integer. -/
theorem toNat_of_unsigned? {n : Int} {w : BitVec 64} (h : unsigned? n = some w) :
    w.toNat = n.toNat := by
  have hmax : (BitVec.allOnes 64).toNat = 2 ^ 64 - 1 := rfl
  unfold unsigned? at h
  split at h
  · next hn =>
    obtain rfl := Option.some.inj h
    rw [Fixnum.word, BitVec.toNat_ofInt]
    omega
  · cases h

theorem le_of_unsigned?_eq_none {n : Int} (hn : 0 ≤ n) (h : unsigned? n = none) :
    2 ^ 64 ≤ n.toNat := by
  have hmax : (BitVec.allOnes 64).toNat = 2 ^ 64 - 1 := rfl
  unfold unsigned? at h
  split at h
  · cases h
  · omega

/-! ### The check of the size -/

/-- The product of two words of 64 bits fits in a word of 128. -/
theorem toNat_powerDigits (base : Int) (w : BitVec 64) :
    (powerDigits base w).toNat = (min base.natAbs.size (2 ^ 64 - 1) - 1) * w.toNat := by
  have hw : w.toNat < 2 ^ 64 := w.isLt
  have hdigits : (saturated ((length base).toNat - 1)).toNat =
      min base.natAbs.size (2 ^ 64 - 1) - 1 := by
    rw [toNat_saturated, toNat_length]
    omega
  have hproduct : (min base.natAbs.size (2 ^ 64 - 1) - 1) * w.toNat < 2 ^ 64 * 2 ^ 64 :=
    Nat.mul_lt_mul'' (by omega) hw
  have hleft : (min base.natAbs.size (2 ^ 64 - 1) - 1) % 2 ^ 128 =
      min base.natAbs.size (2 ^ 64 - 1) - 1 := Nat.mod_eq_of_lt (by omega)
  have hright : w.toNat % 2 ^ 128 = w.toNat := Nat.mod_eq_of_lt (by omega)
  rw [powerDigits, BitVec.toNat_mul, BitVec.toNat_setWidth, BitVec.toNat_setWidth, hdigits, hleft,
    hright]
  exact Nat.mod_eq_of_lt (by omega)

/-- Cutting the number of digits down to a word does not change the outcome of the check. -/
theorem powerDigits_le_iff (base : Int) (w : BitVec 64) :
    powerDigits base w ≤ BitVec.ofNat 128 maxBits ↔ (base.natAbs.size - 1) * w.toNat ≤ 2 ^ 26 := by
  have hlimit : (BitVec.ofNat 128 maxBits).toNat = 2 ^ 26 := rfl
  rw [BitVec.le_def, toNat_powerDigits, hlimit]
  by_cases hsize : base.natAbs.size ≤ 2 ^ 64 - 1
  · rw [min_eq_left hsize]
  · -- the true size and the greatest word are both beyond the limit, unless the exponent is zero
    rw [min_eq_right (by omega)]
    rcases Nat.eq_zero_or_pos w.toNat with hw | hw
    · rw [hw, Nat.mul_zero, Nat.mul_zero]
    · have hword := Nat.le_mul_of_pos_right (2 ^ 64 - 1 - 1) hw
      have htrue := Nat.le_mul_of_pos_right (base.natAbs.size - 1) hw
      omega

/-- An exponent that passes the check fits in 32 bits. -/
theorem toNat_setWidth_of_powerDigits_le {base : Int} {w : BitVec 64} (hbase : 1 < |base|)
    (h : powerDigits base w ≤ BitVec.ofNat 128 maxBits) : (w.setWidth 32).toNat = w.toNat := by
  have htwo : 2 ≤ base.natAbs.size := by
    have hlt : 2 ^ 1 ≤ base.natAbs := by
      rw [Int.abs_eq_natAbs] at hbase
      omega
    exact Nat.lt_size.mpr hlt
  have hle := Nat.le_mul_of_pos_left w.toNat (show 0 < base.natAbs.size - 1 by omega)
  have hlimit := (powerDigits_le_iff base w).mp h
  rw [BitVec.toNat_setWidth]
  exact Nat.mod_eq_of_lt (by omega)

/-! ### Powers -/

/-- Whether a power may be built: the base is `0`, `1` or `-1`, or the least number of binary digits that
the power can have is not beyond the limit. -/
def Affordable (base exponent : Int) : Prop :=
  |base| ≤ 1 ∨ (base.natAbs.size - 1) * exponent.toNat ≤ 2 ^ 26

instance (base exponent : Int) : Decidable (Affordable base exponent) :=
  inferInstanceAs (Decidable (_ ∨ _))

/-- Powers of minus one alternate. -/
theorem neg_one_pow_toNat {e : Int} (he : 0 ≤ e) :
    (-1 : Int) ^ e.toNat = if e % 2 = 1 then -1 else 1 := by
  split
  · next hodd => exact Odd.neg_one_pow (Nat.odd_iff.mpr (by omega))
  · next heven => exact Even.neg_one_pow (Nat.even_iff.mpr (by omega))

/-- A power is exact or refused. -/
theorem pow_eq {base exponent : Int} (he : 0 ≤ exponent) :
    pow base exponent =
      if Affordable base exponent then .ok (.integer (base ^ exponent.toNat))
      else .error .exponentTooLarge := by
  have hsmall : ∀ b : Int, |b| ≤ 1 → Affordable b exponent := fun _ h => Or.inl h
  unfold pow
  rw [if_neg (by omega : ¬ exponent < 0)]
  by_cases hzero : base = 0
  · subst hzero
    rw [if_pos rfl, if_pos (hsmall 0 (by decide)), zero_pow_eq]
    congr 3
    exact propext (by omega)
  by_cases hone : base = 1
  · subst hone
    rw [if_neg hzero, if_pos rfl, if_pos (hsmall 1 (by decide)), one_pow]
  by_cases hminus : base = -1
  · subst hminus
    rw [if_neg hzero, if_neg hone, if_pos rfl, if_pos (hsmall (-1) (by decide)),
      neg_one_pow_toNat he]
  have hbase : 1 < |base| := by
    rw [Int.abs_eq_natAbs]
    omega
  have haffordable : Affordable base exponent ↔
      (base.natAbs.size - 1) * exponent.toNat ≤ 2 ^ 26 := or_iff_right hbase.not_ge
  rw [if_neg hzero, if_neg hone, if_neg hminus]
  cases hw : unsigned? exponent with
  | none =>
    have hlarge := le_of_unsigned?_eq_none he hw
    have htwo : 1 < base.natAbs.size := Nat.lt_size.mpr (by rw [Int.abs_eq_natAbs] at hbase; omega)
    have hle := Nat.le_mul_of_pos_left exponent.toNat (show 0 < base.natAbs.size - 1 by omega)
    rw [if_neg (by rw [haffordable]; omega)]
  | some w =>
    have hnat := toNat_of_unsigned? hw
    have hcheck := powerDigits_le_iff base w
    rw [hnat, ← haffordable] at hcheck
    dsimp only
    by_cases hle : powerDigits base w ≤ BitVec.ofNat 128 maxBits
    · rw [if_pos hle, if_pos (hcheck.mp hle), toNat_setWidth_of_powerDigits_le hbase hle, hnat]
      rfl
    · rw [if_neg hle, if_neg (mt hcheck.mpr hle)]

end Integer

/-! ### The method -/

section Methods

open Effect Machine

/-- Integers of all kinds are raised to the power in the same way. -/
theorem Number.binary_pow {left right : Number} {a b : Int} (hleft : left.IsInteger a)
    (hright : right.IsInteger b) : Number.binary .pow left right = Integer.pow a b := by
  rcases hleft with ⟨rfl, -⟩ | rfl <;> rcases hright with ⟨rfl, -⟩ | rfl <;> rfl

/-- For every integer base and every integer exponent that is not negative, each a fixnum or a bignum of
any size: `**` returns the power as an integer in the form results have if the base is `0`, `1` or
`-1` or if `(digits of the base - 1) * exponent` is at most 2²⁶, and otherwise raises a ValueError.
Neither the product of 128 bits nor the cutting down of the exponent to 32 bits changes a value: the
product is the one of the two words, it passes the check exactly if the product of the unbounded
numbers would, and an exponent that passed it is still the same in 32 bits. -/
theorem integer_powers_exact (base exponent : Int) (hexponent : 0 ≤ exponent) :
    (∀ (calls : Calls) (m : Machine) (x y : Value), m.Intact → m.Spacious →
      m.integer? x = some base → m.integer? y = some exponent →
        if Integer.Affordable base exponent then Returns calls m x "**" [y] (base ^ exponent.toNat)
        else Raises calls m x "**" [y] .valueError "exponent too large") ∧
    (Integer.pow base exponent =
      if Integer.Affordable base exponent then .ok (.integer (base ^ exponent.toNat))
      else .error .exponentTooLarge) ∧
    ∀ w, Integer.unsigned? exponent = some w →
      (Integer.powerDigits base w).toNat =
        (min base.natAbs.size (2 ^ 64 - 1) - 1) * exponent.toNat ∧
      (Integer.powerDigits base w ≤ BitVec.ofNat 128 Integer.maxBits ↔
        (base.natAbs.size - 1) * exponent.toNat ≤ 2 ^ 26) ∧
      (1 < |base| → Integer.powerDigits base w ≤ BitVec.ofNat 128 Integer.maxBits →
        (w.setWidth 32).toNat = exponent.toNat) := by
  have hpow : Integer.pow base exponent = _ := Integer.pow_eq hexponent
  refine ⟨fun calls m x y hm hroom hx hy => ?_, hpow, fun w hw => ?_⟩
  · by_cases h : Integer.Affordable base exponent
    · rw [if_pos h] at hpow
      rw [if_pos h]
      exact returns_of_binary .pow hm.sound hroom.size_lt hx hy fun _ _ hleft hright =>
        ⟨_, (Number.binary_pow hleft hright).trans hpow, Or.inl rfl⟩
    · rw [if_neg h] at hpow
      rw [if_neg h]
      exact raises_of_binary .pow hm hroom hx hy fun _ _ hleft hright =>
        (Number.binary_pow hleft hright).trans hpow
  · have hnat := Integer.toNat_of_unsigned? hw
    rw [← hnat]
    exact ⟨Integer.toNat_powerDigits base w, Integer.powerDigits_le_iff base w,
      Integer.toNat_setWidth_of_powerDigits_le⟩

/-- A power of a negative base, and the least power of two that is refused. -/
theorem integer_powers_exact_at_limit :
    let m : Machine := { heap := { settings := {} } }
    Returns .exhausted m (.ofInt (-3)) "**" [.ofInt 5] (-243) ∧
      Raises .exhausted m (.ofInt 2) "**" [.ofInt (2 ^ 26 + 1)] .valueError
        "exponent too large" := by
  intro m
  have hm : m.Intact := intact_fresh {}
  have hroom : m.Spacious := by unfold Spacious; decide
  have hthree : Integer.Affordable (-3) 5 := by
    rw [Integer.Affordable, ← Integer.bits_eq_size]
    decide
  have htwo : ¬ Integer.Affordable 2 (2 ^ 26 + 1) := by
    rw [Integer.Affordable, ← Integer.bits_eq_size]
    decide
  have hsmall := (integer_powers_exact (-3) 5 (by decide)).1 .exhausted m (.ofInt (-3)) (.ofInt 5)
    hm hroom (by decide) (by decide)
  have hlarge := (integer_powers_exact 2 (2 ^ 26 + 1) (by decide)).1 .exhausted m (.ofInt 2)
    (.ofInt (2 ^ 26 + 1)) hm hroom (by decide) (by decide)
  rw [if_pos hthree] at hsmall
  rw [if_neg htwo] at hlarge
  exact ⟨hsmall, hlarge⟩

end Methods

end ObjectMachine
