import Mathlib.Tactic
import ObjectMachine.Proofs.Number.Shifts

/-! How large the results of powers and shifts get.

A shift adds its width to the number of binary digits, so that the check of the sum keeps every result
within the limit.  A power has about as many digits as its base, times the exponent, but not exactly: the
check takes the product with one digit less, which no result falls below.  Nothing within the limit is
refused, then, but what is built may have up to twice as many digits as the limit allows. -/

namespace ObjectMachine

namespace Integer

variable {n base exponent : Int}

/-! ### Numbers of digits -/

theorem size_natAbs_mul_two_pow (hn : n ≠ 0) (k : Nat) :
    (n * 2 ^ k).natAbs.size = n.natAbs.size + k := by
  have habs : (n * 2 ^ k).natAbs = n.natAbs <<< k := by
    rw [Int.natAbs_mul, Int.natAbs_pow, Nat.shiftLeft_eq]
    rfl
  rw [habs, Nat.size_shiftLeft (Int.natAbs_ne_zero.mpr hn)]

/-- A power has at least the digits that the check counts, and one more. -/
theorem lt_size_pow {a : Nat} (ha : a ≠ 0) (e : Nat) : (a.size - 1) * e < (a ^ e).size := by
  have hleast : 2 ^ (a.size - 1) ≤ a :=
    Nat.lt_size.mp (Nat.sub_lt (Nat.size_pos.mpr (Nat.pos_of_ne_zero ha)) one_pos)
  rw [Nat.lt_size, pow_mul]
  exact Nat.pow_le_pow_left hleast e

/-- A power has at most as many digits as its base for each factor. -/
theorem size_pow_le (a e : Nat) : (a ^ e).size ≤ max 1 (a.size * e) := by
  rcases Nat.eq_zero_or_pos e with rfl | he
  · rw [pow_zero, Nat.size_one]
    exact le_max_left _ _
  · refine (Nat.size_le.mpr ?_).trans (le_max_right _ _)
    rw [pow_mul]
    exact Nat.pow_lt_pow_left (Nat.size_le.mp le_rfl) he.ne'

theorem size_two_pow (e : Nat) : ((2 : Int) ^ e).natAbs.size = e + 1 := by
  rw [Int.natAbs_pow]
  exact Nat.size_pow

theorem two_le_size (h : 2 ≤ |base|) : 2 ≤ base.natAbs.size := by
  have habs : 2 ^ 1 ≤ base.natAbs := by
    rw [Int.abs_eq_natAbs] at h
    omega
  exact Nat.lt_size.mpr habs

/-! ### What the checks let through -/

/-- The check of a shift is exact. -/
theorem size_shifted {w k : Int} (hn : n ≠ 0) (hw : 0 ≤ w) (h : shifted n w = .ok k) :
    k.natAbs.size = n.natAbs.size + w.toNat ∧ k.natAbs.size ≤ 2 ^ 26 := by
  rw [shifted, if_neg (not_lt.mpr hw)] at h
  by_cases hwide : TooWide n w
  · rw [if_pos hwide] at h
    cases h
  · rw [if_neg hwide] at h
    have hsize : k.natAbs.size = n.natAbs.size + w.toNat := by
      rw [← Except.ok.inj h, size_natAbs_mul_two_pow hn]
    exact ⟨hsize, hsize ▸ not_lt.mp fun hlt => hwide ⟨hn, hlt⟩⟩

theorem affordable_iff (h : 2 ≤ |base|) :
    Affordable base exponent ↔ (base.natAbs.size - 1) * exponent.toNat ≤ 2 ^ 26 :=
  or_iff_right (not_le.mpr (by omega))

theorem lt_size_pow_toNat (h : 2 ≤ |base|) :
    (base.natAbs.size - 1) * exponent.toNat < (base ^ exponent.toNat).natAbs.size := by
  have hne : base.natAbs ≠ 0 := fun hz => by
    rw [Int.abs_eq_natAbs, hz] at h
    omega
  rw [Int.natAbs_pow]
  exact lt_size_pow hne _

/-- What the check of a power lets through has at most twice the digits of the limit. -/
theorem size_pow_of_affordable (h : 2 ≤ |base|) (ha : Affordable base exponent) :
    (base ^ exponent.toNat).natAbs.size ≤ 2 ^ 27 := by
  have htwo := two_le_size h
  have hlimit := (affordable_iff h).mp ha
  have hdouble : base.natAbs.size * exponent.toNat ≤
      2 * ((base.natAbs.size - 1) * exponent.toNat) := by
    rw [← mul_assoc]
    exact Nat.mul_le_mul_right _ (by omega)
  rw [Int.natAbs_pow]
  exact (size_pow_le _ _).trans (max_le (by omega) (by omega))

/-- Nothing within the limit is refused. -/
theorem affordable_of_size (h : 2 ≤ |base|) (hsize : (base ^ exponent.toNat).natAbs.size ≤ 2 ^ 26) :
    Affordable base exponent :=
  (affordable_iff h).mpr ((lt_size_pow_toNat h).le.trans hsize)

/-- Powers of two are let through up to one digit beyond the limit. -/
theorem affordable_two_iff (he : 0 ≤ exponent) : Affordable 2 exponent ↔ exponent ≤ 2 ^ 26 := by
  have hsize : (2 : Int).natAbs.size = 2 := Nat.size_pow (n := 1)
  rw [affordable_iff le_rfl, hsize]
  omega

end Integer

/-! ### The methods -/

section Methods

open Effect Machine Integer

variable {calls : Calls} {m : Machine} {y : Value} {n : Int}

theorem returns_two_pow_iff (hm : m.Intact) (hroom : m.Spacious) (hy : m.integer? y = some n)
    (hn : 0 ≤ n) : (∃ k, Returns calls m (.ofInt 2) "**" [y] k) ↔ n ≤ 2 ^ 26 := by
  have hx : m.integer? (.ofInt 2) = some 2 := rfl
  have hpow : Integer.pow 2 n = _ := pow_eq hn
  rw [← affordable_two_iff hn]
  by_cases h : Affordable 2 n
  · rw [if_pos h] at hpow
    exact iff_of_true ⟨_, returns_of_binary .pow hm.sound hroom.size_lt hx hy fun _ _ hleft hright =>
      ⟨_, (Number.binary_pow hleft hright).trans hpow, Or.inl rfl⟩⟩ h
  · rw [if_neg h] at hpow
    have hraises : Raises calls m (.ofInt 2) "**" [y] _ _ :=
      raises_of_binary .pow hm hroom hx hy fun _ _ hleft hright =>
        (Number.binary_pow hleft hright).trans hpow
    exact iff_of_false (fun ⟨_, hk⟩ => hk.not_raises hraises) h

theorem returns_one_shl_iff (hm : m.Intact) (hroom : m.Spacious) (hy : m.integer? y = some n)
    (hn : 0 ≤ n) : (∃ k, Returns calls m (.ofInt 1) "<<" [y] k) ↔ n < 2 ^ 26 := by
  have hsize : (1 : Int).natAbs.size = 1 := Nat.size_one
  have hshifts : Shifts calls m (.ofInt 1) BinOp.shl.symbol y 1 n :=
    shifts_of_binary hm hroom rfl hy fun _ _ => Number.binary_shl (by rw [hsize]; norm_num)
  have hwide : TooWide 1 n ↔ 2 ^ 26 ≤ n := by
    rw [TooWide, hsize]
    omega
  by_cases h : TooWide 1 n
  · have hraises := hshifts.refused.mpr ⟨hn, h⟩
    refine iff_of_false ?_ (not_lt.mpr (hwide.mp h))
    rintro ⟨_, hk⟩
    exact hk.not_raises hraises
  · exact iff_of_true ⟨_, hshifts.left hn h⟩ (not_le.mp (mt hwide.mpr h))

/-- The check of a shift is exact, the one of a power is not.  A left shift of an integer that is not
zero adds its width to the number of digits and returns only what has at most 2²⁶ of them.  A power of a
base beyond one, to an exponent that is not negative, is built whenever it has at most 2²⁶ digits, and
when it is built it has more digits than the check counted and at most 2²⁷; it passes the limit exactly if
its digits do and those that the check counted do not.  `2 ** n` returns for all `n` up to 2²⁶ and
`1 << n` for all `n` below, so that they differ for 2²⁶ alone. -/
theorem shifts_keep_limit_powers_pass_it (small : Bool) (n : Int) (width : BitVec 64)
    (base exponent : Int) (hsmall : small = true → -2 ^ 62 ≤ n ∧ n < 2 ^ 62) (hn : n ≠ 0)
    (hwidth : 0 ≤ width.toInt) (hbase : 2 ≤ |base|) (hexponent : 0 ≤ exponent) :
    (∀ k, Integer.shift small n width = .ok k →
      k.natAbs.size = n.natAbs.size + width.toNat ∧ k.natAbs.size ≤ 2 ^ 26) ∧
    (∀ r, Integer.pow base exponent = .ok r → r = .integer (base ^ exponent.toNat) ∧
      (base.natAbs.size - 1) * exponent.toNat < (base ^ exponent.toNat).natAbs.size ∧
      (base ^ exponent.toNat).natAbs.size ≤ 2 ^ 27) ∧
    ((base ^ exponent.toNat).natAbs.size ≤ 2 ^ 26 →
      Integer.pow base exponent = .ok (.integer (base ^ exponent.toNat))) ∧
    ((∀ k, Integer.pow base exponent = .ok (.integer k) → k.natAbs.size ≤ 2 ^ 26) ↔
      ¬ ((base.natAbs.size - 1) * exponent.toNat ≤ 2 ^ 26 ∧
        2 ^ 26 < (base ^ exponent.toNat).natAbs.size)) ∧
    ∀ (calls : Calls) (m : Machine) (y : Value), m.Intact → m.Spacious → m.integer? y = some exponent →
      ((∃ k, Returns calls m (.ofInt 2) "**" [y] k) ↔ exponent ≤ 2 ^ 26) ∧
      ((∃ k, Returns calls m (.ofInt 1) "<<" [y] k) ↔ exponent < 2 ^ 26) := by
  have hpow : Integer.pow base exponent = _ := pow_eq hexponent
  refine ⟨fun k h => ?_, fun r hr => ?_, fun h => ?_, ?_, fun calls m y hm hroom hy =>
    ⟨returns_two_pow_iff hm hroom hy hexponent, returns_one_shl_iff hm hroom hy hexponent⟩⟩
  · rw [shift_of_nonneg hsmall hwidth] at h
    rw [toNat_of_nonneg hwidth]
    exact size_shifted hn hwidth h
  · by_cases ha : Affordable base exponent
    · rw [hpow, if_pos ha] at hr
      exact ⟨(Except.ok.inj hr).symm, lt_size_pow_toNat hbase, size_pow_of_affordable hbase ha⟩
    · rw [hpow, if_neg ha] at hr
      cases hr
  · rw [hpow, if_pos (affordable_of_size hbase h)]
  · rw [← affordable_iff hbase, hpow, not_and, not_lt]
    by_cases ha : Affordable base exponent
    · rw [if_pos ha]
      refine ⟨fun h _ => h _ rfl, fun h k hk => ?_⟩
      obtain rfl := Numeral.integer.inj (Except.ok.inj hk)
      exact h ha
    · rw [if_neg ha]
      exact iff_of_true nofun fun h => absurd h ha

/-- The exponent where the two differ, beside a shift that just fits. -/
theorem shifts_keep_limit_powers_pass_it_at_limit :
    let m : Machine := { heap := { settings := {} } }
    (∀ k, Integer.shift true 1 (Fixnum.word (2 ^ 26 - 1)) = .ok k → k.natAbs.size ≤ 2 ^ 26) ∧
      (∃ k, Returns .exhausted m (.ofInt 2) "**" [.ofInt (2 ^ 26)] k) ∧
      ¬ ∃ k, Returns .exhausted m (.ofInt 1) "<<" [.ofInt (2 ^ 26)] k := by
  intro m
  have hm : m.Intact := intact_fresh {}
  have hroom : m.Spacious := by unfold Spacious; decide
  obtain ⟨hshift, -, -, -, hmethods⟩ := shifts_keep_limit_powers_pass_it true 1
    (Fixnum.word (2 ^ 26 - 1)) 2 (2 ^ 26) (by decide) (by decide) (by decide) (by decide) (by decide)
  obtain ⟨hpow, hshl⟩ := hmethods .exhausted m (.ofInt (2 ^ 26)) hm hroom (by decide)
  exact ⟨fun k hk => (hshift k hk).2, hpow.mpr le_rfl, mt hshl.mp (lt_irrefl _)⟩

/-- One power of two has more digits than the limit, and the shift that would give it is refused. -/
theorem two_pow_limit_passes_limit :
    ∃ k : Int, Integer.pow 2 (2 ^ 26) = .ok (.integer k) ∧ 2 ^ 26 < k.natAbs.size ∧
      Integer.shift true 1 (Fixnum.word (2 ^ 26)) = .error .shiftTooWide := by
  have he : (0 : Int) ≤ 2 ^ 26 := by norm_num
  have hpow : Integer.pow 2 (2 ^ 26) = _ := pow_eq he
  rw [if_pos ((affordable_two_iff he).mpr le_rfl)] at hpow
  refine ⟨_, hpow, ?_, by decide⟩
  rw [size_two_pow]
  norm_num

end Methods

end ObjectMachine
