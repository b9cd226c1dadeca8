import Mathlib.Tactic
import ObjectMachine.Proofs.Number.Integer

/-! Equality and hashes of numbers.

The extent of a number is its exact value, whatever its kind: a whole number of units of 2⁻¹⁰⁷⁴, an
infinity, or nothing at all for a NaN.  Two numbers compare equal exactly if they have the same
extent and it is not that of a NaN.  A hash depends on the extent alone, so numbers of different kinds
that compare equal have the same hash. -/

namespace ObjectMachine

/-- The exact value of a number. -/
inductive Extent where
  | nan
  | infinite (negative : Bool)
  | units (n : Int)
  deriving DecidableEq

namespace Binary64

variable {x y : Binary64}

/-! ### The bits of a finite number -/

theorem unitsPerOne_pos : 0 < unitsPerOne := by
  have hshift : ∀ k, 0 < 1 <<< k := fun k => by
    rw [Nat.shiftLeft_eq, one_mul]
    exact Nat.two_pow_pos k
  exact hshift 1074

/-- The fields of a number by division. -/
theorem fields (x : Binary64) : (x.signBit = true ↔ 9223372036854775808 ≤ x.bits.toNat) ∧
    x.exponentField = x.bits.toNat / 4503599627370496 % 2048 ∧
    x.fraction = x.bits.toNat % 4503599627370496 :=
  ⟨decide_eq_true_iff, rfl, rfl⟩

theorem fraction_lt (x : Binary64) : x.fraction < 2 ^ 52 := Nat.mod_lt _ (by decide)

/-- A number is its sign, its exponent and its fraction. -/
theorem eq_of_fields (hsign : x.signBit = y.signBit) (hexp : x.exponentField = y.exponentField)
    (hfrac : x.fraction = y.fraction) : x = y := by
  have hbits : x.bits.toNat = y.bits.toNat := by
    have hx := x.bits.toNat_lt
    have hy := y.bits.toNat_lt
    obtain ⟨hsx, hex, hfx⟩ := x.fields
    obtain ⟨hsy, hey, hfy⟩ := y.fields
    rw [hsign, hsy] at hsx
    omega
  exact congrArg Binary64.mk (UInt64.toNat_inj.mp hbits)

/-- A positive exponent field scales a significand of 53 digits. -/
theorem magnitude_bounds {e : Nat} (he : x.exponentField = e + 1) :
    x.magnitude = (x.fraction + 2 ^ 52) * 2 ^ e ∧ 2 ^ (52 + e) ≤ x.magnitude ∧
      x.magnitude < 2 ^ (53 + e) := by
  have hmag : x.magnitude = (x.fraction + 2 ^ 52) * 2 ^ e := by
    unfold magnitude
    rw [he]
    exact Nat.shiftLeft_eq _ _
  have hlt := x.fraction_lt
  have hpow : 0 < 2 ^ e := by positivity
  refine ⟨hmag, ?_, ?_⟩
  · rw [hmag, pow_add]
    exact Nat.mul_le_mul_right _ (by omega)
  · rw [hmag, pow_add]
    exact Nat.mul_lt_mul_of_pos_right (by omega) hpow

theorem magnitude_of_subnormal (he : x.exponentField = 0) : x.magnitude = x.fraction := by
  unfold magnitude
  rw [he]

/-- A larger exponent field means a larger magnitude. -/
theorem magnitude_lt_of_exponentField_lt (h : x.exponentField < y.exponentField) :
    x.magnitude < y.magnitude := by
  obtain ⟨e, he⟩ : ∃ e, y.exponentField = e + 1 := ⟨y.exponentField - 1, by omega⟩
  have hy := (magnitude_bounds he).2.1
  refine Nat.lt_of_lt_of_le ?_ hy
  cases hx : x.exponentField with
  | zero =>
    rw [magnitude_of_subnormal hx]
    exact Nat.lt_of_lt_of_le x.fraction_lt (Nat.pow_le_pow_right (by decide) (by omega))
  | succ d =>
    refine Nat.lt_of_lt_of_le (magnitude_bounds hx).2.2 (Nat.pow_le_pow_right (by decide) (by omega))

/-- The magnitude says exponent and fraction. -/
theorem fields_of_magnitude_eq (h : x.magnitude = y.magnitude) :
    x.exponentField = y.exponentField ∧ x.fraction = y.fraction := by
  have hexp : x.exponentField = y.exponentField := by
    rcases lt_trichotomy x.exponentField y.exponentField with hlt | heq | hgt
    · exact absurd h (magnitude_lt_of_exponentField_lt hlt).ne
    · exact heq
    · exact absurd h (magnitude_lt_of_exponentField_lt hgt).ne'
  refine ⟨hexp, ?_⟩
  cases hx : x.exponentField with
  | zero => rwa [magnitude_of_subnormal hx, magnitude_of_subnormal (hexp ▸ hx)] at h
  | succ e =>
    rw [(magnitude_bounds hx).1, (magnitude_bounds (hexp ▸ hx)).1] at h
    exact Nat.add_right_cancel (Nat.eq_of_mul_eq_mul_right (by positivity) h)

/-- Numbers with the same exact value have the same bits, zeros apart. -/
theorem eq_of_units_eq (h : x.units = y.units) (hne : x.units ≠ 0) : x = y := by
  have hcases : x.signBit = y.signBit ∧ x.magnitude = y.magnitude := by
    unfold units at h hne
    cases hx : x.signBit <;> cases hy : y.signBit <;> simp [hx, hy] at h hne ⊢ <;> omega
  obtain ⟨hexp, hfrac⟩ := fields_of_magnitude_eq hcases.2
  exact eq_of_fields hcases.1 hexp hfrac

/-! ### Extents of doubles -/

/-- The exact value that the bits encode. -/
def extent (x : Binary64) : Extent :=
  if x.isNaN then .nan else if x.isInfinite then .infinite x.signBit else .units x.units

theorem compare?_eq_iff : compare? x y = some .eq ↔ x.extent = y.extent ∧ x.extent ≠ .nan := by
  unfold compare? extent
  cases hx : x.isNaN <;> cases hy : y.isNaN <;> cases hx' : x.isInfinite <;>
    cases hy' : y.isInfinite <;> cases hs : x.signBit <;> cases hs' : y.signBit <;>
    simp

/-- Infinities of the same sign have the same bits. -/
theorem eq_of_infinite (hx : x.isInfinite = true) (hy : y.isInfinite = true)
    (h : x.signBit = y.signBit) : x = y := by
  simp only [isInfinite, Bool.and_eq_true, beq_iff_eq] at hx hy
  exact eq_of_fields h (hx.1.trans hy.1.symm) (hx.2.trans hy.2.symm)

/-- Doubles with the same exact value have the same bits, zeros apart. -/
theorem eq_of_extent_eq (h : x.extent = y.extent) (hnan : x.extent ≠ .nan)
    (hzero : x.extent ≠ .units 0) : x = y := by
  have hcases : ∀ z : Binary64, z.extent ≠ .nan →
      z.isInfinite = true ∧ z.extent = .infinite z.signBit ∨ z.extent = .units z.units := by
    intro z hz
    unfold extent at hz ⊢
    cases hn : z.isNaN <;> cases hi : z.isInfinite <;> simp [hn] at hz ⊢
  rcases hcases x hnan with ⟨hxi, hx⟩ | hx <;> rcases hcases y (h ▸ hnan) with ⟨hyi, hy⟩ | hy
  · exact eq_of_infinite hxi hyi (by simpa [hx, hy] using h)
  · simp [hx, hy] at h
  · simp [hx, hy] at h
  · exact eq_of_units_eq (by simpa [hx, hy] using h) (by simpa [hx] using hzero)

end Binary64

namespace Number

open Binary64

/-- The exact value of a number. -/
def extent : Number → Extent
  | .fixed n => .units (n * unitsPerOne)
  | .big n => .units (n * unitsPerOne)
  | .float x => x.extent

theorem compareIntFloat?_eq_iff {n : Int} {x : Binary64} :
    compareIntFloat? n x = some .eq ↔ x.extent = .units (n * unitsPerOne) := by
  have hpos : (0 : Int) < unitsPerOne := by exact_mod_cast unitsPerOne_pos
  unfold compareIntFloat? Binary64.extent
  generalize (unitsPerOne : Int) = u at hpos ⊢
  cases hn : x.isNaN with
  | true => simp
  | false =>
    cases hi : x.isInfinite with
    | true => cases x.signBit <;> simp
    | false =>
      simp only [Bool.false_eq_true, if_false, Extent.units.injEq]
      have hdiv := Int.ediv_mul_add_emod x.units u
      cases hc : compare n (x.units / u) with
      | lt =>
        have hlt := compare_lt_iff_lt.mp hc
        simp only [Option.some.injEq, reduceCtorEq, false_iff]
        intro h
        rw [h, Int.mul_ediv_cancel _ hpos.ne'] at hlt
        exact lt_irrefl _ hlt
      | gt =>
        have hgt := compare_gt_iff_gt.mp hc
        simp only [Option.some.injEq, reduceCtorEq, false_iff]
        intro h
        rw [h, Int.mul_ediv_cancel _ hpos.ne'] at hgt
        exact lt_irrefl _ hgt
      | eq =>
        have heq := compare_eq_iff_eq.mp hc
        subst heq
        by_cases hz : x.units % u = 0
        · simp only [hz, add_zero] at hdiv
          simp [hz, hdiv]
        · simp only [beq_iff_eq, hz, if_false, Option.some.injEq, reduceCtorEq, false_iff]
          intro h
          omega

/-- Numbers compare equal if they have the same exact value. -/
theorem compare?_eq_iff (a b : Number) :
    compare? a b = some .eq ↔ a.extent = b.extent ∧ a.extent ≠ .nan := by
  have hunits : ∀ (n : Int) (x : Binary64), x.extent = .units (n * unitsPerOne) ↔
      Extent.units (n * unitsPerOne) = x.extent ∧ Extent.units (n * unitsPerOne) ≠ .nan := by
    intro n x
    rw [eq_comm, and_iff_left nofun]
  have hswap : ∀ o : Option Ordering, o.map Ordering.swap = some .eq ↔ o = some .eq := by
    rintro (_ | _ | _ | _) <;> decide
  have hpos : (unitsPerOne : Int) ≠ 0 := by exact_mod_cast unitsPerOne_pos.ne'
  have hints : ∀ n k : Int, some (Ord.compare n k) = some .eq ↔
      Extent.units (n * unitsPerOne) = .units (k * unitsPerOne) ∧
        Extent.units (n * unitsPerOne) ≠ .nan := by
    intro n k
    rw [and_iff_left nofun, Option.some.injEq, compare_eq_iff_eq, Extent.units.injEq,
      mul_left_inj' hpos]
  cases a with
  | fixed n =>
    cases b with
    | fixed k => exact hints n k
    | big k => exact hints n k
    | float y => exact compareIntFloat?_eq_iff.trans (hunits n y)
  | big n =>
    cases b with
    | fixed k => exact hints n k
    | big k => exact hints n k
    | float y => exact compareIntFloat?_eq_iff.trans (hunits n y)
  | float x =>
    have hfloat : ∀ k : Int, (compareIntFloat? k x).map Ordering.swap = some .eq ↔
        x.extent = .units (k * unitsPerOne) ∧ x.extent ≠ .nan := by
      intro k
      rw [hswap, compareIntFloat?_eq_iff]
      exact ⟨fun h => ⟨h, by rw [h]; nofun⟩, And.left⟩
    cases b with
    | fixed k => exact hfloat k
    | big k => exact hfloat k
    | float y => exact Binary64.compare?_eq_iff

/-! ### Hashes -/

/-- A number in the form in which numbers are stored: only integers beyond the range of fixnums are
boxed. -/
def Stored : Number → Prop
  | .fixed n => -2 ^ 62 ≤ n ∧ n < 2 ^ 62
  | .big n => ¬ (-2 ^ 62 ≤ n ∧ n < 2 ^ 62)
  | .float _ => True

theorem integralHash_of_fits {n : Int} (h : -2 ^ 62 ≤ n ∧ n < 2 ^ 62) : integralHash n = n := by
  rw [integralHash, if_pos (Value.fitsFixnum_iff.mpr h)]

theorem integralHash_of_not_fits {n : Int} (h : ¬ (-2 ^ 62 ≤ n ∧ n < 2 ^ 62)) :
    integralHash n = bigHash n := by
  rw [integralHash, if_neg (mt Value.fitsFixnum_iff.mp h)]

theorem toInt?_eq_some_iff {x : Binary64} {n : Int} :
    x.toInt? = some n ↔ x.extent = .units (n * unitsPerOne) := by
  have hpos : (0 : Int) < unitsPerOne := by exact_mod_cast unitsPerOne_pos
  have hfinite : x.isFinite = true ↔ x.isNaN = false ∧ x.isInfinite = false := by
    by_cases he : x.exponentField = 2047 <;> by_cases hf : x.fraction = 0 <;>
      simp [isFinite, isNaN, isInfinite, he, hf]
  unfold Binary64.toInt? Binary64.extent
  generalize (unitsPerOne : Int) = u at hpos ⊢
  have hdiv := Int.ediv_mul_add_emod x.units u
  cases hn : x.isNaN <;> cases hi : x.isInfinite <;> simp [hn, hi] at hfinite ⊢ <;> simp [hfinite]
  constructor
  · rintro ⟨hz, rfl⟩
    rw [Int.ediv_mul_cancel hz]
  · intro h
    rw [h]
    exact ⟨Dvd.intro_left n rfl, Int.mul_ediv_cancel _ hpos.ne'⟩

/-- The hash of a number that is integral. -/
theorem Stored.hash_of_integral {a : Number} (ha : a.Stored) {n : Int}
    (h : a.extent = .units (n * unitsPerOne)) : a.hash = integralHash n := by
  have hpos : (unitsPerOne : Int) ≠ 0 := by exact_mod_cast unitsPerOne_pos.ne'
  cases a with
  | fixed k =>
    obtain rfl : k = n := mul_right_cancel₀ hpos (Extent.units.inj h)
    exact (integralHash_of_fits ha).symm
  | big k =>
    obtain rfl : k = n := mul_right_cancel₀ hpos (Extent.units.inj h)
    exact (integralHash_of_not_fits ha).symm
  | float x => rw [hash, toInt?_eq_some_iff.mpr h]

/-- Numbers with the same exact value have the same hash. -/
theorem hash_eq_of_extent_eq {a b : Number} (ha : a.Stored) (hb : b.Stored)
    (h : a.extent = b.extent) (hnan : a.extent ≠ .nan) : a.hash = b.hash := by
  by_cases hint : ∃ n : Int, a.extent = .units (n * unitsPerOne)
  · obtain ⟨n, hn⟩ := hint
    rw [ha.hash_of_integral hn, hb.hash_of_integral (h ▸ hn)]
  · have hfloat : ∀ c : Number, c.extent = a.extent → ∃ x, c = .float x := by
      intro c hc
      cases c with
      | fixed n => exact absurd ⟨n, hc.symm⟩ hint
      | big n => exact absurd ⟨n, hc.symm⟩ hint
      | float x => exact ⟨x, rfl⟩
    obtain ⟨x, rfl⟩ := hfloat a rfl
    obtain ⟨y, rfl⟩ := hfloat b h.symm
    rw [Binary64.eq_of_extent_eq h hnan fun hzero => hint ⟨0, by rw [zero_mul]; exact hzero⟩]

/-- A folded word is a fixnum. -/
theorem foldWord_fits (w : UInt64) : -2 ^ 62 ≤ foldWord w ∧ foldWord w < 2 ^ 62 := by
  have hmod : (w % 4611686018427387904).toNat < 4611686018427387904 := by
    rw [UInt64.toNat_mod]
    exact Nat.mod_lt _ (by decide)
  unfold foldWord
  omega

theorem bigHash_fits (n : Int) : -2 ^ 62 ≤ bigHash n ∧ bigHash n < 2 ^ 62 := by
  have hmod : n.natAbs % hashModulus < 2305843009213693951 := Nat.mod_lt _ (by decide)
  unfold bigHash
  dsimp only
  split <;> omega

theorem integralHash_fits (n : Int) : -2 ^ 62 ≤ integralHash n ∧ integralHash n < 2 ^ 62 := by
  by_cases hn : -2 ^ 62 ≤ n ∧ n < 2 ^ 62
  · rwa [integralHash_of_fits hn]
  · rw [integralHash_of_not_fits hn]
    exact bigHash_fits n

/-- The hash of a stored number is a fixnum. -/
theorem Stored.hash_fits {a : Number} (ha : a.Stored) : -2 ^ 62 ≤ a.hash ∧ a.hash < 2 ^ 62 := by
  cases a with
  | fixed n => exact ha
  | big n => exact bigHash_fits n
  | float x =>
    rw [hash]
    cases x.toInt? with
    | some n => exact integralHash_fits n
    | none => exact foldWord_fits _

end Number

end ObjectMachine
