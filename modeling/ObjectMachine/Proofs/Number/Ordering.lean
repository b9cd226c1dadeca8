import Mathlib
import ObjectMachine.Proofs.Number.Equality

/-! The order of numbers is the order of their exact values.

The exact value of a number is a rational or one of two infinities; a NaN has none.  An integer is its
own value, a double the value that its sign, exponent and fraction encode.  Doubles are compared in
units of 2⁻¹⁰⁷⁴, an integer and a double through the floor of the double: both come down to the order
of the exact values, so that the order is total on all numbers but the NaNs, whatever their kinds. -/

namespace ObjectMachine

/-- The rationals with two infinities. -/
abbrev Extended := WithBot (WithTop ℚ)

namespace Extended

def ofRat (q : ℚ) : Extended := ((q : WithTop ℚ) : WithBot (WithTop ℚ))

/-- The order of two values, if there are two. -/
def cmp? (u v : Option Extended) : Option Ordering := u.bind fun p => v.map (cmp p)

theorem strictMono_ofRat : StrictMono ofRat := fun _ _ h =>
  WithBot.coe_lt_coe.mpr (WithTop.coe_lt_coe.mpr h)

theorem bot_lt_ofRat (q : ℚ) : ⊥ < ofRat q := WithBot.bot_lt_coe _

theorem ofRat_lt_top (q : ℚ) : ofRat q < ⊤ := WithBot.coe_lt_coe.mpr (WithTop.coe_lt_top q)

theorem cmp_ofRat (p q : ℚ) : cmp (ofRat p) (ofRat q) = cmp p q := strictMono_ofRat.cmp_map_eq p q

theorem cmp_bot_ofRat (q : ℚ) : cmp ⊥ (ofRat q) = .lt := (cmp_eq_lt_iff _ _).mpr (bot_lt_ofRat q)

theorem cmp_ofRat_bot (q : ℚ) : cmp (ofRat q) ⊥ = .gt := (cmp_eq_gt_iff _ _).mpr (bot_lt_ofRat q)

theorem cmp_ofRat_top (q : ℚ) : cmp (ofRat q) ⊤ = .lt := (cmp_eq_lt_iff _ _).mpr (ofRat_lt_top q)

theorem cmp_top_ofRat (q : ℚ) : cmp ⊤ (ofRat q) = .gt := (cmp_eq_gt_iff _ _).mpr (ofRat_lt_top q)

theorem cmp_bot_top : cmp (⊥ : Extended) ⊤ = .lt := (cmp_eq_lt_iff _ _).mpr bot_lt_top

theorem cmp_top_bot : cmp (⊤ : Extended) ⊥ = .gt := (cmp_eq_gt_iff _ _).mpr bot_lt_top

theorem cmp?_swap (u v : Option Extended) : cmp? v u = (cmp? u v).map Ordering.swap := by
  cases u with
  | none => cases v <;> rfl
  | some p =>
    cases v with
    | none => rfl
    | some q => exact congrArg some (cmp_swap p q).symm

theorem cmp_trans {p q r : Extended} (h : cmp p q = cmp q r ∨ cmp p q = .eq ∨ cmp q r = .eq) :
    cmp p r = (cmp p q).then (cmp q r) := by
  rcases lt_trichotomy p q with hpq | rfl | hpq
  · have hlt := (cmp_eq_lt_iff p q).mpr hpq
    rw [hlt] at h ⊢
    have hqr : q ≤ r := by
      rcases h with h | h | h
      · exact ((cmp_eq_lt_iff q r).mp h.symm).le
      · cases h
      · exact ((cmp_eq_eq_iff q r).mp h).le
    exact (cmp_eq_lt_iff p r).mpr (hpq.trans_le hqr)
  · rw [cmp_self_eq_eq]
    rfl
  · have hgt := (cmp_eq_gt_iff p q).mpr hpq
    rw [hgt] at h ⊢
    have hrq : r ≤ q := by
      rcases h with h | h | h
      · exact ((cmp_eq_gt_iff q r).mp h.symm).le
      · cases h
      · exact ((cmp_eq_eq_iff q r).mp h).ge
    exact (cmp_eq_gt_iff p r).mpr (hrq.trans_lt hpq)

theorem cmp?_trans {u v w : Option Extended} {o o' : Ordering} (h : cmp? u v = some o)
    (h' : cmp? v w = some o') (htrans : o = o' ∨ o = .eq ∨ o' = .eq) :
    cmp? u w = some (o.then o') := by
  obtain ⟨p, rfl, hp⟩ := Option.bind_eq_some_iff.mp h
  obtain ⟨q, rfl, rfl⟩ := Option.map_eq_some_iff.mp hp
  obtain ⟨r, rfl, rfl⟩ := Option.map_eq_some_iff.mp h'
  exact congrArg some (cmp_trans htrans)

end Extended

/-! ### The values of doubles -/

namespace Binary64

variable {x y : Binary64}

/-- The rational that the fields of a finite double encode: the fraction counts 2⁻⁵², a leading one is
added unless the exponent field is zero, and the exponent is 1023 less than the field. -/
def toRat (x : Binary64) : ℚ :=
  (if x.signBit then -1 else 1) *
    if x.exponentField = 0 then (x.fraction : ℚ) / 2 ^ 52 * 2 ^ (-1022 : ℤ)
    else (1 + (x.fraction : ℚ) / 2 ^ 52) * 2 ^ ((x.exponentField : ℤ) - 1023)

/-- The exact value of a double.  The greatest exponent field is kept for infinities and NaNs. -/
def value? (x : Binary64) : Option Extended :=
  if x.exponentField = 2047 then
    if x.fraction = 0 then some (if x.signBit then ⊥ else ⊤) else none
  else some (.ofRat x.toRat)

theorem unitsPerOne_eq : unitsPerOne = 2 ^ 1074 := by
  have hshift : ∀ k, 1 <<< k = 2 ^ k := fun k => by rw [Nat.shiftLeft_eq, one_mul]
  exact hshift 1074

/-- A rational given in units of 2⁻¹⁰⁷⁴. -/
def ofUnits (n : Int) : ℚ := n / unitsPerOne

theorem ofUnits_mul (n : Int) : ofUnits (n * unitsPerOne) = n := by
  have hne : (unitsPerOne : ℚ) ≠ 0 := by exact_mod_cast unitsPerOne_pos.ne'
  rw [ofUnits, Int.cast_mul, Int.cast_natCast, mul_div_cancel_right₀ _ hne]

theorem ofUnits_zero : ofUnits 0 = 0 := by rw [ofUnits, Int.cast_zero, zero_div]

theorem strictMono_ofUnits : StrictMono ofUnits := fun _ _ h =>
  div_lt_div_of_pos_right (Int.cast_lt.mpr h) (by exact_mod_cast unitsPerOne_pos)

theorem cmp_ofUnits (a b : Int) : cmp (ofUnits a) (ofUnits b) = cmp a b :=
  strictMono_ofUnits.cmp_map_eq a b

/-- The fields encode the units. -/
theorem toRat_eq_ofUnits (x : Binary64) : x.toRat = ofUnits x.units := by
  have hunits : (unitsPerOne : ℚ) = 2 ^ 1074 := by
    rw [unitsPerOne_eq, Nat.cast_pow, Nat.cast_ofNat]
  have hscale : (2 : ℚ) ^ (-1022 : ℤ) = 2 ^ 52 / 2 ^ 1074 := by
    rw [show (-1022 : ℤ) = (52 : ℕ) - (1074 : ℕ) by norm_num, zpow_sub₀ two_ne_zero, zpow_natCast,
      zpow_natCast]
  have hmag : (if x.exponentField = 0 then (x.fraction : ℚ) / 2 ^ 52 * 2 ^ (-1022 : ℤ)
      else (1 + (x.fraction : ℚ) / 2 ^ 52) * 2 ^ ((x.exponentField : ℤ) - 1023)) =
      (x.magnitude : ℚ) / unitsPerOne := by
    rw [hunits]
    cases he : x.exponentField with
    | zero =>
      rw [if_pos rfl, magnitude_of_subnormal he, hscale]
      field_simp
    | succ e =>
      have hexp : (2 : ℚ) ^ (((e + 1 : ℕ) : ℤ) - 1023) = 2 ^ e * (2 ^ 52 / 2 ^ 1074) := by
        rw [← hscale, show ((e + 1 : ℕ) : ℤ) - 1023 = (e : ℤ) + -1022 by push_cast; ring,
          zpow_add₀ two_ne_zero, zpow_natCast]
      rw [if_neg (Nat.succ_ne_zero e), (magnitude_bounds he).1, hexp]
      push_cast
      field_simp
      ring
  rw [toRat, hmag, ofUnits, units]
  cases x.signBit <;> simp [neg_div]

/-- A double is a NaN, an infinity or finite. -/
theorem value?_cases (x : Binary64) :
    (x.isNaN = true ∧ x.value? = none) ∨
      (x.isNaN = false ∧ x.isInfinite = true ∧ x.value? = some (if x.signBit then ⊥ else ⊤)) ∨
      x.isNaN = false ∧ x.isInfinite = false ∧ x.value? = some (.ofRat (ofUnits x.units)) := by
  unfold value? isNaN isInfinite
  rw [toRat_eq_ofUnits]
  by_cases he : x.exponentField = 2047 <;> by_cases hf : x.fraction = 0 <;> simp [he, hf]

/-- The order of doubles is that of their exact values. -/
theorem compare?_eq_cmp? (x y : Binary64) : compare? x y = Extended.cmp? x.value? y.value? := by
  rcases x.value?_cases with ⟨hn, hv⟩ | ⟨hn, hi, hv⟩ | ⟨hn, hi, hv⟩
  · rw [compare?, hn, hv]
    rfl
  · rcases y.value?_cases with ⟨hn', hv'⟩ | ⟨hn', hi', hv'⟩ | ⟨hn', hi', hv'⟩
    · rw [compare?, hn', Bool.or_true, hv, hv']
      rfl
    · rw [compare?, hn, hn', hi, hi', hv, hv']
      refine congrArg some ?_
      cases x.signBit <;> cases y.signBit
      · exact (cmp_self_eq_eq _).symm
      · exact Extended.cmp_top_bot.symm
      · exact Extended.cmp_bot_top.symm
      · exact (cmp_self_eq_eq _).symm
    · rw [compare?, hn, hn', hi, hi', hv, hv']
      refine congrArg some ?_
      cases x.signBit
      · exact (Extended.cmp_top_ofRat _).symm
      · exact (Extended.cmp_bot_ofRat _).symm
  · rcases y.value?_cases with ⟨hn', hv'⟩ | ⟨hn', hi', hv'⟩ | ⟨hn', hi', hv'⟩
    · rw [compare?, hn', Bool.or_true, hv, hv']
      rfl
    · rw [compare?, hn, hn', hi, hi', hv, hv']
      refine congrArg some ?_
      cases y.signBit
      · exact (Extended.cmp_ofRat_top _).symm
      · exact (Extended.cmp_ofRat_bot _).symm
    · have hcmp : cmp (Extended.ofRat (ofUnits x.units)) (.ofRat (ofUnits y.units)) =
          compare x.units y.units := by
        rw [Extended.cmp_ofRat, cmp_ofUnits, cmp_eq_compare]
      rw [compare?, hn, hn', hi, hi', hv, hv']
      exact congrArg some hcmp.symm

end Binary64

/-! ### The values of numbers -/

namespace Number

open Binary64

/-- The exact value of a number. -/
def value? : Number → Option Extended
  | .fixed n => some (.ofRat n)
  | .big n => some (.ofRat n)
  | .float x => x.value?

/-- The floor of a double decides its order against an integer. -/
theorem compare_floor {n k u : Int} (hu : 0 < u) :
    (match compare n (k / u) with
      | .eq => some (if k % u == 0 then Ordering.eq else .lt)
      | o => some o) = some (cmp (n * u) k) := by
  have hdiv := Int.ediv_mul_add_emod k u
  have hmod := Int.emod_nonneg k hu.ne'
  cases hc : compare n (k / u) with
  | lt =>
    have hle : (n + 1) * u ≤ k := (Int.le_ediv_iff_mul_le hu).mp (compare_lt_iff_lt.mp hc)
    exact congrArg some ((cmp_eq_lt_iff _ _).mpr (by linarith)).symm
  | gt =>
    have hlt : k < n * u := (Int.ediv_lt_iff_lt_mul hu).mp (compare_gt_iff_gt.mp hc)
    exact congrArg some ((cmp_eq_gt_iff _ _).mpr hlt).symm
  | eq =>
    obtain rfl := compare_eq_iff_eq.mp hc
    by_cases hz : k % u = 0
    · simp only [hz, beq_self_eq_true, if_true]
      exact congrArg some ((cmp_eq_eq_iff _ _).mpr (by omega)).symm
    · simp only [beq_iff_eq, hz, if_false]
      exact congrArg some ((cmp_eq_lt_iff _ _).mpr (by omega)).symm

/-- The order of an integer and a double is that of their exact values. -/
theorem compareIntFloat?_eq_cmp? (n : Int) (x : Binary64) :
    compareIntFloat? n x = Extended.cmp? (some (.ofRat n)) x.value? := by
  have hpos : (0 : Int) < unitsPerOne := by exact_mod_cast unitsPerOne_pos
  unfold compareIntFloat? Extended.cmp?
  rcases x.value?_cases with ⟨hn, hv⟩ | ⟨hn, hi, hv⟩ | ⟨hn, hi, hv⟩
  · rw [if_pos hn, hv]
    rfl
  · rw [hn, if_neg Bool.false_ne_true, if_pos hi, hv]
    cases x.signBit
    · exact congrArg some (Extended.cmp_ofRat_top _).symm
    · exact congrArg some (Extended.cmp_ofRat_bot _).symm
  · have hcmp : cmp (Extended.ofRat n) (.ofRat (ofUnits x.units)) = cmp (n * unitsPerOne) x.units := by
      rw [Extended.cmp_ofRat, ← ofUnits_mul n, cmp_ofUnits]
    rw [hn, if_neg Bool.false_ne_true, hi, if_neg Bool.false_ne_true, hv, Option.bind_some,
      Option.map_some, hcmp]
    exact compare_floor hpos

/-- The order of numbers of any kinds is that of their exact values. -/
theorem compare?_eq_cmp? (a b : Number) : compare? a b = Extended.cmp? a.value? b.value? := by
  have hints : ∀ n k : Int,
      some (compare n k) = Extended.cmp? (some (.ofRat n)) (some (.ofRat k)) := by
    intro n k
    have hmono : StrictMono (Int.cast : ℤ → ℚ) := Int.cast_strictMono
    rw [← cmp_eq_compare, ← hmono.cmp_map_eq n k, ← Extended.cmp_ofRat]
    rfl
  have hreverse : ∀ (n : Int) (x : Binary64), (compareIntFloat? n x).map Ordering.swap =
      Extended.cmp? x.value? (some (.ofRat n)) := by
    intro n x
    rw [compareIntFloat?_eq_cmp?, ← Extended.cmp?_swap]
  cases a with
  | fixed n =>
    cases b with
    | fixed k => exact hints n k
    | big k => exact hints n k
    | float y => exact compareIntFloat?_eq_cmp? n y
  | big n =>
    cases b with
    | fixed k => exact hints n k
    | big k => exact hints n k
    | float y => exact compareIntFloat?_eq_cmp? n y
  | float x =>
    cases b with
    | fixed k => exact hreverse k x
    | big k => exact hreverse k x
    | float y => exact Binary64.compare?_eq_cmp? x y

/-- Only NaNs have no value. -/
theorem value?_eq_none_iff {a : Number} :
    a.value? = none ↔ ∃ x : Binary64, a = .float x ∧ x.isNaN = true := by
  cases a with
  | fixed n => simp [value?]
  | big n => simp [value?]
  | float x =>
    rcases x.value?_cases with ⟨hn, hv⟩ | ⟨hn, -, hv⟩ | ⟨hn, -, hv⟩ <;> simp [value?, hn, hv]

end Number

/-! ### The comparisons -/

namespace Comparison

/-- The selector of a comparison. -/
def symbol : Comparison → String
  | .order => "<=>"
  | .equal => "=="
  | .notEqual => "!="
  | .less => "<"
  | .lessEqual => "<="
  | .greater => ">"
  | .greaterEqual => ">="

/-- What a comparison answers to two exact values.  Beside a NaN there is no order, and of the other
comparisons only `!=` is true. -/
def answer : Comparison → Option Extended → Option Extended → Value
  | .order, some u, some v => .ofInt (if u < v then -1 else if u = v then 0 else 1)
  | .equal, some u, some v => .ofBool (u = v)
  | .notEqual, some u, some v => .ofBool (u ≠ v)
  | .less, some u, some v => .ofBool (u < v)
  | .lessEqual, some u, some v => .ofBool (u ≤ v)
  | .greater, some u, some v => .ofBool (v < u)
  | .greaterEqual, some u, some v => .ofBool (v ≤ u)
  | .order, _, _ => .nil
  | .notEqual, _, _ => .ofBool true
  | _, _, _ => .ofBool false

/-- What a comparison makes of an order. -/
def ofOrder : Comparison → Option Ordering → Value
  | .order, some .lt => .ofInt (-1)
  | .order, some .eq => .ofInt 0
  | .order, some .gt => .ofInt 1
  | .order, none => .nil
  | c, o => .ofBool (Number.holds c o)

theorem ofOrder_cmp? (c : Comparison) (u v : Option Extended) :
    c.ofOrder (Extended.cmp? u v) = c.answer u v := by
  cases u with
  | none => cases c <;> rfl
  | some p =>
    cases v with
    | none => cases c <;> rfl
    | some q =>
      have hcmp : Extended.cmp? (some p) (some q) = some (cmp p q) := rfl
      rw [hcmp]
      rcases lt_trichotomy p q with h | rfl | h
      · rw [(cmp_eq_lt_iff p q).mpr h]
        cases c <;> simp [ofOrder, answer, Number.holds, bne, h, h.ne, h.le, h.not_gt, h.not_ge]
      · rw [cmp_self_eq_eq]
        cases c <;> simp [ofOrder, answer, Number.holds]
      · rw [(cmp_eq_gt_iff p q).mpr h]
        cases c <;> simp [ofOrder, answer, Number.holds, bne, h, h.ne', h.le, h.not_gt, h.not_ge]

end Comparison

namespace Effect

open Machine

variable {m : Machine} {x y : Value} {a b : Number}

theorem numberOrder_of_number? (hx : m.number? x = some a) (hy : m.number? y = some b) :
    numberOrder x y m = .ok (Number.compare? a b) m := by
  have hleft : ask (·.number? x) m = .ok (some a) m := by rw [ask, hx]
  have hright : ask (·.number? y) m = .ok (some b) m := by rw [ask, hy]
  rw [numberOrder, bind_of_ok hleft, bind_of_ok hright]
  rfl

theorem numbersEqual_of_number? (hx : m.number? x = some a) (hy : m.number? y = some b) :
    numbersEqual x y m = .ok (Number.compare? a b == some .eq) m := by
  have hleft : ask (·.number? x) m = .ok (some a) m := by rw [ask, hx]
  have hright : ask (·.number? y) m = .ok (some b) m := by rw [ask, hy]
  rw [numbersEqual, bind_of_ok hleft, bind_of_ok hright]
  rfl

/-- A comparison of two numbers answers to the order of their exact values. -/
theorem compareNumbers_answer (hx : m.number? x = some a) (hy : m.number? y = some b)
    (c : Comparison) : compareNumbers c x [y] m = .ok (c.answer a.value? b.value?) m := by
  have horder := numberOrder_of_number? hx hy
  have hequal := numbersEqual_of_number? hx hy
  rw [← c.ofOrder_cmp?, ← Number.compare?_eq_cmp?]
  cases c with
  | equal => exact bind_of_ok hequal
  | notEqual => exact bind_of_ok hequal
  | order =>
    change (numberOrder x y >>= _) m = _
    rw [bind_of_ok horder]
    rcases Number.compare? a b with - | - | - | - <;> rfl
  | less => exact bind_of_ok horder
  | lessEqual => exact bind_of_ok horder
  | greater => exact bind_of_ok horder
  | greaterEqual => exact bind_of_ok horder

end Effect

/-- Numbers are compared by their exact values, whatever their kinds.  For every two numbers the order is
absent exactly if one of them is a NaN and is otherwise that of their values among the rationals with
two infinities; hence it turns around with the operands and is transitive.  Each of `<=>`, `==`, `!=`,
`<`, `<=`, `>` and `>=` answers what the values say, so that they are consistent with one another, and
leaves the machine as it is. -/
theorem comparisons_by_value (a b c : Number) :
    (Number.compare? a b = none ↔
      ∃ x : Binary64, x.isNaN = true ∧ (a = .float x ∨ b = .float x)) ∧
    (∀ u v, a.value? = some u → b.value? = some v → Number.compare? a b = some (cmp u v)) ∧
    Number.compare? b a = (Number.compare? a b).map Ordering.swap ∧
    (∀ o o', Number.compare? a b = some o → Number.compare? b c = some o' →
      o = o' ∨ o = .eq ∨ o' = .eq → Number.compare? a c = some (o.then o')) ∧
    ∀ (calls : Calls) (m : Machine) (x y : Value), m.number? x = some a → m.number? y = some b →
      ∀ comparison : Comparison, ∃ p, PrimitiveList.comparison.find? comparison.symbol = some p ∧
        p.perform calls x [y] m = .ok (comparison.answer a.value? b.value?) m := by
  simp only [Number.compare?_eq_cmp?]
  refine ⟨?_, ?_, Extended.cmp?_swap _ _, ?_, ?_⟩
  · have hnone : Extended.cmp? a.value? b.value? = none ↔ a.value? = none ∨ b.value? = none := by
      unfold Extended.cmp?
      cases a.value? <;> cases b.value? <;> simp
    rw [hnone, Number.value?_eq_none_iff, Number.value?_eq_none_iff]
    constructor
    · rintro (⟨x, ha, hn⟩ | ⟨x, hb, hn⟩)
      · exact ⟨x, hn, Or.inl ha⟩
      · exact ⟨x, hn, Or.inr hb⟩
    · rintro ⟨x, hn, ha | hb⟩
      · exact Or.inl ⟨x, ha, hn⟩
      · exact Or.inr ⟨x, hb, hn⟩
  · intro u v hu hv
    rw [hu, hv]
    rfl
  · intro o o' hab hbc htrans
    exact Extended.cmp?_trans hab hbc htrans
  · intro calls m x y hx hy comparison
    exact ⟨.compare comparison, by cases comparison <;> decide,
      Effect.compareNumbers_answer hx hy comparison⟩

/-- Infinity is above the double `2⁶²`, the bignum `2⁶² + 1` being between them, and seven is below that
bignum. -/
theorem comparisons_by_value_beyond_doubles :
    let start : Heap := { settings := {} }
    let m : Machine := { heap := start.insert .nil (.bignum (2 ^ 62 + 1)) }
    Number.compare? (.float (.infinity false)) (.float (.ofInt (2 ^ 62))) = some .gt ∧
      (Primitive.compare .less).perform .exhausted (.ofInt 7) [start.nextReference] m =
        .ok (.ofBool true) m := by
  intro start m
  obtain ⟨-, -, -, htrans, -⟩ := comparisons_by_value (.float (.infinity false))
    (.big (2 ^ 62 + 1)) (.float (.ofInt (2 ^ 62)))
  obtain ⟨-, -, -, -, hmethods⟩ := comparisons_by_value (.fixed 7) (.big (2 ^ 62 + 1)) (.fixed 0)
  refine ⟨htrans .gt .gt (by decide +kernel) (by decide +kernel) (Or.inl rfl), ?_⟩
  obtain ⟨p, hp, hperform⟩ :=
    hmethods .exhausted m (.ofInt 7) start.nextReference (by decide) (by decide) .less
  obtain rfl := Option.some.inj hp
  rw [hperform]
  have hlt : Extended.ofRat ((7 : Int) : ℚ) < .ofRat ((2 ^ 62 + 1 : Int) : ℚ) := by
    rw [← cmp_eq_lt_iff, Extended.cmp_ofRat, cmp_eq_lt_iff]
    norm_num
  exact congrArg (EStateM.Result.ok · m) (congrArg Value.ofBool (decide_eq_true hlt))

end ObjectMachine
