import Mathlib.Tactic
import ObjectMachine.Proofs.Number.Ordering
import ObjectMachine.Proofs.Number.Shifts

/-! Which operators raise which errors.

A binary operator is tried by one of three functions, which hand mixed operands to one another and look
for zeros, negative exponents and doubles each in its own way.  Whichever function it ends in, the
error depends on the exact values of the operands alone: operands that are no numbers or no integers
where integers are needed, a divisor that is zero, a negative power of zero, or a result that would be
too large.  In every other case there is a result. -/

namespace ObjectMachine

/-! ### Zeros and signs of doubles -/

namespace Binary64

variable {x : Binary64} {n : Int}

theorem isZero_iff_of_finite (hnan : x.isNaN = false) (hinf : x.isInfinite = false) :
    x.isZero = true ↔ x.magnitude = 0 := by
  have hfinite : x.isFinite = true := by
    by_cases he : x.exponentField = 2047 <;> by_cases hf : x.fraction = 0 <;>
      simp [isFinite, isNaN, isInfinite, he, hf] at hnan hinf ⊢
  rw [isZero, hfinite, Bool.true_and, beq_iff_eq]

theorem isZero_eq_false_of_infinite (h : x.isInfinite = true) : x.isZero = false := by
  have hexp : x.exponentField = 2047 := by
    rw [isInfinite, Bool.and_eq_true, beq_iff_eq] at h
    exact h.1
  rw [isZero, isFinite, hexp]
  rfl

theorem isZero_eq_false_of_nan (h : x.isNaN = true) : x.isZero = false := by
  have hexp : x.exponentField = 2047 := by
    rw [isNaN, Bool.and_eq_true, beq_iff_eq] at h
    exact h.1
  rw [isZero, isFinite, hexp]
  rfl

theorem ofRat_ofUnits_lt_zero_iff {u : Int} : Extended.ofRat (ofUnits u) < .ofRat 0 ↔ u < 0 := by
  rw [← ofUnits_zero, Extended.strictMono_ofRat.lt_iff_lt, strictMono_ofUnits.lt_iff_lt]

theorem ofRat_ofUnits_eq_zero_iff {u : Int} : Extended.ofRat (ofUnits u) = .ofRat 0 ↔ u = 0 := by
  rw [← ofUnits_zero, Extended.strictMono_ofRat.injective.eq_iff,
    strictMono_ofUnits.injective.eq_iff]

/-- A double is zero if its value is. -/
theorem isZero_iff : x.isZero = true ↔ x.value? = some (.ofRat 0) := by
  rcases x.value?_cases with ⟨hn, hv⟩ | ⟨hn, hi, hv⟩ | ⟨hn, hi, hv⟩
  · simp [isZero_eq_false_of_nan hn, hv]
  · have hbot : (⊥ : Extended) ≠ .ofRat 0 := (Extended.bot_lt_ofRat 0).ne
    have htop : (⊤ : Extended) ≠ .ofRat 0 := (Extended.ofRat_lt_top 0).ne'
    cases hs : x.signBit <;> simp [isZero_eq_false_of_infinite hi, hv, hs, hbot, htop]
  · rw [isZero_iff_of_finite hn hi, hv, Option.some.injEq, ofRat_ofUnits_eq_zero_iff, units]
    cases x.signBit <;> simp

/-- A double is below zero if its value is. -/
theorem negative_iff : (x.signBit && !x.isZero && !x.isNaN) = true ↔
    ∃ v, x.value? = some v ∧ v < .ofRat 0 := by
  rcases x.value?_cases with ⟨hn, hv⟩ | ⟨hn, hi, hv⟩ | ⟨hn, hi, hv⟩
  · simp [hn, hv]
  · have hbot : (⊥ : Extended) < .ofRat 0 := Extended.bot_lt_ofRat 0
    have htop : ¬ (⊤ : Extended) < .ofRat 0 := (Extended.ofRat_lt_top 0).not_gt
    cases hs : x.signBit <;> simp [isZero_eq_false_of_infinite hi, hn, hv, hs, hbot, htop]
  · have hzero := isZero_iff_of_finite hn hi
    have hlt : (∃ v, x.value? = some v ∧ v < .ofRat 0) ↔ x.units < 0 := by
      rw [hv, ← ofRat_ofUnits_lt_zero_iff]
      exact ⟨fun ⟨v, h, hlt⟩ => Option.some.inj h ▸ hlt, fun h => ⟨_, rfl, h⟩⟩
    rw [hlt, units, hn]
    cases hs : x.signBit
    · simp
    · cases hz : x.isZero <;> simp [hz] at hzero ⊢ <;> omega

theorem toNat_bits_ofSign (negative : Bool) {code : Nat} (h : code ≤ 2047 * 2 ^ 52) :
    (ofSign negative code).bits.toNat = code + if negative then 2 ^ 63 else 0 := by
  rw [ofSign, UInt64.toNat_ofNat']
  cases negative
  · exact Nat.mod_eq_of_lt (by simp; omega)
  · exact Nat.mod_eq_of_lt (by simp; omega)

/-- The fields of a double made of a sign and the code of a finite number or of infinity. -/
theorem fields_ofSign (negative : Bool) {code : Nat} (h : code ≤ 2047 * 2 ^ 52) :
    (ofSign negative code).signBit = negative ∧
      (ofSign negative code).exponentField = code / 2 ^ 52 ∧
      (ofSign negative code).fraction = code % 2 ^ 52 := by
  have hbits := toNat_bits_ofSign negative h
  obtain ⟨hsign, hexp, hfrac⟩ := (ofSign negative code).fields
  rw [hbits] at hsign hexp hfrac
  refine ⟨?_, ?_, ?_⟩
  · rw [Bool.eq_iff_iff, hsign]
    cases negative <;>
      simp only [if_true, if_false, Bool.false_eq_true, iff_true, iff_false] <;> omega
  · rw [hexp]
    cases negative <;> simp only [if_true, if_false, Bool.false_eq_true] <;> omega
  · rw [hfrac]
    cases negative <;> simp only [if_true, if_false, Bool.false_eq_true] <;> omega

theorem isNaN_ofSign (negative : Bool) {code : Nat} (h : code ≤ 2047 * 2 ^ 52) :
    (ofSign negative code).isNaN = false := by
  obtain ⟨-, hexp, hfrac⟩ := fields_ofSign negative h
  rw [isNaN, hexp, hfrac]
  by_cases htop : code / 2 ^ 52 = 2047
  · have hzero : code % 2 ^ 52 = 0 := by omega
    rw [hzero]
    exact Bool.and_false _
  · rw [beq_false_of_ne htop]
    rfl

theorem isZero_ofSign (negative : Bool) {code : Nat} (h : code ≤ 2047 * 2 ^ 52) :
    (ofSign negative code).isZero = true ↔ code = 0 := by
  obtain ⟨-, hexp, hfrac⟩ := fields_ofSign negative h
  rw [isZero, Bool.and_eq_true, beq_iff_eq, isFinite, hexp, bne_iff_ne]
  cases he : (ofSign negative code).exponentField with
  | zero =>
    rw [magnitude_of_subnormal he, hfrac]
    omega
  | succ e =>
    have hmag := (magnitude_bounds he).2.1
    have hpos : 0 < 2 ^ (52 + e) := by positivity
    omega

/-- The significand of a number that is not zero is not rounded to zero. -/
theorem nearestEven_pos {num : Nat} (h : num ≠ 0) :
    0 < nearestEven num (1 <<< (bitLength num - 53)) := by
  have hden : 1 <<< (bitLength num - 53) ≤ num := by
    rw [Nat.shiftLeft_eq, one_mul, bitLength, if_neg h]
    exact (Nat.pow_le_pow_right (by decide) (by omega)).trans (Nat.log2_self_le h)
  have hquotient : 1 ≤ num / 1 <<< (bitLength num - 53) := by
    refine (Nat.one_le_div_iff ?_).mpr hden
    rw [Nat.shiftLeft_eq, one_mul]
    positivity
  unfold nearestEven
  dsimp only
  split
  · exact hquotient
  · split <;> omega

/-- An integer is converted to zero only if it is zero, and keeps its sign. -/
theorem ofInt_fields (n : Int) : ((ofInt n).isZero = true ↔ n = 0) ∧
    ((ofInt n).signBit = true ↔ n < 0) ∧ (ofInt n).isNaN = false := by
  have hle : ∀ code : Nat, min code (2047 <<< 52) ≤ 2047 * 2 ^ 52 := fun code => min_le_right _ _
  rw [ofInt, ofRatio, ofUnitRatio, Nat.div_one]
  refine ⟨?_, ?_, isNaN_ofSign _ (hle _)⟩
  · rw [isZero_ofSign _ (hle _)]
    have hunits := unitsPerOne_pos
    constructor
    · intro hcode
      by_contra hn
      have hnum : n.natAbs * unitsPerOne ≠ 0 := Nat.mul_ne_zero (by omega) hunits.ne'
      have hpos := nearestEven_pos hnum
      omega
    · rintro rfl
      rw [Int.natAbs_zero, Nat.zero_mul]
      rfl
  · rw [(fields_ofSign _ (hle _)).1]
    exact decide_eq_true_iff

theorem negative_ofInt_iff (n : Int) :
    ((ofInt n).signBit && !(ofInt n).isZero && !(ofInt n).isNaN) = true ↔ n < 0 := by
  obtain ⟨hzero, hsign, hnan⟩ := ofInt_fields n
  rw [hnan, Bool.and_eq_true, Bool.and_eq_true, hsign, Bool.not_eq_true', ← Bool.not_eq_true, hzero]
  simp only [Bool.not_false, and_true]
  omega

end Binary64

/-! ### The failures of an operator -/

/-- The operators that need integers. -/
def BinOp.isBitwise : BinOp → Bool
  | .and | .or | .xor | .shl | .shr => true
  | _ => false

namespace Number

open Binary64 in
/-- Zeros of all kinds have the value zero. -/
theorem isZero_iff {a : Number} : a.isZero = true ↔ a.value? = some (.ofRat 0) := by
  have hint : ∀ n : Int, (n == 0) = true ↔ some (Extended.ofRat n) = some (.ofRat 0) := by
    intro n
    rw [beq_iff_eq, Option.some.injEq, Extended.strictMono_ofRat.injective.eq_iff, Int.cast_eq_zero]
  cases a with
  | fixed n => exact hint n
  | big n => exact hint n
  | float x => exact Binary64.isZero_iff

/-- A number below zero. -/
def IsNegative (a : Number) : Prop := ∃ v, a.value? = some v ∧ v < .ofRat 0

theorem isNegative_int {n : Int} : (∃ v, some (Extended.ofRat n) = some v ∧ v < .ofRat 0) ↔ n < 0 := by
  have hlt : Extended.ofRat n < .ofRat 0 ↔ n < 0 := by
    rw [Extended.strictMono_ofRat.lt_iff_lt, Int.cast_lt_zero]
  rw [← hlt]
  exact ⟨fun ⟨v, h, hv⟩ => Option.some.inj h ▸ hv, fun h => ⟨_, rfl, h⟩⟩

/-- The operator needs integers and an operand is a double. -/
def Mismatched (op : BinOp) (a b : Number) : Prop :=
  op.isBitwise = true ∧ (a.toInt? = none ∨ b.toInt? = none)

/-- The operator divides by zero or raises zero to a negative power. -/
def Undefined (op : BinOp) (a b : Number) : Prop :=
  divides op = true ∧ b.value? = some (.ofRat 0) ∨
    op = .pow ∧ a.value? = some (.ofRat 0) ∧ b.IsNegative

/-- The operands are integers and the power or the shifted integer would be too large. -/
def Oversized (op : BinOp) (a b : Number) : Prop :=
  ∃ n k, a.toInt? = some n ∧ b.toInt? = some k ∧
    (op = .pow ∧ 0 ≤ k ∧ ¬ Integer.Affordable n k ∨ op = .shl ∧ 0 ≤ k ∧ Integer.TooWide n k ∨
      op = .shr ∧ k ≤ 0 ∧ Integer.TooWide n (-k))

/-- The kind of the error of a computation that has no result. -/
def failure? {α : Type} : Except ArithmeticError α → Option ErrorKind
  | .ok _ => none
  | .error e => some e.kind

/-! #### Two integers -/

/-- The failures of an operator on integers. -/
def integerFailure? (op : BinOp) (n k : Int) : Option ErrorKind :=
  match op with
  | .div | .floorDiv | .mod => if k = 0 then some .zeroDivisionError else none
  | .pow =>
    if k < 0 then if n = 0 then some .zeroDivisionError else none
    else if Integer.Affordable n k then none else some .valueError
  | .shl => if 0 ≤ k ∧ Integer.TooWide n k then some .valueError else none
  | .shr => if k ≤ 0 ∧ Integer.TooWide n (-k) then some .valueError else none
  | _ => none

variable {op : BinOp} {n k : Int} {small : Bool}

theorem failure?_pow (n k : Int) : failure? (Integer.pow n k) = integerFailure? .pow n k := by
  unfold integerFailure?
  dsimp only
  by_cases hk : k < 0
  · unfold Integer.pow
    rw [if_pos hk, if_pos hk]
    split <;> rfl
  · rw [if_neg hk, Integer.pow_eq (not_lt.mp hk)]
    split <;> rfl

theorem failure?_shift (hsmall : small = true → -2 ^ 62 ≤ n ∧ n < 2 ^ 62) (w : BitVec 64) :
    failure? ((Integer.shift small n w).map Numeral.integer) =
      if 0 ≤ w.toInt ∧ Integer.TooWide n w.toInt then some .valueError else none := by
  by_cases hw : 0 ≤ w.toInt
  · rw [Integer.shift_of_nonneg hsmall hw]
    rcases Integer.shifted_cases n w.toInt with ⟨⟨i, hi⟩, hnot⟩ | ⟨herror, hwide⟩
    · rw [hi, if_neg hnot]
      rfl
    · rw [herror, if_pos hwide]
      rfl
  · have hslt : w.slt 0 = true := BitVec.slt_iff_toInt_lt.mpr (not_le.mp hw)
    rw [if_neg fun h => hw h.1, Integer.shift, if_pos hslt]
    rfl

theorem failure?_shl (small : Bool) (hsmall : small = true → -2 ^ 62 ≤ n ∧ n < 2 ^ 62) {w : BitVec 64}
    (hw : w.toInt = k ∨ w = Integer.width k) :
    failure? ((Integer.shift small n w).map Numeral.integer) = integerFailure? .shl n k := by
  have hcheck : (0 ≤ w.toInt ∧ Integer.TooWide n w.toInt) ↔ 0 ≤ k ∧ Integer.TooWide n k := by
    rcases hw with rfl | rfl
    · rfl
    · rw [Integer.toInt_width, Integer.TooWide, Integer.TooWide]
      omega
  rw [failure?_shift hsmall]
  exact if_congr hcheck rfl rfl

theorem failure?_shr (small : Bool) (hsmall : small = true → -2 ^ 62 ≤ n ∧ n < 2 ^ 62) {w : BitVec 64}
    (hw : w.toInt = -k ∨ w = Integer.opposite (Integer.width k)) :
    failure? ((Integer.shift small n w).map Numeral.integer) = integerFailure? .shr n k := by
  have hcheck : (0 ≤ w.toInt ∧ Integer.TooWide n w.toInt) ↔ k ≤ 0 ∧ Integer.TooWide n (-k) := by
    rcases hw with hw | rfl
    · rw [hw, neg_nonneg]
    · rw [Integer.toInt_opposite, Integer.toInt_width, Integer.TooWide, Integer.TooWide]
      omega
  rw [failure?_shift hsmall]
  exact if_congr hcheck rfl rfl

theorem failure?_bigBinary (op : BinOp) (n k : Int) :
    failure? (bigBinary op n k) = integerFailure? op n k := by
  have hdivides : ∀ op, divides op = true → integerFailure? op n k =
      (if k = 0 then some .zeroDivisionError else none) → (∃ r, integerBinary op n k = .ok r) →
      failure? (bigBinary op n k) = integerFailure? op n k := by
    rintro op hdiv hspec ⟨r, hr⟩
    rw [bigBinary, hdiv, Bool.true_and, hspec, hr]
    by_cases hk : k = 0 <;> simp [hk, failure?, ArithmeticError.kind]
  cases op with
  | div => exact hdivides .div rfl rfl ⟨_, rfl⟩
  | floorDiv => exact hdivides .floorDiv rfl rfl ⟨_, rfl⟩
  | mod => exact hdivides .mod rfl rfl ⟨_, rfl⟩
  | pow => exact failure?_pow n k
  | shl => exact failure?_shl false (fun h => absurd h Bool.false_ne_true) (Or.inr rfl)
  | shr => exact failure?_shr false (fun h => absurd h Bool.false_ne_true) (Or.inr rfl)
  | _ => rfl

theorem failure?_fixedBinary (op : BinOp) (hn : -2 ^ 62 ≤ n ∧ n < 2 ^ 62)
    (hk : -2 ^ 62 ≤ k ∧ k < 2 ^ 62) : failure? (fixedBinary op n k) = integerFailure? op n k := by
  cases op with
  | pow => exact failure?_pow n k
  | shl =>
    exact failure?_shl true (fun _ => hn) (Or.inl (Fixnum.toInt_word (by omega)))
  | shr =>
    have hword : (-Fixnum.word k).toInt = -k := by
      rw [BitVec.toInt_neg, Fixnum.toInt_word (by omega), Int.bmod_eq_of_le (by omega) (by omega)]
    exact failure?_shr true (fun _ => hn) (Or.inl hword)
  | _ => by_cases hzero : k = 0 <;> simp [fixedBinary, divides, hzero, failure?, integerFailure?,
      ArithmeticError.kind]

/-! #### A double and a number -/

/-- The failures of an operator on a double, by what is zero and what is negative. -/
def floatFailure? (op : BinOp) (leftZero rightZero rightNegative : Bool) : Option ErrorKind :=
  match op with
  | .div | .floorDiv | .mod => if rightZero then some .zeroDivisionError else none
  | .pow => if leftZero && rightNegative then some .zeroDivisionError else none
  | .and | .or | .xor | .shl | .shr => some .typeError
  | _ => none

theorem failure?_floatBinary (op : BinOp) (x : Binary64) (right : Number) :
    failure? (floatBinary op x right) = floatFailure? op x.isZero right.isZero
      (right.toBinary64.signBit && !right.toBinary64.isZero && !right.toBinary64.isNaN) := by
  cases op with
  | pow =>
    simp only [floatBinary, divides, Bool.false_and, Bool.false_eq_true, if_false, floatFailure?,
      ← Bool.and_assoc]
    split <;> rfl
  | _ => cases hz : right.isZero <;> simp [floatBinary, divides, hz, failure?, floatFailure?,
      ArithmeticError.kind]

/-! #### All operands -/

variable {a b : Number}

theorem value?_of_toInt? (h : a.toInt? = some n) : a.value? = some (.ofRat n) := by
  cases a with
  | float x => cases h
  | _ => exact congrArg (fun i : Int => some (Extended.ofRat i)) (Option.some.inj h)

/-- The double nearest to a number is below zero if the number is. -/
theorem isNegative_iff : (b.toBinary64.signBit && !b.toBinary64.isZero && !b.toBinary64.isNaN) = true ↔
    b.IsNegative := by
  cases b with
  | fixed k => exact (Binary64.negative_ofInt_iff k).trans isNegative_int.symm
  | big k => exact (Binary64.negative_ofInt_iff k).trans isNegative_int.symm
  | float x => exact Binary64.negative_iff

/-- What the error of a failure says of the operands. -/
structure Explains (op : BinOp) (a b : Number) (failure : Option ErrorKind) : Prop where
  mismatched : failure = some .typeError ↔ Mismatched op a b
  undefined : failure = some .zeroDivisionError ↔ Undefined op a b
  oversized : failure = some .valueError ↔ Oversized op a b

theorem explains_integerFailure? (ha : a.toInt? = some n) (hb : b.toInt? = some k) :
    Explains op a b (integerFailure? op n k) := by
  have hzero : ∀ {c : Number} {i : Int}, c.toInt? = some i → (c.value? = some (.ofRat 0) ↔ i = 0) := by
    intro c i hc
    rw [value?_of_toInt? hc, Option.some.injEq, Extended.strictMono_ofRat.injective.eq_iff,
      Int.cast_eq_zero]
  have hnegative : b.IsNegative ↔ k < 0 := by
    rw [IsNegative, value?_of_toInt? hb, isNegative_int]
  constructor
  · have hnot : ¬ Mismatched op a b := by simp [Mismatched, ha, hb]
    refine iff_of_false ?_ hnot
    cases op <;> unfold integerFailure? <;> grind
  · rw [Undefined, hzero ha, hzero hb, hnegative]
    cases op <;> unfold integerFailure? divides <;> grind
  · simp only [Oversized, ha, hb, Option.some.injEq]
    cases op <;> unfold integerFailure? <;> grind

theorem explains_floatFailure? {rightNegative : Bool} (h : a.toInt? = none ∨ b.toInt? = none)
    (hnegative : rightNegative = true ↔ b.IsNegative) :
    Explains op a b (floatFailure? op a.isZero b.isZero rightNegative) := by
  constructor
  · rw [Mismatched, and_iff_left h]
    cases op <;> unfold floatFailure? BinOp.isBitwise <;> grind
  · rw [Undefined, ← isZero_iff, ← isZero_iff, ← hnegative]
    cases op <;> unfold floatFailure? divides <;> grind
  · have hnot : ¬ Oversized op a b := by
      rintro ⟨n, k, ha, hb, -⟩
      rw [ha, hb] at h
      exact h.elim nofun nofun
    refine iff_of_false ?_ hnot
    cases op <;> unfold floatFailure? <;> grind

/-- A number that is a fixnum only if it is in the range of fixnums. -/
def InRange (a : Number) : Prop := ∀ n, a = .fixed n → -2 ^ 62 ≤ n ∧ n < 2 ^ 62

/-- Operands of all kinds fail for the same reasons. -/
theorem explains_binary (op : BinOp) (ha : a.InRange) (hb : b.InRange) :
    Explains op a b (failure? (binary op a b)) := by
  have hfloat : ∀ (x : Binary64) (right : Number), x.isZero = a.isZero → right = b →
      (a.toInt? = none ∨ b.toInt? = none) → Explains op a b (failure? (floatBinary op x right)) := by
    rintro x right hzero rfl hnone
    rw [failure?_floatBinary, hzero]
    exact explains_floatFailure? hnone isNegative_iff
  have hconverted : ∀ n : Int, (Binary64.ofInt n).isZero = (n == 0) := fun n => by
    rw [Bool.eq_iff_iff, (Binary64.ofInt_fields n).1, beq_iff_eq]
  cases a with
  | fixed n =>
    cases b with
    | fixed k =>
      rw [binary, failure?_fixedBinary op (ha n rfl) (hb k rfl)]
      exact explains_integerFailure? rfl rfl
    | big k =>
      rw [binary, failure?_bigBinary]
      exact explains_integerFailure? rfl rfl
    | float y => exact hfloat _ _ (hconverted n) rfl (Or.inr rfl)
  | big n =>
    cases b with
    | fixed k =>
      rw [binary, failure?_bigBinary]
      exact explains_integerFailure? rfl rfl
    | big k =>
      rw [binary, failure?_bigBinary]
      exact explains_integerFailure? rfl rfl
    | float y => exact hfloat _ _ (hconverted n) rfl (Or.inr rfl)
  | float x => exact hfloat x b rfl rfl (Or.inl rfl)

/-- There are no errors of other kinds. -/
theorem failure?_kinds {α : Type} (r : Except ArithmeticError α) {kind : ErrorKind}
    (h : failure? r = some kind) :
    kind = .typeError ∨ kind = .zeroDivisionError ∨ kind = .valueError := by
  cases r with
  | ok x => cases h
  | error e =>
    obtain rfl := Option.some.inj h
    cases e <;> simp [ArithmeticError.kind]

/-! #### Results that are refused -/

/-- A power that is refused would have more binary digits than the limit allows. -/
theorem limit_lt_size_pow (h : ¬ Integer.Affordable n k) :
    2 ^ 26 < (n ^ k.toNat).natAbs.size := by
  obtain ⟨hn, hdigits⟩ := not_or.mp h
  have hpos : 0 < n.natAbs.size := Nat.size_pos.mpr (by rw [Int.abs_eq_natAbs] at hn; omega)
  have hle : 2 ^ (n.natAbs.size - 1) ≤ n.natAbs := Nat.lt_size.mp (by omega)
  have hpow : 2 ^ ((n.natAbs.size - 1) * k.toNat) ≤ n.natAbs ^ k.toNat := by
    rw [pow_mul]
    exact Nat.pow_le_pow_left hle _
  rw [Int.natAbs_pow]
  exact (not_le.mp hdigits).trans (Nat.lt_size.mpr hpow)

/-- A shifted integer that is refused would, too. -/
theorem limit_lt_size_shift (h : Integer.TooWide n k) : 2 ^ 26 < (n * 2 ^ k.toNat).natAbs.size := by
  obtain ⟨hn, hdigits⟩ := h
  have hnat : (n * 2 ^ k.toNat).natAbs = n.natAbs <<< k.toNat := by
    rw [Int.natAbs_mul, Int.natAbs_pow, Nat.shiftLeft_eq]
    rfl
  rw [hnat, Nat.size_shiftLeft (by omega)]
  exact hdigits

end Number

/-! ### The methods -/

/-- The built-in methods of a number's class. -/
def Number.methods : Number → PrimitiveList
  | .fixed _ => .fixnum
  | .big _ => .bignum
  | .float _ => .float

/-- The method by which a number's class provides an operator. -/
def Number.method (op : BinOp) : Number → Primitive
  | .fixed _ => .fixnumBinary op
  | .big _ => .bignumBinary op
  | .float _ => .floatBinary op

theorem Number.methods_find? (op : BinOp) (a : Number) :
    a.methods.find? op.symbol = some (a.method op) := by
  cases a with
  | fixed n =>
    change PrimitiveList.fixnum.find? op.symbol = some (.fixnumBinary op)
    cases op <;> decide
  | big n =>
    change PrimitiveList.bignum.find? op.symbol = some (.bignumBinary op)
    cases op <;> decide
  | float x =>
    change PrimitiveList.float.find? op.symbol = some (.floatBinary op)
    cases op <;> decide

/-- The built-in error classes are all different. -/
def Machine.Discerns (m : Machine) : Prop :=
  ∀ kind kind' : ErrorKind, m.classValue (.error kind) = m.classValue (.error kind') → kind = kind'

/-- The effect ends with a live exception of a built-in class on its way. -/
def Effect.ThrowsKind {α : Type} (x : Effect α) (m : Machine) (kind : ErrorKind) : Prop :=
  ∃ message, x.Throws m kind message

/-- The effect raises a TypeError, a ZeroDivisionError or a ValueError under one condition each, and
otherwise returns. -/
structure Effect.Classified {α : Type} (x : Effect α) (m : Machine)
    (mismatched undefined oversized : Prop) : Prop where
  typeError : x.ThrowsKind m .typeError ↔ mismatched
  zeroDivisionError : x.ThrowsKind m .zeroDivisionError ↔ undefined
  valueError : x.ThrowsKind m .valueError ↔ oversized
  returns : (∃ v m', x m = .ok v m') ↔ ¬ mismatched ∧ ¬ undefined ∧ ¬ oversized
  unbroken : ∀ broken m', x m ≠ .error (.fatal broken) m'

namespace Effect

open Machine

variable {calls : Calls} {m : Machine} {x y : Value} {a b : Number} {op : BinOp} {α : Type}
  {f : Effect α} {kind kind' : ErrorKind}

/-- What is raised is of one class only. -/
theorem Throws.kind_iff {message : String} (h : f.Throws m kind message) (hclasses : m.Discerns) :
    f.ThrowsKind m kind' ↔ some kind = some kind' := by
  rw [Option.some.injEq]
  constructor
  · rintro ⟨message', exc', m₂, hraise', ⟨o', e', ho', hcls', -⟩, -⟩
    obtain ⟨exc, m₁, hraise, ⟨o, e, ho, hcls, -⟩, hsame⟩ := h
    cases hraise.symm.trans hraise'
    obtain rfl := Option.some.inj (ho.symm.trans ho')
    refine hclasses kind kind' ?_
    rw [Machine.classValue, Machine.classValue, ← hsame]
    exact hcls.symm.trans hcls'
  · rintro rfl
    exact ⟨message, h⟩

theorem exists_newNumeral (r : Numeral) (m : Machine) : ∃ v m', newNumeral r m = .ok v m' := by
  cases r with
  | fixnum n => exact ⟨_, m, rfl⟩
  | float x => exact exists_alloc_eq _ _ m
  | integer n =>
    change ∃ v m', newInteger n m = .ok v m'
    unfold newInteger
    cases Value.ofInt? n with
    | some v => exact ⟨v, m, rfl⟩
    | none => exact exists_alloc_eq _ _ m

/-- A binary method of a number classifies its receiver, then computes. -/
theorem perform_of_number? (calls : Calls) (hx : m.number? x = some a) (op : BinOp) (y : Value) :
    a.InRange ∧ (a.method op).perform calls x [y] m = Effect.binary op a x y m := by
  rcases number?_cases hx with ⟨n, rfl, hfix⟩ | ⟨n, rfl, -, hread⟩ | ⟨z, rfl, -, hread⟩
  · refine ⟨fun k hk => ?_, ?_⟩
    · obtain rfl := Number.fixed.inj hk
      exact Value.fits_of_fixnum? hfix
    · simp only [Number.method, Primitive.perform, fixnumBinary, argument, expectFixnum, hfix]
      rfl
  · exact ⟨(fun k hk => by cases hk), bind_of_ok (read_of_ok hread)⟩
  · exact ⟨(fun k hk => by cases hk), bind_of_ok (read_of_ok hread)⟩

theorem inRange_of_number? (hx : m.number? x = some a) : a.InRange :=
  (perform_of_number? .exhausted hx .add x).1

/-- An effect that raises one of the three errors is classified by it. -/
theorem Throws.classified {message : String} (h : f.Throws m kind message) (hclasses : m.Discerns)
    (hkind : kind = .typeError ∨ kind = .zeroDivisionError ∨ kind = .valueError) :
    f.Classified m (some kind = some .typeError) (some kind = some .zeroDivisionError)
      (some kind = some .valueError) := by
  refine ⟨h.kind_iff hclasses, h.kind_iff hclasses, h.kind_iff hclasses, ?_, ?_⟩
  · refine iff_of_false ?_ fun ⟨htype, hzero, hvalue⟩ => ?_
    · obtain ⟨exc, m₁, hraise, -⟩ := h
      rintro ⟨v, m₂, hok⟩
      cases hok.symm.trans hraise
    · rcases hkind with rfl | rfl | rfl
      · exact htype rfl
      · exact hzero rfl
      · exact hvalue rfl
  · obtain ⟨exc, m₁, hraise, -⟩ := h
    intro broken m₂ hfatal
    cases hfatal.symm.trans hraise

/-- An effect that returns raises nothing. -/
theorem classified_of_ok {v : α} {m' : Machine} (h : f m = .ok v m') :
    f.Classified m (none = some ErrorKind.typeError) (none = some ErrorKind.zeroDivisionError)
      (none = some ErrorKind.valueError) := by
  have hthrows : ∀ kind, ¬ f.ThrowsKind m kind := by
    rintro kind ⟨message, exc, m₁, hraise, -⟩
    cases hraise.symm.trans h
  refine ⟨iff_of_false (hthrows _) nofun, iff_of_false (hthrows _) nofun,
    iff_of_false (hthrows _) nofun, iff_of_true ⟨v, m', h⟩ ⟨nofun, nofun, nofun⟩, ?_⟩
  intro broken m₁ hfatal
  cases hfatal.symm.trans h

/-- A binary method of two numbers ends as its operator says. -/
theorem classified_of_number? (hm : m.Intact) (hroom : m.Spacious) (hclasses : m.Discerns)
    (ha : a.InRange) (hb : m.number? y = some b) {f : Effect Value}
    (hf : f m = Effect.binary op a x y m) :
    f.Classified m (Number.Mismatched op a b) (Number.Undefined op a b)
      (Number.Oversized op a b) := by
  obtain ⟨htype, hzero, hvalue⟩ := Number.explains_binary op ha (inRange_of_number? hb)
  rw [← htype, ← hzero, ← hvalue]
  have hbinary : f m = finishArithmetic op.symbol x y (Number.binary op a b) m :=
    hf.trans (binary_of_number? hb)
  rcases hr : Number.binary op a b with e | r
  · rw [hr] at hbinary
    obtain ⟨exc, m₁, hraise, herror⟩ := throws_raiseArithmetic (α := Value) hm hroom op.symbol x y e
    have hthrows : f.Throws m e.kind _ := ⟨exc, m₁, hbinary.trans hraise, herror⟩
    exact hthrows.classified hclasses (Number.failure?_kinds (Except.error (α := Numeral) e) rfl)
  · rw [hr] at hbinary
    obtain ⟨v, m₁, hnew⟩ := exists_newNumeral r m
    exact classified_of_ok (hbinary.trans hnew)

/-- An operand that is no number is a TypeError. -/
theorem classified_of_not_number (hm : m.Intact) (hroom : m.Spacious) (hclasses : m.Discerns)
    (hb : m.number? y = none) {f : Effect Value} (hf : f m = Effect.binary op a x y m) :
    f.Classified m True False False := by
  obtain ⟨exc, m₁, hraise, herror⟩ :=
    throws_raiseArithmetic (α := Value) hm hroom op.symbol x y .unsupported
  have hask : ask (·.number? y) m = .ok none m := by rw [ask, hb]
  have hthrows : f.Throws m .typeError _ :=
    ⟨exc, m₁, by rw [hf, Effect.binary, bind_of_ok hask]; exact hraise, herror⟩
  have h := hthrows.classified hclasses (Or.inl rfl)
  simpa using h

end Effect

open Effect Machine

/-- The errors of binary arithmetic, completely.  For every receiver that is a fixnum, a bignum or a
double, every operator and every right operand: a TypeError is raised exactly if the right operand is
no number or the operator needs integers and an operand is a double; a ZeroDivisionError exactly if
the operator divides and the right operand is a zero of any kind, or zero is raised to a negative
power; a ValueError only for a power or a shift of integers whose result would be too large.  In
every other case there is a result, and the machine never breaks. -/
theorem arithmetic_errors (calls : Calls) (m : Machine) (hm : m.Intact) (hroom : m.Spacious)
    (hclasses : m.Discerns) (x y : Value) (a : Number) (hx : m.number? x = some a) (op : BinOp) :
    ∃ p, a.methods.find? op.symbol = some p ∧
      (p.perform calls x [y]).Classified m
        (m.number? y = none ∨ ∃ b, m.number? y = some b ∧ Number.Mismatched op a b)
        (∃ b, m.number? y = some b ∧ Number.Undefined op a b)
        (∃ b, m.number? y = some b ∧ Number.Oversized op a b) ∧
      ∀ b, m.number? y = some b → Number.Oversized op a b → ∃ n k : Int,
        m.integer? x = some n ∧ m.integer? y = some k ∧
        (op = .pow ∧ 0 ≤ k ∧ 2 ^ 26 < (n ^ k.toNat).natAbs.size ∨
          op = .shl ∧ 0 ≤ k ∧ 2 ^ 26 < (n * 2 ^ k.toNat).natAbs.size ∨
          op = .shr ∧ k ≤ 0 ∧ 2 ^ 26 < (n * 2 ^ (-k).toNat).natAbs.size) := by
  obtain ⟨ha, hperform⟩ := perform_of_number? calls hx op y
  refine ⟨a.method op, a.methods_find? op, ?_, ?_⟩
  · cases hy : m.number? y with
    | none => simpa using classified_of_not_number hm hroom hclasses hy hperform
    | some b => simpa using classified_of_number? hm hroom hclasses ha hy hperform
  · rintro b hb ⟨n, k, hn, hk, hcases⟩
    refine ⟨n, k, by rw [integer?, hx]; exact hn, by rw [integer?, hb]; exact hk, ?_⟩
    rcases hcases with ⟨hop, hsign, h⟩ | ⟨hop, hsign, h⟩ | ⟨hop, hsign, h⟩
    · exact Or.inl ⟨hop, hsign, Number.limit_lt_size_pow h⟩
    · exact Or.inr (Or.inl ⟨hop, hsign, Number.limit_lt_size_shift h⟩)
    · exact Or.inr (Or.inr ⟨hop, hsign, Number.limit_lt_size_shift h⟩)

/-- A machine with nothing in it whose classes are stand-ins. -/
def Machine.placeholder : Machine where
  heap := { settings := {} }
  classes := ((List.range 24).map fun i => Value.ofInt i).toArray

theorem Machine.intact_placeholder : placeholder.Intact where
  sound := Heap.sound_fresh {}
  unmarked := (intact_fresh {}).unmarked
  tables := (intact_fresh {}).tables
  closed := by
    have hroots : ∀ v ∈ placeholder.roots, v.isRef = false := by decide
    exact ⟨fun v hv => Heap.resolves_of_not_isRef (hroots v hv), (intact_fresh {}).closed.edges⟩

theorem Machine.discerns_placeholder : placeholder.Discerns := by
  intro kind kind' h
  cases kind <;> cases kind' <;> first | rfl | (revert h; decide)

/-- Seven divided by zero, and seven joined with `nil`. -/
theorem arithmetic_errors_seven :
    let m := Machine.placeholder
    ((Primitive.fixnumBinary .div).perform .exhausted (.ofInt 7) [.ofInt 0]).ThrowsKind m
        .zeroDivisionError ∧
      ((Primitive.fixnumBinary .and).perform .exhausted (.ofInt 7) [.nil]).ThrowsKind m
        .typeError := by
  intro m
  have hroom : m.Spacious := by unfold Spacious; decide
  have hzero : Number.value? (.fixed 0) = some (.ofRat 0) := by
    rw [Number.value?, Int.cast_zero]
  obtain ⟨p, hp, hdiv, -⟩ := arithmetic_errors .exhausted m intact_placeholder hroom
    discerns_placeholder (.ofInt 7) (.ofInt 0) (.fixed 7) (by decide) .div
  obtain ⟨q, hq, hand, -⟩ := arithmetic_errors .exhausted m intact_placeholder hroom
    discerns_placeholder (.ofInt 7) .nil (.fixed 7) (by decide) .and
  obtain rfl := Option.some.inj hp
  obtain rfl := Option.some.inj hq
  exact ⟨hdiv.zeroDivisionError.mpr ⟨.fixed 0, by decide, Or.inl ⟨rfl, hzero⟩⟩,
    hand.typeError.mpr (Or.inl (by decide))⟩

end ObjectMachine
