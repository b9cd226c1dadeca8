import Mathlib.Tactic
import ObjectMachine.Value

/-! The tags of words.

A word is of one of four kinds or of none: fixnums, references, symbols and specials are told apart by
its low bits alone.  The two lowest bits already say whether it is a fixnum, a reference or an
immediate, and every word is exactly one of these. -/

namespace ObjectMachine

namespace Value

variable {v : Value}

theorem isFixnum_iff (v : Value) : v.isFixnum = true ↔ v.word.toNat % 2 = 0 := by
  rw [isFixnum, beq_iff_eq, ← UInt64.toNat_inj, UInt64.toNat_mod]; rfl

theorem isRef_iff (v : Value) : v.isRef = true ↔ v.word.toNat % 4 = 1 := by
  rw [isRef, beq_iff_eq, ← UInt64.toNat_inj, UInt64.toNat_mod]; rfl

theorem isImmediate_iff (v : Value) : v.isImmediate = true ↔ v.word.toNat % 4 = 3 := by
  rw [isImmediate, beq_iff_eq, ← UInt64.toNat_inj, UInt64.toNat_mod]; rfl

theorem isSpecial_iff (v : Value) : v.isSpecial = true ↔ v.word.toNat % 16 = 3 := by
  rw [isSpecial, beq_iff_eq, ← UInt64.toNat_inj, UInt64.toNat_mod]; rfl

theorem isSymbol_iff (v : Value) : v.isSymbol = true ↔ v.word.toNat % 16 = 7 := by
  rw [isSymbol, beq_iff_eq, ← UInt64.toNat_inj, UInt64.toNat_mod]; rfl

/-- The two lowest bits give a word exactly one of three tags. -/
theorem count_tags (v : Value) : [v.isFixnum, v.isRef, v.isImmediate].count true = 1 := by
  have hfixnum : v.isFixnum = decide (v.word.toNat % 4 % 2 = 0) := by
    rw [Bool.eq_iff_iff, isFixnum_iff, decide_eq_true_iff]
    omega
  have href : v.isRef = decide (v.word.toNat % 4 = 1) := by
    rw [Bool.eq_iff_iff, isRef_iff, decide_eq_true_iff]
  have himmediate : v.isImmediate = decide (v.word.toNat % 4 = 3) := by
    rw [Bool.eq_iff_iff, isImmediate_iff, decide_eq_true_iff]
  rw [hfixnum, href, himmediate]
  have hlt : v.word.toNat % 4 < 4 := Nat.mod_lt _ (by decide)
  generalize v.word.toNat % 4 = low at hlt
  interval_cases low <;> rfl

/-! ### The four kinds -/

theorem kinds_of_isFixnum (h : v.isFixnum = true) :
    v.isRef = false ∧ v.isSymbol = false ∧ v.isSpecial = false := by
  rw [isFixnum_iff] at h
  simp only [← Bool.not_eq_true, isRef_iff, isSymbol_iff, isSpecial_iff]
  omega

theorem kinds_of_isRef (h : v.isRef = true) :
    v.isFixnum = false ∧ v.isSymbol = false ∧ v.isSpecial = false := by
  rw [isRef_iff] at h
  simp only [← Bool.not_eq_true, isFixnum_iff, isSymbol_iff, isSpecial_iff]
  omega

theorem kinds_of_isSymbol (h : v.isSymbol = true) :
    v.isFixnum = false ∧ v.isRef = false ∧ v.isSpecial = false := by
  rw [isSymbol_iff] at h
  simp only [← Bool.not_eq_true, isFixnum_iff, isRef_iff, isSpecial_iff]
  omega

/-- A word of another kind is none of the specials. -/
theorem specials_of_not_isSpecial (h : v.isSpecial = false) :
    v.bool? = none ∧ v.isNil = false ∧ v.isAbsent = false := by
  have hne : ∀ w : Value, w.isSpecial = true → (v == w) = false := by
    intro w hw
    rw [beq_eq_false_iff_ne]
    rintro rfl
    rw [h] at hw
    cases hw
  refine ⟨?_, hne nil (by decide), hne absent (by decide)⟩
  rw [bool?, isBool, hne yes (by decide), hne no (by decide)]
  rfl

/-! ### The tags that encodings have -/

/-- A fixnum has its tag, also if the integer does not fit. -/
theorem isFixnum_ofInt (n : Int) : (ofInt n).isFixnum = true := by
  rw [isFixnum_iff, ofInt, UInt64.ofInt, UInt64.toNat_ofNat']
  omega

/-- A symbol has its tag, also if the number does not fit. -/
theorem isSymbol_ofSymbol (id : Nat) : (ofSymbol id).isSymbol = true := by
  rw [isSymbol_iff, ofSymbol, UInt64.toNat_ofNat']
  omega

theorem isRef_ofSymbol (id : Nat) : (ofSymbol id).isRef = false :=
  (kinds_of_isSymbol (isSymbol_ofSymbol id)).2.1

end Value

end ObjectMachine
