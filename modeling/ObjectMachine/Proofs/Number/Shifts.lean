import Mathlib.Tactic
import ObjectMachine.Proofs.Number.Powers

/-! Shifts of integers are exact in both directions.

The width of a shift is a word with a sign.  An integer that no such word holds is cut down to the least
or the greatest one, and both are as good as the width itself: no integer in memory has as many digits,
so that nothing but the sign is left on the right and the result is too large on the left.  Small
integers that move less than 64 places stay in a word of 128 bits, which holds the result. -/

namespace ObjectMachine

namespace Integer

/-! ### What a shift gives -/

/-- A result of this many digits would be too large. -/
def TooWide (n width : Int) : Prop := n ≠ 0 ∧ 2 ^ 26 < n.natAbs.size + width.toNat

instance (n width : Int) : Decidable (TooWide n width) := inferInstanceAs (Decidable (_ ∧ _))

/-- An integer moved to the left, to the right if the width is negative, without regard to words. -/
def shifted (n width : Int) : Except ArithmeticError Int :=
  if width < 0 then .ok (n / 2 ^ width.natAbs)
  else if TooWide n width then .error .shiftTooWide
  else .ok (n * 2 ^ width.toNat)

/-- Nothing but the sign is left of an integer that moves past all its digits. -/
theorem div_two_pow_of_size_le {n : Int} {k : Nat} (h : n.natAbs.size ≤ k) :
    n / 2 ^ k = if n < 0 then -1 else 0 := by
  have hlt : (n.natAbs : Int) < 2 ^ k := by exact_mod_cast Nat.size_le.mp h
  have hpos : (0 : Int) < 2 ^ k := by positivity
  split
  · next hn => exact ((Int.ediv_emod_unique (r := 2 ^ k + n) hpos).mpr ⟨by ring, by omega, by omega⟩).1
  · next hn => exact Int.ediv_eq_zero_of_lt (by omega) (by omega)

/-- Integer division by a power of two rounds down. -/
theorem floor_div_two_pow (n : Int) (k : Nat) : ⌊(n : ℚ) / 2 ^ k⌋ = n / 2 ^ k := by
  exact_mod_cast Rat.floor_intCast_div_natCast n (2 ^ k)

/-- All widths beyond the digits of an integer give the same to the right, all widths beyond the limit
the same to the left. -/
theorem shifted_congr {n v w : Int}
    (h : (v < 0 ∧ n.natAbs.size ≤ -v) ∧ w < 0 ∧ n.natAbs.size ≤ -w ∨ 2 ^ 26 < v ∧ 2 ^ 26 < w) :
    shifted n v = shifted n w := by
  unfold shifted
  rcases h with ⟨hv, hw⟩ | ⟨hv, hw⟩
  · rw [if_pos hv.1, if_pos hw.1,
      div_two_pow_of_size_le (show n.natAbs.size ≤ v.natAbs by omega),
      div_two_pow_of_size_le (show n.natAbs.size ≤ w.natAbs by omega)]
  · rw [if_neg (show ¬ v < 0 by omega), if_neg (show ¬ w < 0 by omega)]
    by_cases hn : n = 0
    · have hzero : ∀ u, ¬ TooWide n u := fun _ h => h.1 hn
      rw [if_neg (hzero v), if_neg (hzero w), hn, zero_mul, zero_mul]
    · have hlarge : ∀ u : Int, 2 ^ 26 < u → TooWide n u := fun u hu => ⟨hn, by omega⟩
      rw [if_pos (hlarge v hv), if_pos (hlarge w hw)]

/-! ### Widths as words -/

/-- Widths that no word holds are cut down to the ends of the range. -/
theorem toInt_width (w : Int) : (width w).toInt = max (-2 ^ 63) (min w (2 ^ 63 - 1)) := by
  have hmin : (BitVec.intMin 64).toInt = -2 ^ 63 := rfl
  have hmax : (BitVec.intMax 64).toInt = 2 ^ 63 - 1 := rfl
  unfold width
  rw [hmin, hmax]
  split
  · rw [hmin]; omega
  · split
    · rw [hmax]; omega
    · rw [Fixnum.toInt_word (by omega)]; omega

/-- The opposite of a word is that of its integer, the least word apart. -/
theorem toInt_opposite (w : BitVec 64) : (opposite w).toInt = min (-w.toInt) (2 ^ 63 - 1) := by
  have hmin : (BitVec.intMin 64).toInt = -2 ^ 63 := rfl
  have hmax : (BitVec.intMax 64).toInt = 2 ^ 63 - 1 := rfl
  have hlt : w.toInt < 2 ^ 63 := BitVec.toInt_lt
  have hle : -2 ^ 63 ≤ w.toInt := BitVec.le_toInt w
  unfold opposite
  split
  · next h => rw [h, hmin, hmax]; omega
  · next h =>
    have hne : w.toInt ≠ -2 ^ 63 := fun heq => h (BitVec.eq_of_toInt_eq (heq.trans hmin.symm))
    rw [BitVec.toInt_neg, Int.bmod_eq_of_le (by omega) (by omega)]
    omega

theorem toNat_of_nonneg {w : BitVec 64} (h : 0 ≤ w.toInt) : w.toNat = w.toInt.toNat := by
  have := w.isLt
  rw [BitVec.toInt_eq_toNat_cond] at h ⊢
  split at h <;> omega

theorem toNat_abs_of_neg {w : BitVec 64} (h : w.toInt < 0) : w.abs.toNat = w.toInt.natAbs := by
  have hlt := w.isLt
  have hmsb : w.msb = true := by rw [BitVec.msb_eq_toInt]; exact decide_eq_true h
  rw [BitVec.toNat_abs, if_pos hmsb]
  rw [BitVec.toInt_eq_toNat_cond] at h ⊢
  split at h <;> omega

/-! ### The shift in words -/

/-- A word of 128 bits holds a small integer that moves by less than 64 places. -/
theorem toInt_wide_shiftLeft {n : Int} (hn : -2 ^ 62 ≤ n ∧ n < 2 ^ 62) {k : Nat} (hk : k < 64) :
    (Fixnum.wide n <<< k).toInt = n * 2 ^ k := by
  have hpower : (2 : Int) ^ k ≤ 2 ^ 63 := pow_le_pow_right₀ (by norm_num) (by omega)
  have hpos : (0 : Int) < 2 ^ k := by positivity
  have hword : BitVec.twoPow 128 k = Fixnum.wide (2 ^ k) := by
    refine BitVec.eq_of_toNat_eq ?_
    rw [BitVec.toNat_twoPow, Fixnum.wide, BitVec.toNat_ofInt]
    exact_mod_cast (Int.toNat_natCast (2 ^ k % 2 ^ 128)).symm
  have hmul : Fixnum.wide n * Fixnum.wide (2 ^ k) = Fixnum.wide (n * 2 ^ k) :=
    (BitVec.ofInt_mul n (2 ^ k)).symm
  have hbounds : -2 ^ 127 ≤ n * 2 ^ k ∧ n * 2 ^ k < 2 ^ 127 := by
    constructor <;> nlinarith
  rw [BitVec.shiftLeft_eq_mul_twoPow, hword, hmul, Fixnum.toInt_wide hbounds]

/-- The sum that is compared with the limit does not wrap around. -/
theorem limit_lt_iff (n : Int) (w : BitVec 64) :
    maxBits < (saturated ((length n).toNat + w.toNat)).toNat ↔
      2 ^ 26 < n.natAbs.size + w.toNat := by
  have hlimit : maxBits = 2 ^ 26 := rfl
  rw [toNat_saturated, toNat_length, hlimit]
  omega

/-- The number of places to the right, cut down to one more than there are digits, does not wrap
around. -/
theorem toNat_length_add_one {n : Int} (hn : n.natAbs.size < 2 ^ 63) :
    (length n + 1).toNat = n.natAbs.size + 1 := by
  have hone : (1 : BitVec 64).toNat = 1 := rfl
  rw [BitVec.toNat_add, toNat_length, hone]
  omega

/-- To the left, a shift in words gives what it gives without regard to them. -/
theorem shift_of_nonneg {small : Bool} {n : Int} (hsmall : small = true → -2 ^ 62 ≤ n ∧ n < 2 ^ 62)
    {w : BitVec 64} (hw : 0 ≤ w.toInt) : shift small n w = shifted n w.toInt := by
  have hslt : ¬ w.slt 0 = true := fun h => absurd (BitVec.slt_iff_toInt_lt.mp h) (not_lt.mpr hw)
  have hwide : TooWide n w.toInt ↔ n ≠ 0 ∧ 2 ^ 26 < n.natAbs.size + w.toNat := by
    rw [TooWide, toNat_of_nonneg hw]
  unfold shift shifted
  rw [if_neg hslt, if_neg (not_lt.mpr hw), ← toNat_of_nonneg hw]
  by_cases hlarge : 2 ^ 26 < n.natAbs.size + w.toNat
  · rw [if_pos ((limit_lt_iff n w).mpr hlarge)]
    by_cases hzero : n = 0
    · rw [if_pos hzero, if_neg fun h => (hwide.mp h).1 hzero, hzero, zero_mul]
    · rw [if_neg hzero, if_pos (hwide.mpr ⟨hzero, hlarge⟩)]
  · rw [if_neg (mt (limit_lt_iff n w).mp hlarge), if_neg fun h => hlarge (hwide.mp h).2]
    by_cases hfast : (small && decide (w.toNat < 64)) = true
    · obtain ⟨hs, hplaces⟩ := Bool.and_eq_true_iff.mp hfast
      rw [if_pos hfast, toInt_wide_shiftLeft (hsmall hs) (of_decide_eq_true hplaces)]
    · rw [if_neg hfast]
      rfl

/-- To the right as well, as long as the number of digits is a word. -/
theorem shift_of_neg {small : Bool} {n : Int} (hn : n.natAbs.size < 2 ^ 63) {w : BitVec 64}
    (hw : w.toInt < 0) : shift small n w = shifted n w.toInt := by
  unfold shift shifted
  rw [if_pos (BitVec.slt_iff_toInt_lt.mpr hw), if_pos hw, toNat_length_add_one hn, toNat_abs_of_neg hw,
    Int.shiftRight_eq_div_pow]
  rcases le_or_gt w.toInt.natAbs (n.natAbs.size + 1) with hle | hgt
  · rw [min_eq_left hle]
    norm_cast
  · -- the width is beyond all digits
    rw [min_eq_right hgt.le, div_two_pow_of_size_le (k := w.toInt.natAbs) (by omega)]
    exact_mod_cast congrArg Except.ok (div_two_pow_of_size_le (Nat.le_succ n.natAbs.size))

theorem shift_eq (small : Bool) {n : Int} (hsmall : small = true → -2 ^ 62 ≤ n ∧ n < 2 ^ 62)
    (hn : n.natAbs.size < 2 ^ 63) (w : BitVec 64) : shift small n w = shifted n w.toInt :=
  (lt_or_ge w.toInt 0).elim (shift_of_neg hn) (shift_of_nonneg hsmall)

/-- Cutting a width down to a word does not change the shift. -/
theorem shifted_width {n : Int} (hn : n.natAbs.size < 2 ^ 63) (w : Int) :
    shifted n (width w).toInt = shifted n w := by
  rw [toInt_width]
  by_cases hw : -2 ^ 63 ≤ w ∧ w < 2 ^ 63
  · congr 1
    omega
  · exact shifted_congr (by omega)

theorem shifted_opposite {n : Int} (hn : n.natAbs.size < 2 ^ 63) (w : Int) :
    shifted n (opposite (width w)).toInt = shifted n (-w) := by
  rw [toInt_opposite, toInt_width]
  by_cases hw : -2 ^ 63 < w ∧ w < 2 ^ 63
  · congr 1
    omega
  · rcases eq_or_ne w (-2 ^ 63) with rfl | hne
    · exact shifted_congr (by omega)
    · exact shifted_congr (by omega)

/-- A shift has a result unless that would be too large. -/
theorem shifted_cases (n w : Int) :
    (∃ k, shifted n w = .ok k) ∧ ¬ (0 ≤ w ∧ TooWide n w) ∨
      shifted n w = .error .shiftTooWide ∧ 0 ≤ w ∧ TooWide n w := by
  unfold shifted
  by_cases hw : w < 0
  · exact Or.inl ⟨⟨_, if_pos hw⟩, by omega⟩
  · rw [if_neg hw]
    by_cases hwide : TooWide n w
    · exact Or.inr ⟨if_pos hwide, by omega, hwide⟩
    · exact Or.inl ⟨⟨_, if_neg hwide⟩, fun h => hwide h.2⟩

end Integer

/-! ### The methods -/

namespace Number

variable {left right : Number} {n w : Int}

/-- Integers of all kinds are shifted in the same way. -/
theorem binary_shl (hn : n.natAbs.size < 2 ^ 63) (hleft : left.IsInteger n)
    (hright : right.IsInteger w) :
    Number.binary .shl left right = (Integer.shifted n w).map .integer := by
  have hbig : bigBinary .shl n w = (Integer.shifted n w).map .integer := by
    have hshift := Integer.shift_eq false nofun hn (Integer.width w)
    rw [Integer.shifted_width hn] at hshift
    exact congrArg (Except.map Numeral.integer) hshift
  rcases hleft with ⟨rfl, hfits⟩ | rfl
  · rcases hright with ⟨rfl, hword⟩ | rfl
    · have hshift := Integer.shift_eq true (fun _ => hfits) hn (Fixnum.word w)
      rw [Fixnum.toInt_word (by omega)] at hshift
      exact congrArg (Except.map Numeral.integer) hshift
    · exact hbig
  · rcases hright with ⟨rfl, -⟩ | rfl
    · exact hbig
    · exact hbig

theorem binary_shr (hn : n.natAbs.size < 2 ^ 63) (hleft : left.IsInteger n)
    (hright : right.IsInteger w) :
    Number.binary .shr left right = (Integer.shifted n (-w)).map .integer := by
  have hbig : bigBinary .shr n w = (Integer.shifted n (-w)).map .integer := by
    have hshift := Integer.shift_eq false nofun hn (Integer.opposite (Integer.width w))
    rw [Integer.shifted_opposite hn] at hshift
    exact congrArg (Except.map Numeral.integer) hshift
  rcases hleft with ⟨rfl, hfits⟩ | rfl
  · rcases hright with ⟨rfl, hword⟩ | rfl
    · have hshift := Integer.shift_eq true (fun _ => hfits) hn (-Fixnum.word w)
      rw [BitVec.toInt_neg, Fixnum.toInt_word (by omega), Int.bmod_eq_of_le (by omega) (by omega)]
        at hshift
      exact congrArg (Except.map Numeral.integer) hshift
    · exact hbig
  · rcases hright with ⟨rfl, -⟩ | rfl
    · exact hbig
    · exact hbig

end Number

namespace Machine

variable {m : Machine} {v : Value} {n : Int}

/-- No bignum is larger than what can be addressed: it has fewer than 2⁶³ digits. -/
def Addressable (m : Machine) : Prop :=
  ∀ v n, m.heap.read Facet.bignum v = .ok n → n.natAbs.size < 2 ^ 63

theorem Addressable.size_lt (h : m.Addressable) (hv : m.integer? v = some n) :
    n.natAbs.size < 2 ^ 63 := by
  rcases integer?_cases hv with ⟨-, -, hfits⟩ | ⟨-, -, hread⟩
  · have hsize : n.natAbs.size ≤ 63 := Nat.size_le.mpr (by omega)
    omega
  · exact h v n hread

theorem addressable_fresh (settings : HeapSettings) :
    Addressable { heap := { settings := settings } } := by
  intro v n hread
  obtain ⟨o, ho, -⟩ := Heap.read_eq_ok_iff.mp hread
  simp [Heap.get?_eq_some_iff] at ho

theorem Addressable.store (h : m.Addressable) (hs : m.heap.Sound) (cls : Value) {k : Int}
    (hk : k.natAbs.size < 2 ^ 63) :
    Addressable { m with heap := m.heap.insert cls (.bignum k) } := by
  intro v n hread
  obtain ⟨o, ho, hbody⟩ := Heap.read_eq_ok_iff.mp hread
  rcases hs.get?_insert_cases cls (.bignum k) ho with hold | rfl
  · exact h v n (Heap.read_eq_ok_iff.mpr ⟨o, hold, hbody⟩)
  · obtain rfl : k = n := Option.some.inj hbody
    exact hk

end Machine

/-- A method of an integer moves it to the left by a width, to the right if that is negative. -/
structure Shifts (calls : Calls) (m : Machine) (receiver : Value) (name : String) (argument : Value)
    (n width : Int) : Prop where
  right : width < 0 → Returns calls m receiver name [argument] ⌊(n : ℚ) / 2 ^ width.natAbs⌋
  left : 0 ≤ width → ¬ Integer.TooWide n width →
    Returns calls m receiver name [argument] (n * 2 ^ width.toNat)
  refused : Raises calls m receiver name [argument] .valueError "shift width too large" ↔
    0 ≤ width ∧ Integer.TooWide n width

section Methods

open Effect Machine

variable {calls : Calls} {m : Machine} {x y z : Value} {n w : Int}

/-- What returns does not raise. -/
theorem Returns.not_raises {name : String} {args : List Value} {kind : ErrorKind} {message : String}
    (h : Returns calls m x name args n) : ¬ Raises calls m x name args kind message := by
  rintro ⟨q, hq, exc, m₂, hraise, -⟩
  obtain ⟨p, hp, v, m₁, hreturn, -⟩ := h
  obtain rfl := Option.some.inj (hp.symm.trans hq)
  cases hreturn.symm.trans hraise

/-- A method whose operator gives a shift is one. -/
theorem shifts_of_binary (hm : m.Intact) (hroom : m.Spacious) (hx : m.integer? x = some n) {v : Int}
    (hy : m.integer? y = some v) {op : BinOp}
    (h : ∀ left right : Number, left.IsInteger n → right.IsInteger v →
      Number.binary op left right = (Integer.shifted n w).map .integer) :
    Shifts calls m x op.symbol y n w := by
  have hreturns : ∀ k, Integer.shifted n w = .ok k → Returns calls m x op.symbol [y] k :=
    fun k hk => returns_of_binary op hm.sound hroom.size_lt hx hy fun left right hleft hright =>
      ⟨.integer k, by rw [h left right hleft hright, hk]; rfl, Or.inl rfl⟩
  constructor
  · intro hw
    rw [Integer.floor_div_two_pow]
    exact hreturns _ (if_pos hw)
  · intro hw hwide
    refine hreturns _ ?_
    rw [Integer.shifted, if_neg (not_lt.mpr hw), if_neg hwide]
  · rcases Integer.shifted_cases n w with ⟨⟨k, hk⟩, hnot⟩ | ⟨herror, hwide⟩
    · exact iff_of_false (hreturns k hk).not_raises hnot
    · refine iff_of_true ?_ hwide
      exact raises_of_binary op hm hroom hx hy fun left right hleft hright => by
        rw [h left right hleft hright, herror]
        rfl

/-- Shifts that give the same end in the same way. -/
theorem finishArithmetic_shifted (n w : Int) (symbol symbol' : String) (x y z : Value) :
    finishArithmetic symbol x y ((Integer.shifted n w).map .integer) =
      finishArithmetic symbol' x z ((Integer.shifted n w).map .integer) := by
  rcases Integer.shifted_cases n w with ⟨⟨k, hk⟩, -⟩ | ⟨herror, -⟩
  · rw [hk]
    rfl
  · rw [herror]
    rfl

/-- For every integer and every width, each a fixnum or a bignum of any size that memory holds: `<<` by a
negative width and `>>` by its opposite return the integer divided by the power of two, rounded down;
by a width that is not negative they return the product with the power of two, except that they raise
a ValueError exactly if the integer is not zero and its digits and the width are together more than
2²⁶.  Results are stored in the form results have, and `<<` by a width ends just as `>>` by its opposite
does.  No word on the way overflows: widths that do not fit are cut down to the ends of the range,
the number of digits is exact, and so is the shift in a word of 128 bits. -/
theorem shifts_exact (calls : Calls) (m : Machine) (hm : m.Intact) (hroom : m.Spacious)
    (hmemory : m.Addressable) (x y z : Value) (n w : Int) (hx : m.integer? x = some n)
    (hy : m.integer? y = some w) (hz : m.integer? z = some (-w)) :
    Shifts calls m x "<<" y n w ∧ Shifts calls m x ">>" z n w ∧
    (∃ p q, (integerMethods x).find? "<<" = some p ∧ (integerMethods x).find? ">>" = some q ∧
      p.perform calls x [y] m = q.perform calls x [z] m) ∧
    (Integer.width w).toInt = max (-2 ^ 63) (min w (2 ^ 63 - 1)) ∧
    (Integer.opposite (Integer.width (-w))).toInt = max (-(2 ^ 63 - 1)) (min w (2 ^ 63 - 1)) ∧
    (Integer.length n).toNat = n.natAbs.size ∧
    (Integer.length n + 1).toNat = n.natAbs.size + 1 ∧
    (x.isFixnum = true → 0 ≤ w → w < 64 →
      (Fixnum.wide n <<< w.toNat).toInt = n * 2 ^ w.toNat) := by
  have hsize := hmemory.size_lt hx
  have hshl : ∀ left right : Number, left.IsInteger n → right.IsInteger w →
      Number.binary .shl left right = (Integer.shifted n w).map .integer :=
    fun _ _ => Number.binary_shl hsize
  have hshr : ∀ left right : Number, left.IsInteger n → right.IsInteger (-w) →
      Number.binary .shr left right = (Integer.shifted n w).map .integer :=
    fun _ _ hleft hright => by rw [Number.binary_shr hsize hleft hright, neg_neg]
  refine ⟨shifts_of_binary hm hroom hx hy hshl, shifts_of_binary hm hroom hx hz hshr,
    ⟨_, _, integerMethods_find? x .shl, integerMethods_find? x .shr, ?_⟩, Integer.toInt_width w, ?_,
    ?_, Integer.toNat_length_add_one hsize, fun hfix hpos hlt => ?_⟩
  · obtain ⟨left, hleft, hperform⟩ := perform_binary calls hx .shl y
    obtain ⟨left', hleft', hperform'⟩ := perform_binary calls hx .shr z
    obtain ⟨right, hright, hinteger⟩ := isInteger_of_integer? hy
    obtain ⟨right', hright', hinteger'⟩ := isInteger_of_integer? hz
    rw [hperform, hperform', binary_of_number? hright, binary_of_number? hright',
      hshl left right hleft hinteger, hshr left' right' hleft' hinteger']
    exact congrFun (finishArithmetic_shifted n w _ _ x y z) m
  · rw [Integer.toInt_opposite, Integer.toInt_width]
    omega
  · rw [Integer.toNat_length]
    omega
  · exact Integer.toInt_wide_shiftLeft (fits_of_isFixnum hx hfix) (by omega)

/-- The least width that is no fixnum, as a bignum beside its opposite, which is one: to the left it is
refused, to the right only the sign is left. -/
theorem shifts_exact_at_bounds :
    let start : Machine := { heap := { settings := {} } }
    let m : Machine := { start with heap := start.heap.insert .nil (.bignum (2 ^ 62)) }
    let wide := start.heap.nextReference
    Raises .exhausted m (.ofInt (-5)) "<<" [wide] .valueError "shift width too large" ∧
      Raises .exhausted m (.ofInt (-5)) ">>" [.ofInt (-2 ^ 62)] .valueError
        "shift width too large" ∧
      Returns .exhausted m (.ofInt (-5)) "<<" [.ofInt (-2 ^ 62)] (-1) ∧
      Returns .exhausted m (.ofInt (-5)) ">>" [wide] (-1) := by
  intro start m wide
  have hstart : start.Intact := intact_fresh {}
  have hm : m.Intact := by
    have hbody : start.Admits .nil (.bignum (2 ^ 62)) :=
      ⟨Heap.resolves_of_not_isRef rfl, nofun, nofun⟩
    have hkeeps : Keeps ∅ ∅ ∅ start m := hstart.store hbody (by decide)
    exact hkeeps.intact
  have hroom : m.Spacious := by unfold Spacious; decide
  have hmemory : m.Addressable := by
    refine (addressable_fresh {}).store hstart.sound .nil ?_
    rw [← Integer.bits_eq_size]
    decide
  have hwide : Integer.TooWide (-5) (2 ^ 62) := by
    rw [Integer.TooWide, ← Integer.bits_eq_size]
    decide
  have hsize : (-5 : Int).natAbs.size ≤ (-2 ^ 62 : Int).natAbs := by
    rw [← Integer.bits_eq_size]
    decide
  have hsign : ⌊((-5 : Int) : ℚ) / 2 ^ (-2 ^ 62 : Int).natAbs⌋ = -1 :=
    (Integer.floor_div_two_pow _ _).trans (Integer.div_two_pow_of_size_le hsize)
  obtain ⟨hleft, hright, -⟩ := shifts_exact .exhausted m hm hroom hmemory (.ofInt (-5)) wide
    (.ofInt (-2 ^ 62)) (-5) (2 ^ 62) (by decide) (by decide) (by decide)
  obtain ⟨hleft', hright', -⟩ := shifts_exact .exhausted m hm hroom hmemory (.ofInt (-5))
    (.ofInt (-2 ^ 62)) wide (-5) (-2 ^ 62) (by decide) (by decide) (by decide)
  exact ⟨hleft.refused.mpr ⟨by decide, hwide⟩, hright.refused.mpr ⟨by decide, hwide⟩,
    hsign ▸ hleft'.right (by decide), hsign ▸ hright'.right (by decide)⟩

end Methods

end ObjectMachine
