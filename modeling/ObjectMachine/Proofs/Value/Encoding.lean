import Mathlib.Tactic
import ObjectMachine.Proofs.Number.Integer
import ObjectMachine.Proofs.Table.Names

/-! The encoding of values in words.

`Datum` lists what a word can stand for, with the ranges of its fields, and `Datum.word` is its
encoding.  The word of a datum is its fields side by side above the tag.  All readers together give
back the datum a word was made from: the reader of its kind finds its fields and the others find
nothing.  So two words are equal only if they stand for the same thing of the same kind.  The other way
round, every fixnum word and every reference word stands for something, and so does a symbol word
with nothing above the number of the symbol. -/

namespace ObjectMachine

namespace Value

variable {v : Value}

/-! ### Reading a word -/

/-- What each of the readers finds in a word. -/
structure Readings where
  fixnum : Option Int := none
  slot : Option (Nat × Nat) := none
  symbol : Option Nat := none
  bool : Option Bool := none
  isNil : Bool := false
  isAbsent : Bool := false
  deriving DecidableEq

/-- A word as all readers see it. -/
def readings (v : Value) : Readings where
  fixnum := v.fixnum?
  slot := if v.isRef then some (v.slotIndex, v.slotGeneration) else none
  symbol := v.symbol?
  bool := v.bool?
  isNil := v.isNil
  isAbsent := v.isAbsent

/-- Only one reader finds something in a fixnum word. -/
theorem readings_of_isFixnum (h : v.isFixnum = true) : v.readings = { fixnum := v.fixnum? } := by
  obtain ⟨href, hsymbol, hspecial⟩ := kinds_of_isFixnum h
  obtain ⟨hbool, hnil, habsent⟩ := specials_of_not_isSpecial hspecial
  simp [readings, symbol?, href, hsymbol, hbool, hnil, habsent]

/-- Only one reader finds something in a reference. -/
theorem readings_of_isRef (h : v.isRef = true) :
    v.readings = { slot := some (v.slotIndex, v.slotGeneration) } := by
  obtain ⟨hfixnum, hsymbol, hspecial⟩ := kinds_of_isRef h
  obtain ⟨hbool, hnil, habsent⟩ := specials_of_not_isSpecial hspecial
  simp [readings, fixnum?, symbol?, h, hfixnum, hsymbol, hbool, hnil, habsent]

/-- Only one reader finds something in a symbol. -/
theorem readings_of_isSymbol (h : v.isSymbol = true) : v.readings = { symbol := v.symbol? } := by
  obtain ⟨hfixnum, href, hspecial⟩ := kinds_of_isSymbol h
  obtain ⟨hbool, hnil, habsent⟩ := specials_of_not_isSpecial hspecial
  simp [readings, fixnum?, hfixnum, href, hbool, hnil, habsent]

/-! ### Making a word again from what was read -/

theorem ofInt_fixnum? {n : Int} (h : v.fixnum? = some n) : ofInt n = v := by
  obtain ⟨heven, rfl⟩ := fixnum?_eq_some_iff.mp h
  have hint := v.word.toBitVec.toInt_eq_toNat_cond
  have hlt := v.word.toNat_lt
  rw [UInt64.toNat_toBitVec] at hint
  have hword : (ofInt (v.word.toBitVec.toInt / 2)).word = v.word := by
    rw [← UInt64.toNat_inj, ofInt, UInt64.ofInt, UInt64.toNat_ofNat', hint]
    split <;> omega
  exact congrArg mk hword

theorem slotIndex_lt (v : Value) : v.slotIndex < 2 ^ 32 := by
  have hlt := v.word.toNat_lt
  rw [slotIndex_eq]
  omega

theorem slotGeneration_lt (v : Value) : v.slotGeneration < 2 ^ 30 := by
  rw [slotGeneration_eq]
  exact Nat.mod_lt _ (by decide)

theorem ofSlot_slotIndex (h : v.isRef = true) : ofSlot v.slotIndex v.slotGeneration = v := by
  have hindex := v.slotIndex_lt
  have hgeneration : v.slotGeneration ≤ maxGeneration := Nat.le_of_lt_succ v.slotGeneration_lt
  exact eq_of_slot (isRef_ofSlot _ hindex) h (slotIndex_ofSlot _ hindex)
    (slotGeneration_ofSlot hindex hgeneration)

/-- The reader of symbols skips what stands above the number; a word that has something there is not
made from what it finds. -/
theorem ofSymbol_symbol?_iff {id : Nat} (h : v.symbol? = some id) :
    ofSymbol id = v ↔ v.word.toNat < 2 ^ 36 := by
  obtain ⟨htag, rfl⟩ := symbol?_eq_some_iff.mp h
  have hid : v.word.toNat / 16 % 2 ^ 32 < 2 ^ 32 := Nat.mod_lt _ (by decide)
  have hword := toNat_word_ofSymbol hid
  constructor
  · intro heq
    rw [heq] at hword
    omega
  · intro hlt
    have hsame : (ofSymbol (v.word.toNat / 16 % 2 ^ 32)).word.toNat = v.word.toNat := by omega
    exact congrArg mk (UInt64.toNat_inj.mp hsame)

example : (⟨0x1000000007⟩ : Value).symbol? = some 0 ∧ ofSymbol 0 ≠ ⟨0x1000000007⟩ := by decide

end Value

open Value

/-! ### What a word can stand for -/

/-- What a word can stand for: an integer of the range, a slot at one of its generations, a symbol by
its number, or one of the four specials. -/
inductive Datum where
  | fixnum (n : Int) (fits : -2 ^ 62 ≤ n ∧ n < 2 ^ 62)
  | slot (index : Fin (2 ^ 32)) (generation : Fin (2 ^ 30))
  | symbol (id : Fin (2 ^ 32))
  | bool (b : Bool)
  | nil
  | absent
  deriving DecidableEq

namespace Datum

/-- The word of a datum. -/
def word : Datum → Value
  | fixnum n _ => .ofInt n
  | slot index generation => .ofSlot index generation
  | symbol id => .ofSymbol id
  | bool true => .yes
  | bool false => .no
  | nil => .nil
  | absent => .absent

/-- The fields of a datum side by side, the tag last. -/
def layout : Datum → BitVec 64
  | fixnum n _ => BitVec.ofInt 63 n ++ 0b0#1
  | slot index generation => BitVec.ofFin index ++ BitVec.ofFin generation ++ 0b01#2
  | symbol id => 0#28 ++ BitVec.ofFin id ++ 0b0111#4
  | absent => 0#60 ++ 0b0011#4
  | nil => 1#60 ++ 0b0011#4
  | bool false => 2#60 ++ 0b0011#4
  | bool true => 3#60 ++ 0b0011#4

/-- The one reader that knows a kind of datum finds its fields. -/
def readings : Datum → Readings
  | fixnum n _ => { fixnum := some n }
  | slot index generation => { slot := some (index, generation) }
  | symbol id => { symbol := some id }
  | bool b => { bool := some b }
  | nil => { isNil := true }
  | absent => { isAbsent := true }

variable {d e : Datum}

theorem readings_inj : d.readings = e.readings ↔ d = e := by
  cases d <;> cases e <;> simp [readings, Fin.ext_iff]

theorem toNat_append {m n : Nat} (x : BitVec m) (y : BitVec n) :
    (x ++ y).toNat = x.toNat * 2 ^ n + y.toNat := by
  rw [BitVec.toNat_append, ← Nat.shiftLeft_add_eq_or_of_lt y.isLt, Nat.shiftLeft_eq]

/-- No two fields of a word share a bit. -/
theorem toBitVec_word (d : Datum) : d.word.word.toBitVec = d.layout := by
  refine BitVec.eq_of_toNat_eq ?_
  rw [UInt64.toNat_toBitVec]
  cases d with
  | fixnum n fits =>
    rw [layout, toNat_append, word, ofInt, UInt64.ofInt, UInt64.toNat_ofNat', BitVec.toNat_ofInt]
    show _ = (n % 2 ^ 63).toNat * 2 ^ 1 + 0
    omega
  | slot index generation =>
    rw [layout, toNat_append, toNat_append, word, toNat_word_ofSlot _ index.isLt]
    show _ = (index.val * 2 ^ 30 + generation.val) * 2 ^ 2 + 1
    omega
  | symbol id =>
    rw [layout, toNat_append, toNat_append, word, toNat_word_ofSymbol id.isLt]
    show _ = (0 * 2 ^ 32 + id.val) * 2 ^ 4 + 7
    omega
  | bool b => cases b <;> rfl
  | nil => rfl
  | absent => rfl

/-- Reading undoes encoding, and no reader takes the word of one kind for another kind. -/
theorem readings_word (d : Datum) : d.word.readings = d.readings := by
  cases d with
  | fixnum n fits =>
    rw [word, readings_of_isFixnum (isFixnum_ofInt n), fixnum?_ofInt fits]
    rfl
  | slot index generation =>
    have hgeneration : generation.val ≤ maxGeneration := Nat.le_of_lt_succ generation.isLt
    rw [word, readings_of_isRef (isRef_ofSlot _ index.isLt), slotIndex_ofSlot _ index.isLt,
      slotGeneration_ofSlot index.isLt hgeneration]
    rfl
  | symbol id =>
    rw [word, readings_of_isSymbol (isSymbol_ofSymbol id), symbol?_ofSymbol id.isLt]
    rfl
  | bool b => cases b <;> rfl
  | nil => rfl
  | absent => rfl

theorem word_inj : d.word = e.word ↔ d = e := by
  constructor
  · intro h
    rw [← readings_inj, ← readings_word, ← readings_word, h]
  · rintro rfl
    rfl

/-- The words that stand for something. -/
theorem exists_word_eq_iff {v : Value} : (∃ d : Datum, d.word = v) ↔
    v.isFixnum = true ∨ v.isRef = true ∨ (v.isSymbol = true ∧ v.word.toNat < 2 ^ 36) ∨
      v.isBool = true ∨ v.isNil = true ∨ v.isAbsent = true := by
  constructor
  · rintro ⟨d, rfl⟩
    cases d with
    | fixnum n fits => exact .inl (isFixnum_ofInt n)
    | slot index generation => exact .inr (.inl (isRef_ofSlot _ index.isLt))
    | symbol id =>
      have hnarrow := (ofSymbol_symbol?_iff (symbol?_ofSymbol id.isLt)).mp rfl
      exact .inr (.inr (.inl ⟨isSymbol_ofSymbol id, hnarrow⟩))
    | bool b => cases b <;> decide
    | nil => decide
    | absent => decide
  · rintro (hfixnum | href | ⟨hsymbol, hlt⟩ | hbool | hnil | habsent)
    · obtain ⟨n, hn⟩ : ∃ n, v.fixnum? = some n := ⟨_, if_pos hfixnum⟩
      exact ⟨fixnum n (fits_of_fixnum? hn), ofInt_fixnum? hn⟩
    · exact ⟨slot ⟨_, v.slotIndex_lt⟩ ⟨_, v.slotGeneration_lt⟩, ofSlot_slotIndex href⟩
    · obtain ⟨id, hid⟩ : ∃ id, v.symbol? = some id := ⟨_, if_pos hsymbol⟩
      have hwide : id < 2 ^ 32 := by
        obtain ⟨-, rfl⟩ := symbol?_eq_some_iff.mp hid
        exact Nat.mod_lt _ (by decide)
      exact ⟨symbol ⟨id, hwide⟩, (ofSymbol_symbol?_iff hid).mpr hlt⟩
    · rw [isBool, Bool.or_eq_true, beq_iff_eq, beq_iff_eq] at hbool
      obtain rfl | rfl := hbool
      · exact ⟨bool true, rfl⟩
      · exact ⟨bool false, rfl⟩
    · exact ⟨nil, (beq_iff_eq.mp hnil).symm⟩
    · exact ⟨absent, (beq_iff_eq.mp habsent).symm⟩

end Datum

/-! ### The encoding -/

/-- The encoding of values is unambiguous. Reading gives back the datum of a word, and words of
different data differ; an integer has a fixnum word exactly if it is in the range, and every word at all
has one of the three tags and no other. -/
theorem words_unambiguous :
    (∀ d : Datum, d.word.readings = d.readings) ∧
      (∀ d e : Datum, d.word.word = e.word.word ↔ d = e) ∧
      (∀ n fits, ofInt? n = some (Datum.fixnum n fits).word) ∧
      (∀ n, ofInt? n = none ↔ n < -2 ^ 62 ∨ 2 ^ 62 ≤ n) ∧
      ∀ v : Value, [v.isFixnum, v.isRef, v.isImmediate].count true = 1 := by
  refine ⟨Datum.readings_word, fun d e => ?_, fun n fits => ?_, fun n => ?_, count_tags⟩
  · rw [← Datum.word_inj]
    exact ⟨fun h => congrArg mk h, congrArg Value.word⟩
  · exact if_pos (fitsFixnum_iff.mpr fits)
  · rw [ofInt?, ite_eq_right_iff, fitsFixnum_iff]
    simp only [reduceCtorEq, imp_false]
    omega

end ObjectMachine
