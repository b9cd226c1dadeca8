import ObjectMachine.Digits

/-! Tagged words.

A value is one 64-bit word, and its low bits say how the rest is read:

* `…0` is a fixnum, a signed integer of 63 bits;
* `…01` is a reference: the slot index in the upper 32 bits, the slot's generation in the 30 bits
  between index and tag;
* `…0011` is one of the specials `absent`, `nil`, `false` and `true`;
* `…0111` is a symbol, whose number starts at bit 4.

The tag alone decides the reading, so no fixnum can be taken for a reference or the other way
round. -/

namespace ObjectMachine

/-- A tagged 64-bit word. -/
structure Value where
  word : UInt64
  deriving DecidableEq, Inhabited

namespace Value

/-- Absence of a value; programs never see it inside a table. -/
def absent : Value := ⟨0x03⟩

/-- The value `nil`. -/
def nil : Value := ⟨0x13⟩

/-- The value `false`. -/
def no : Value := ⟨0x23⟩

/-- The value `true`. -/
def yes : Value := ⟨0x33⟩

/-- The boolean value for `b`. -/
def ofBool (b : Bool) : Value := if b then yes else no

/-- Least fixnum. -/
def minFixnum : Int := -0x4000000000000000

/-- Greatest fixnum. -/
def maxFixnum : Int := 0x3fffffffffffffff

/-- Greatest generation a reference can carry. -/
def maxGeneration : Nat := 0x3fffffff

/-- Whether an integer can be a fixnum. -/
def fitsFixnum (n : Int) : Bool := minFixnum ≤ n && n ≤ maxFixnum

/-- The fixnum word for `n`; meaningful when `n` fits. -/
def ofInt (n : Int) : Value := ⟨UInt64.ofInt (2 * n)⟩

/-- The fixnum for `n`, if it fits. -/
def ofInt? (n : Int) : Option Value := if fitsFixnum n then some (ofInt n) else none

/-- The fixnum for a natural number; meaningful when it fits. -/
def ofNat (n : Nat) : Value := ofInt n

/-- Reference to slot `index` at `generation`. -/
def ofSlot (index generation : Nat) : Value :=
  ⟨UInt64.ofNat (index * 0x100000000 + generation % 0x40000000 * 4 + 1)⟩

/-- Symbol number `id`. -/
def ofSymbol (id : Nat) : Value := ⟨UInt64.ofNat (id * 16 + 7)⟩

def isFixnum (v : Value) : Bool := v.word % 2 == 0

def isRef (v : Value) : Bool := v.word % 4 == 1

def isImmediate (v : Value) : Bool := v.word % 4 == 3

def isSpecial (v : Value) : Bool := v.word % 16 == 3

def isSymbol (v : Value) : Bool := v.word % 16 == 7

def isAbsent (v : Value) : Bool := v == absent

def isNil (v : Value) : Bool := v == nil

def isBool (v : Value) : Bool := v == yes || v == no

/-- Everything except `nil`, `false` and `absent` counts as true. -/
def isTruthy (v : Value) : Bool := !(v.isNil || v == no || v.isAbsent)

/-- The integer of a fixnum. -/
def fixnum? (v : Value) : Option Int :=
  if v.isFixnum then some (v.word.toInt64.toInt / 2) else none

/-- The slot index in a reference. -/
def slotIndex (v : Value) : Nat := (v.word / 4294967296).toNat

/-- The generation in a reference. -/
def slotGeneration (v : Value) : Nat := (v.word / 4 % 1073741824).toNat

/-- The number of a symbol. -/
def symbol? (v : Value) : Option Nat :=
  if v.isSymbol then some ((v.word / 16 % 4294967296).toNat) else none

/-- The truth value of a boolean. -/
def bool? (v : Value) : Option Bool := if v.isBool then some (v == yes) else none

/-- Diagnostic text of a word. -/
def debug (v : Value) : String :=
  match v.fixnum? with
  | some n => s!"Fixnum({Digits.ofInt n})"
  | none =>
    if v.isRef then s!"Ref(#{Digits.ofNat 10 v.slotIndex}@{Digits.ofNat 10 v.slotGeneration})"
    else match v.symbol? with
    | some id => s!"Symbol({Digits.ofNat 10 id})"
    | none =>
      if v.isAbsent then "Undef"
      else if v.isNil then "Nil"
      else if v == yes then "True"
      else if v == no then "False"
      else "Immediate(0x" ++ Digits.padded 16 '0' (Digits.ofNat 16 v.word.toNat) ++ ")"

end Value

end ObjectMachine
