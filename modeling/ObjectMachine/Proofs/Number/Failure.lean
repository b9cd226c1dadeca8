import Mathlib.Tactic
import ObjectMachine.Proofs.Machine.Raising
import ObjectMachine.Proofs.Number.Integer

/-! How operators on numbers end.

A binary operator computes a numeral or an arithmetic error from its operands alone.  A numeral is
stored.  An error is raised as an exception whose class and message follow from the error, and on a
machine with room for that exception there is no other way for the method to end. -/

namespace ObjectMachine

namespace ArithmeticError

/-- The class of the exception that stands for an arithmetic error. -/
def kind : ArithmeticError → ErrorKind
  | .unsupported | .shiftOfFloat => .typeError
  | .fixnumDivisionByZero | .bignumDivisionByZero | .floatDivision | .zeroToNegativePower =>
    .zeroDivisionError
  | .exponentTooLarge | .shiftTooWide => .valueError

/-- The message of that exception. -/
def message (m : Machine) (op : String) (lhs rhs : Value) : ArithmeticError → String
  | .unsupported =>
    s!"unsupported operand type(s) for {op}: '{m.typeName lhs}' and '{m.typeName rhs}'"
  | .fixnumDivisionByZero => "Fixnum division by zero"
  | .bignumDivisionByZero => "Bignum division by zero"
  | .floatDivision => "float division"
  | .zeroToNegativePower => "0.0 cannot be raised to a negative power"
  | .exponentTooLarge => "exponent too large"
  | .shiftTooWide => "shift width too large"
  | .shiftOfFloat => "shift of a Float"

end ArithmeticError

/-- Room for an exception, its message and a trace with a line for each frame. -/
def Machine.Spacious (m : Machine) : Prop := m.heap.slots.size + m.frames.length + 3 ≤ 2 ^ 32

theorem Machine.Spacious.size_lt {m : Machine} (h : m.Spacious) : m.heap.slots.size < 2 ^ 32 := by
  unfold Spacious at h
  omega

/-- The effect ends with a live built-in error on its way. -/
def Effect.Throws {α : Type} (x : Effect α) (m : Machine) (kind : ErrorKind) (message : String) :
    Prop :=
  ∃ exc m', x m = .error (.raise exc) m' ∧ m'.IsError kind message exc ∧ m'.classes = m.classes

/-- A built-in method of an integer raises a built-in error. -/
def Raises (calls : Calls) (m : Machine) (receiver : Value) (name : String) (args : List Value)
    (kind : ErrorKind) (message : String) : Prop :=
  ∃ p, (integerMethods receiver).find? name = some p ∧
    (p.perform calls receiver args).Throws m kind message

namespace Effect

open Machine

variable {calls : Calls} {m : Machine} {x y : Value} {a b : Int} {α : Type}

theorem raiseArithmetic_eq (symbol : String) (lhs rhs : Value) (e : ArithmeticError) (m : Machine) :
    (raiseArithmetic symbol lhs rhs e : Effect α) m =
      raiseError e.kind (e.message m symbol lhs rhs) m := by
  cases e <;> rfl

/-- Every arithmetic error is raised. -/
theorem throws_raiseArithmetic (hm : m.Intact) (hroom : m.Spacious) (symbol : String)
    (lhs rhs : Value) (e : ArithmeticError) :
    (raiseArithmetic symbol lhs rhs e : Effect α).Throws m e.kind (e.message m symbol lhs rhs) := by
  obtain ⟨exc, m', hraise, herror⟩ := exists_raised hm hroom e.kind (e.message m symbol lhs rhs)
  exact ⟨exc, m', (raiseArithmetic_eq symbol lhs rhs e m).trans hraise, herror⟩

/-- A method whose operator has no result raises. -/
theorem raises_of_binary (op : BinOp) (hm : m.Intact) (hroom : m.Spacious)
    (hx : m.integer? x = some a) (hy : m.integer? y = some b) {e : ArithmeticError}
    (h : ∀ left right : Number, left.IsInteger a → right.IsInteger b →
      Number.binary op left right = .error e) :
    Raises calls m x op.symbol [y] e.kind (e.message m op.symbol x y) := by
  refine ⟨_, integerMethods_find? x op, ?_⟩
  obtain ⟨left, hleft, hperform⟩ := perform_binary calls hx op y
  obtain ⟨right, hy, hright⟩ := isInteger_of_integer? hy
  obtain ⟨exc, m', hraise, herror⟩ := throws_raiseArithmetic (α := Value) hm hroom op.symbol x y e
  refine ⟨exc, m', ?_, herror⟩
  rw [hperform, binary_of_number? hy, h left right hleft hright]
  exact hraise

end Effect

end ObjectMachine
