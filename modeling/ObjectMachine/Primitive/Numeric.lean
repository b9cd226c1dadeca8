import ObjectMachine.Calls

/-! The built-in methods of numbers. -/

namespace ObjectMachine

namespace Effect

/-- The argument at a place. -/
def argument (args : List Value) (index : Nat) : Effect Value :=
  match args[index]? with
  | some v => pure v
  | none => fault (.other ("missing argument " ++ Digits.ofNat 10 index))

/-- Stores a result of arithmetic. -/
def newNumeral : Numeral → Effect Value
  | .fixnum n => pure (.ofInt n)
  | .integer n => newInteger n
  | .float x => newFloat x

/-- The error of an operator that does not apply to its operands. -/
def unsupportedOperands (op : String) (lhs rhs : Value) : Effect α := do
  let left ← ask (·.typeName lhs)
  let right ← ask (·.typeName rhs)
  raiseError .typeError s!"unsupported operand type(s) for {op}: '{left}' and '{right}'"

/-- Raises what stands for an arithmetic error of `lhs op rhs`. -/
def raiseArithmetic (op : String) (lhs rhs : Value) : ArithmeticError → Effect α
  | .unsupported => unsupportedOperands op lhs rhs
  | .fixnumDivisionByZero => raiseError .zeroDivisionError "Fixnum division by zero"
  | .bignumDivisionByZero => raiseError .zeroDivisionError "Bignum division by zero"
  | .floatDivision => raiseError .zeroDivisionError "float division"
  | .zeroToNegativePower =>
    raiseError .zeroDivisionError "0.0 cannot be raised to a negative power"
  | .exponentTooLarge => raiseError .valueError "exponent too large"
  | .shiftTooWide => raiseError .valueError "shift width too large"
  | .shiftOfFloat => raiseError .typeError "shift of a Float"

/-- Stores the result of `lhs op rhs`, or raises its error. -/
def finishArithmetic (op : String) (lhs rhs : Value) : Except ArithmeticError Numeral → Effect Value
  | .ok n => newNumeral n
  | .error e => raiseArithmetic op lhs rhs e

/-- The integer of a value that has to be a fixnum. -/
def expectFixnum (v : Value) : Effect Int :=
  match v.fixnum? with
  | some n => pure n
  | none => fault (.notAFixnum v)

/-- `receiver op rhs`, where the left operand is already classified. -/
def binary (op : BinOp) (left : Number) (receiver rhs : Value) : Effect Value := do
  match ← ask (·.number? rhs) with
  | none => unsupportedOperands op.symbol receiver rhs
  | some right => finishArithmetic op.symbol receiver rhs (Number.binary op left right)

def fixnumBinary (op : BinOp) (receiver : Value) (args : List Value) : Effect Value := do
  let rhs ← argument args 0
  binary op (.fixed (← expectFixnum receiver)) receiver rhs

def bignumBinary (op : BinOp) (receiver : Value) (args : List Value) : Effect Value := do
  let rhs ← argument args 0
  binary op (.big (← read Facet.bignum receiver)) receiver rhs

def floatBinary (op : BinOp) (receiver : Value) (args : List Value) : Effect Value := do
  let rhs ← argument args 0
  binary op (.float (← read Facet.float receiver)) receiver rhs

/-- The order of two values that have to be numbers. -/
def numberOrder (receiver rhs : Value) : Effect (Option Ordering) := do
  match ← ask (·.number? receiver), ← ask (·.number? rhs) with
  | some left, some right => return Number.compare? left right
  | _, _ =>
    let left ← ask (·.typeName receiver)
    let right ← ask (·.typeName rhs)
    raiseError .typeError s!"comparison of {left} with {right} failed"

/-- Whether two values are equal numbers. -/
def numbersEqual (receiver rhs : Value) : Effect Bool := do
  match ← ask (·.number? receiver), ← ask (·.number? rhs) with
  | some left, some right => return Number.compare? left right == some .eq
  | _, _ => return false

/-- The comparisons of numbers.  Only equality accepts operands that are no numbers. -/
def compareNumbers (c : Comparison) (receiver : Value) (args : List Value) : Effect Value := do
  let rhs ← argument args 0
  match c with
  | .equal => return .ofBool (← numbersEqual receiver rhs)
  | .notEqual => return .ofBool (!(← numbersEqual receiver rhs))
  | .order =>
    match ← numberOrder receiver rhs with
    | some .lt => return .ofInt (-1)
    | some .eq => return .ofInt 0
    | some .gt => return .ofInt 1
    | none => return .nil
  | c => return .ofBool (Number.holds c (← numberOrder receiver rhs))

def numberHash (receiver : Value) : Effect Value := do
  match ← ask (·.number? receiver) with
  | some n => return .ofInt n.hash
  | none => fault (.other s!"hash of non-number {receiver.debug}")

/-- The value of a number literal. -/
def parseNumber (text : String) : Effect Value :=
  match Literal.read? text with
  | some n => newNumeral n
  | none => raiseError .valueError s!"invalid literal for number: '{text}'"

end Effect

end ObjectMachine
