/-! The operators of numbers. -/

namespace ObjectMachine

/-- The binary operators of numbers. -/
inductive BinOp where
  | add | sub | mul | div | floorDiv | mod | pow | and | or | xor | shl | shr
  deriving DecidableEq

namespace BinOp

/-- Every operator, in the order in which the number classes list them. -/
def all : List BinOp :=
  [.add, .sub, .mul, .div, .floorDiv, .mod, .pow, .and, .or, .xor, .shl, .shr]

/-- The selector of an operator. -/
def symbol : BinOp → String
  | .add => "+"
  | .sub => "-"
  | .mul => "*"
  | .div => "/"
  | .floorDiv => "//"
  | .mod => "%"
  | .pow => "**"
  | .and => "&"
  | .or => "|"
  | .xor => "^"
  | .shl => "<<"
  | .shr => ">>"

end BinOp

/-- The comparisons of numbers. -/
inductive Comparison where
  | order | equal | notEqual | less | lessEqual | greater | greaterEqual
  deriving DecidableEq

end ObjectMachine
