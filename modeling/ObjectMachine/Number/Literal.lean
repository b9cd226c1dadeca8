import ObjectMachine.Number.Basic
import ObjectMachine.Binary64.Decimal

/-! Number literals.

A literal is an optional sign, then either a radix mark `0x`, `0o` or `0b` in either case and digits
of that radix, or decimal digits.  A point or an exponent makes it a double.  Underscores may stand
between two digits.  White space around the literal is ignored. -/

namespace ObjectMachine.Literal

/-- The characters with the Unicode property White_Space. -/
def isBlank (c : Char) : Bool :=
  let n := c.toNat
  (9 ≤ n && n ≤ 13) || n == 0x20 || n == 0x85 || n == 0xA0 || n == 0x1680
    || (0x2000 ≤ n && n ≤ 0x200A) || n == 0x2028 || n == 0x2029 || n == 0x202F || n == 0x205F
    || n == 0x3000

/-- Drops the white space at both ends. -/
def trim (cs : List Char) : List Char :=
  ((cs.dropWhile isBlank).reverse.dropWhile isBlank).reverse

/-- The value of a digit of `radix`, for ASCII digits and letters. -/
def digit? (radix : Nat) (c : Char) : Option Nat :=
  let n :=
    if '0' ≤ c ∧ c ≤ '9' then c.toNat - '0'.toNat
    else if 'a' ≤ c ∧ c ≤ 'z' then c.toNat - 'a'.toNat + 10
    else if 'A' ≤ c ∧ c ≤ 'Z' then c.toNat - 'A'.toNat + 10
    else radix
  if n < radix then some n else none

def isDigit (radix : Nat) (c : Char) : Bool := (digit? radix c).isSome

/-- The number that digits of `radix` spell. -/
def positional (radix : Nat) (cs : List Char) : Nat :=
  Digits.value radix (cs.map fun c => (digit? radix c).getD 0)

/-- The radix mark in front, if any, and what follows it. -/
def splitRadix : List Char → Nat × List Char
  | '0' :: c :: rest =>
    if c == 'x' || c == 'X' then (16, rest)
    else if c == 'o' || c == 'O' then (8, rest)
    else if c == 'b' || c == 'B' then (2, rest)
    else (10, '0' :: c :: rest)
  | cs => (10, cs)

/-- Whether every underscore follows and precedes a digit; `before` tells of the character just
passed. -/
def separated (radix : Nat) (before : Bool) : List Char → Bool
  | [] => true
  | '_' :: rest => before && (rest.head?.any (isDigit radix)) && separated radix false rest
  | c :: rest => separated radix (isDigit radix c) rest

/-- Drops the underscores; none unless each stands between two digits, or if there is no text. -/
def stripSeparators (radix : Nat) (cs : List Char) : Option (List Char) :=
  if cs.isEmpty || !separated radix false cs then none else some (cs.filter (· != '_'))

/-- The characters that make a decimal literal a double. -/
def isFloatMark (c : Char) : Bool := c == '.' || c == 'e' || c == 'E'

/-- The characters a double literal may hold. -/
def isFloatChar (c : Char) : Bool := c.isDigit || isFloatMark c || c == '+' || c == '-'

/-- The literal after its first sign. -/
def readBody (negative : Bool) (body : List Char) : Option Numeral :=
  let (radix, marked) := splitRadix body
  match stripSeparators radix marked with
  | none => none
  | some digits =>
    if radix == 10 && digits.any isFloatMark then
      if digits.all isFloatChar then
        (Binary64.read digits).map fun x => .float (if negative then x.negate else x)
      else none
    else if digits.all (isDigit radix) then
      let n : Int := positional radix digits
      some (.integer (if negative then -n else n))
    else none

/-- The literal a text spells, if it spells one. -/
def read? (text : String) : Option Numeral :=
  match trim text.toList with
  | [] => none
  | '-' :: rest => readBody true rest
  | '+' :: rest => readBody false rest
  | cs => readBody false cs

/-- Hexadecimal text: `0x` and the digits, a minus sign in front. -/
def hex : Int → String
  | .ofNat n => "0x" ++ Digits.ofNat 16 n
  | .negSucc n => "-0x" ++ Digits.ofNat 16 (n + 1)

end ObjectMachine.Literal
