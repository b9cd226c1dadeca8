/-! Digits of natural numbers and the text of integers.

`Digits.value` reads digits and `Digits.digits` finds them.  Both halve their work: reading joins
neighbours into digits of the squared base, and finding divides by the largest of the repeated
squares of the base first.  So the numbers that meet in a product or a quotient have about the same
length, which keeps very long ones affordable.

Every text the machine writes for an integer goes through `Digits.ofNat`: the digits of the chosen
base, most significant first, lower case, and a single `0` for zero.  `Digits.ofInt` puts the sign
in front, and `Digits.padded` fills up with a leading character. -/

namespace ObjectMachine.Digits

/-! ### Reading -/

/-- Joins neighbours, the less significant first: half as many digits, of the squared base. -/
def pairUp (base : Nat) : List Nat → List Nat
  | low :: high :: rest => (low + base * high) :: pairUp base rest
  | digits => digits

/-- The number that digits spell, the least significant first, with at most so many rounds of
joining before the rest is added up digit by digit. -/
def join : Nat → Nat → List Nat → Nat
  | _, _, [] => 0
  | _, _, [digit] => digit
  | 0, base, digits => digits.foldr (fun digit n => digit + base * n) 0
  | rounds + 1, base, digits => join rounds (base * base) (pairUp base digits)

/-- The number that digits of `base` spell, the most significant first. -/
def value (base : Nat) (digits : List Nat) : Nat := join digits.length base digits.reverse

/-! ### Finding -/

/-- The repeated squares of `power` up to `n`, the largest first, in front of `found`. -/
def squaresUpTo (n : Nat) : Nat → Nat → List Nat → List Nat
  | 0, _, found => found
  | rounds + 1, power, found =>
    if n < power then found else squaresUpTo n rounds (power * power) (power :: found)

/-- Digits of `n`, with zeros in front: each power halves what the ones before it left whole. -/
def split : List Nat → Nat → List Nat
  | [], n => [n]
  | power :: powers, n => split powers (n / power) ++ split powers (n % power)

/-- The digits of `n` in `base`, the most significant first; zero has one digit. -/
def digits (base n : Nat) : List Nat :=
  match (split (squaresUpTo n (n.log2 + 1) base []) n).dropWhile (· == 0) with
  | [] => [0]
  | significant => significant

/-! ### Text -/

/-- The digits of `n` in `base` as text. -/
def ofNat (base n : Nat) : String := String.ofList ((digits base n).map Nat.digitChar)

/-- Decimal text of an integer, with a leading minus sign for negative ones. -/
def ofInt : Int → String
  | .ofNat n => ofNat 10 n
  | .negSucc n => "-" ++ ofNat 10 (n + 1)

/-- Fills `text` up to `width` characters with `fill` on the left. -/
def padded (width : Nat) (fill : Char) (text : String) : String :=
  String.ofList (List.replicate (width - text.length) fill) ++ text

end ObjectMachine.Digits
