import ObjectMachine.Binary64.Basic

/-! Decimal text of double precision numbers.

Reading takes the exact decimal value and rounds it once; a written exponent counts up to a bound.  Writing keeps twelve significant digits,
a tie going to the even digit, in positional form while the decimal exponent lies between -4 and 11
and in exponent form otherwise, and drops the zeros at the end of the fraction that follow a
digit. -/

namespace ObjectMachine.Binary64

/-! ### Reading -/

/-- The digits that characters stand for. -/
def digitValues (cs : List Char) : List Nat := cs.map fun c => c.toNat - '0'.toNat

/-- Splits the digits off the front. -/
def spanDigits (cs : List Char) : List Char × List Char := cs.span Char.isDigit

/-- The double nearest to the number that decimal digits spell, times `10 ^ exponent`.  Magnitudes
far outside the range of finite numbers are answered without building the power of ten. -/
def ofDecimal (digits : List Nat) (exponent : Int) : Binary64 :=
  let significant := digits.dropWhile (· == 0)
  let size : Int := significant.length + exponent
  if significant.isEmpty ∨ size < -400 then zero false
  else if size > 400 then infinity false
  else
    let mantissa := Digits.value 10 significant
    if 0 ≤ exponent then ofRatio false (mantissa * Nat.pow 10 exponent.toNat) 1
    else ofRatio false mantissa (Nat.pow 10 (-exponent).toNat)

/-- An exponent stops growing once it has reached this bound. -/
def exponentBound : Nat := 1 <<< 16

/-- The exponent that digits spell; those after it has reached the bound change nothing. -/
def exponentValue (digits : List Nat) : Nat :=
  digits.foldl (fun n digit => if n < exponentBound then 10 * n + digit else n) 0

/-- The exponent part: nothing at all, or `e` or `E`, an optional sign and at least one digit. -/
def readExponent : List Char → Option Int
  | [] => some 0
  | c :: cs =>
    if c == 'e' || c == 'E' then
      let (negative, ds) := match cs with
        | '-' :: rest => (true, rest)
        | '+' :: rest => (false, rest)
        | rest => (false, rest)
      if ds.isEmpty || !ds.all Char.isDigit then none
      else
        let e : Int := exponentValue (digitValues ds)
        some (if negative then -e else e)
    else none

/-- Digits, an optional point with digits after it, and an optional exponent; at least one digit
stands beside the point. -/
def readUnsigned (cs : List Char) : Option Binary64 :=
  let (whole, rest) := spanDigits cs
  let (fraction, rest) := match rest with
    | '.' :: rest => spanDigits rest
    | rest => ([], rest)
  if whole.isEmpty && fraction.isEmpty then none
  else (readExponent rest).map fun e =>
    ofDecimal (digitValues (whole ++ fraction)) (e - fraction.length)

/-- An unsigned decimal number after an optional sign. -/
def read : List Char → Option Binary64
  | '-' :: cs => (readUnsigned cs).map negate
  | '+' :: cs => readUnsigned cs
  | cs => readUnsigned cs

/-! ### Writing -/

/-- How many significant digits a text keeps. -/
def textDigits : Nat := 12

/-- The decimal exponent of a positive quotient of at least 10⁻⁴⁰⁰: the place of its first digit. -/
def decimalExponent (num den : Nat) : Int :=
  ((Digits.digits 10 (num * Nat.pow 10 400 / den)).length : Int) - 401

/-- The quotient times `10 ^ places`, rounded to an integer. -/
def scaledNearest (num den : Nat) (places : Int) : Nat :=
  if 0 ≤ places then nearestEven (num * Nat.pow 10 places.toNat) den
  else nearestEven num (den * Nat.pow 10 (-places).toNat)

/-- The significant digits of a quotient as one integer, and the exponent of the first of them. -/
def significant (num den : Nat) : Nat × Int :=
  if num = 0 then (0, 0)
  else
    let e := decimalExponent num den
    let digits := scaledNearest num den (textDigits - 1 - e)
    if digits = Nat.pow 10 textDigits then (Nat.pow 10 (textDigits - 1), e + 1) else (digits, e)

/-- Puts a point in front of the last `places` digits of `n`. -/
def withPoint (n places : Nat) : List Char :=
  let digits := (Digits.padded (places + 1) '0' (Digits.ofNat 10 n)).toList
  digits.take (digits.length - places) ++ '.' :: digits.drop (digits.length - places)

/-- Drops zeros from the front as long as a digit follows each. -/
def dropZeros : List Char → List Char
  | '0' :: c :: cs => if c.isDigit then dropZeros (c :: cs) else '0' :: c :: cs
  | cs => cs

/-- Drops the zeros at the end that follow a digit. -/
def stripZeros (cs : List Char) : List Char := (dropZeros cs.reverse).reverse

/-- The exponent mark: a sign and at least two digits. -/
def exponentText (e : Int) : String :=
  (if e < 0 then "e-" else "e+") ++ Digits.padded 2 '0' (Digits.ofNat 10 e.natAbs)

/-- The text of the magnitude of a finite number. -/
def magnitudeText (x : Binary64) : String :=
  let (digits, e) := significant x.magnitude unitsPerOne
  if e < -4 ∨ textDigits ≤ e then
    String.ofList (stripZeros (withPoint digits (textDigits - 1))) ++ exponentText e
  else
    let places := (textDigits - 1 - e).toNat
    String.ofList (stripZeros (withPoint (scaledNearest x.magnitude unitsPerOne places) places))

/-- The text of a number. -/
def text (x : Binary64) : String :=
  if x.isNaN then "NaN"
  else
    let body := if x.isInfinite then "inf" else magnitudeText x
    if x.signBit then "-" ++ body else body

end ObjectMachine.Binary64
