import ResponseShape.Written.Value

/-!
# Ranges of written numbers

A text writes numbers with any digits it likes, but the built-in scalars hold only some of them:
`Int` holds the integers of 32 bits, and `Float` what rounds to a finite binary fraction of double
precision. Both are decided on the digits, in exact arithmetic.
-/

namespace ResponseShape

/-- The size of a number written in decimal: a coefficient, scaled by a power of ten. -/
structure Decimal where
  coefficient : Nat
  exponent : Int
deriving Inhabited

namespace Decimal

/-- The number that digits write. -/
def ofDigits (digits : List Char) : Nat :=
  digits.foldl (fun number digit => 10 * number + (digit.toNat - '0'.toNat)) 0

/-- The exponent that a text gives behind the letter that announces it. -/
def ofExponent : List Char → Int
  | '-' :: digits => -(ofDigits digits : Int)
  | '+' :: digits => ofDigits digits
  | digits => ofDigits digits

/-- The size of the number that a text writes: digits, which a sign precedes and a fraction and an
exponent follow where they are given. -/
def ofText (text : String) : Decimal :=
  let (whole, rest) := (text.toList.dropWhile (· == '-')).span Char.isDigit
  let (fraction, rest) := (rest.dropWhile (· == '.')).span Char.isDigit
  ⟨ofDigits (whole ++ fraction), ofExponent (rest.drop 1) - fraction.length⟩

/-- From this size on, numbers round to infinity in double precision. It has 309 digits. -/
def infinite : Nat := (Nat.pow 2 54 - 1) * Nat.pow 2 970

/-- Whether a size rounds to a finite one in double precision. The number of digits decides, unless
it is that of `infinite`. -/
def isFinite (decimal : Decimal) : Bool :=
  let digits : Int := (Nat.toDigits 10 decimal.coefficient).length + decimal.exponent
  decimal.coefficient == 0 || digits < 309
    || (digits == 309
      && decimal.coefficient * Nat.pow 10 decimal.exponent.toNat
        < infinite * Nat.pow 10 (-decimal.exponent).toNat)

end Decimal

namespace Value

/-- Whether a value is an integer of 32 bits. -/
def isSmallInt : Value → Bool
  | .int digits => digits.toInt?.any fun number => -2147483648 ≤ number && number < 2147483648
  | _ => false

/-- Whether a value is a number of finite size in double precision. -/
def isFiniteNumber : Value → Bool
  | .int digits | .float digits => (Decimal.ofText digits).isFinite
  | _ => false

/-- Whether a value is `null`. -/
def isNull : Value → Bool
  | .null => true
  | _ => false

end Value

end ResponseShape
