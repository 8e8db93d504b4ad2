/-! # Numbers of double precision

A number with a fraction is kept to 53 binary digits. `Double.ofDecimal` takes a decimal number to
the nearest such number, a tie to the even neighbour. All arithmetic is exact, on quotients of
naturals. -/

namespace ByteLayout

/-- The decimal number `digits * 10 ^ exponent`. -/
structure Decimal where
  digits : Nat
  exponent : Int
  deriving DecidableEq, Repr, Inhabited

/-- The size of a double: `significand * 2 ^ exponent`, or beyond the largest of these. -/
inductive Magnitude where
  | finite (significand : Nat) (exponent : Int)
  | infinite
  deriving DecidableEq, Repr, Inhabited

/-- A number of double precision. Zero has a sign too. -/
structure Double where
  negative : Bool
  magnitude : Magnitude
  deriving DecidableEq, Repr, Inhabited

/-- The number of binary digits of a positive number. -/
def binaryDigits (n : Nat) : Nat := n.log2 + 1

/-- The number of decimal digits of a number. -/
def decimalDigits (n : Nat) : Nat := (Nat.toDigits 10 n).length

/-- The one of `k` and `k - 1` that is the greatest place with `base ^ place ≤ n / d`, where `k` is
by how many digits `n` is longer than `d`. -/
def leadingPlace (base : Nat) (k : Int) (n d : Nat) : Int :=
  if d * base.pow k.toNat ≤ n * base.pow (-k).toNat then k else k - 1

/-- The greatest `k` with `2 ^ k ≤ n / d`, for positive `n` and `d`. -/
def binaryPlace (n d : Nat) : Int := leadingPlace 2 ((binaryDigits n : Int) - binaryDigits d) n d

/-- The greatest `k` with `10 ^ k ≤ n / d`, for positive `n` and `d`. -/
def decimalPlace (n d : Nat) : Int :=
  leadingPlace 10 ((decimalDigits n : Int) - decimalDigits d) n d

/-- The natural number nearest to `n / d`; a tie goes to the even neighbour. -/
def roundQuotient (n d : Nat) : Nat :=
  let below := n / d
  let twice := 2 * (n % d)
  if twice < d then below else if d < twice then below + 1 else below + below % 2

namespace Magnitude

/-- The number of binary digits of a significand. -/
def significantDigits : Nat := 53

/-- The exponent of the smallest doubles. -/
def leastExponent : Int := -1074

/-- The exponent of the largest doubles. -/
def greatestExponent : Int := 971

/-- Zero. -/
def zero : Magnitude := .finite 0 leastExponent

/-- The size nearest to `n / d`, for a positive `d`. -/
def nearest (n d : Nat) : Magnitude :=
  if n = 0 then zero
  else
    let exponent := max (binaryPlace n d - (significantDigits - 1)) leastExponent
    let rounded := roundQuotient (n * Nat.pow 2 (-exponent).toNat) (d * Nat.pow 2 exponent.toNat)
    let (significand, exponent) :=
      if rounded = Nat.pow 2 significantDigits then
        (Nat.pow 2 (significantDigits - 1), exponent + 1)
      else (rounded, exponent)
    if greatestExponent < exponent then .infinite else .finite significand exponent

/-- The size nearest to a decimal number. A number below `10 ^ (-330)` is less than half of the
smallest double, and one from `10 ^ 310` on is beyond the largest; they are told by their places. -/
def ofDecimal (x : Decimal) : Magnitude :=
  let places : Int := decimalDigits x.digits + x.exponent
  if x.digits = 0 || places ≤ -330 then zero
  else if 310 < places then .infinite
  else nearest (x.digits * Nat.pow 10 x.exponent.toNat) (Nat.pow 10 (-x.exponent).toNat)

end Magnitude

namespace Double

/-- The double nearest to a decimal number with a sign. -/
def ofDecimal (negative : Bool) (x : Decimal) : Double := ⟨negative, .ofDecimal x⟩

/-- Whether a double is zero, of either sign. -/
def isZero (x : Double) : Bool :=
  match x.magnitude with
  | .finite significand _ => significand = 0
  | .infinite => false

/-- The whole part of a finite double, cut off toward zero. -/
def wholePart? (x : Double) : Option Int :=
  match x.magnitude with
  | .finite significand exponent =>
    let whole : Int := (significand * Nat.pow 2 exponent.toNat / Nat.pow 2 (-exponent).toNat : Nat)
    some (if x.negative then -whole else whole)
  | .infinite => none

/-- The greatest integer that is not above a finite double. -/
def floor? (x : Double) : Option Int :=
  match x.magnitude with
  | .finite significand exponent =>
    let n : Int := (significand * Nat.pow 2 exponent.toNat : Nat)
    some ((if x.negative then -n else n).fdiv (Nat.pow 2 (-exponent).toNat))
  | .infinite => none

end Double

end ByteLayout
