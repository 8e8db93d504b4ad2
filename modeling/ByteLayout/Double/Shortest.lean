import ByteLayout.Double.Basic

/-! # The shortest text of a double

A double is written with the fewest decimal digits that read back as the same double. Of several
such numbers the nearest one is taken, and of two equally near ones the even one. A number whose
point stands far from its digits is written with an exponent. -/

namespace ByteLayout

/-- The two neighbours of `n / d` among the multiples of `10 ^ exponent`, the nearer one first. -/
def Decimal.neighbours (n d : Nat) (exponent : Int) : List Decimal :=
  let n := n * Nat.pow 10 (-exponent).toNat
  let d := d * Nat.pow 10 exponent.toNat
  let nearer := roundQuotient n d
  let other := if nearer = n / d then nearer + 1 else n / d
  [⟨nearer, exponent⟩, ⟨other, exponent⟩]

namespace Magnitude

/-- The most decimal digits that a double needs. -/
def mostDigits : Nat := 17

/-- The decimal number that is exactly `significand * 2 ^ exponent`. -/
def exactDecimal (significand : Nat) (exponent : Int) : Decimal :=
  ⟨significand * Nat.pow 2 exponent.toNat * Nat.pow 5 (-exponent).toNat, min exponent 0⟩

/-- The shortest decimal number that reads back as `significand * 2 ^ exponent`, for a significand
that is not zero. -/
def shortest (significand : Nat) (exponent : Int) : Decimal :=
  let n := significand * Nat.pow 2 exponent.toNat
  let d := Nat.pow 2 (-exponent).toNat
  let place := decimalPlace n d
  let candidates := (List.range mostDigits).flatMap fun (more : Nat) =>
    Decimal.neighbours n d (place - more)
  (candidates.find? fun x => ofDecimal x = .finite significand exponent).getD
    (exactDecimal significand exponent)

end Magnitude

namespace Decimal

/-- The significant digits of a decimal number and the number of places before its point. -/
def significant (x : Decimal) : List Char × Int :=
  let digits := Nat.toDigits 10 x.digits
  ((digits.reverse.dropWhile (· = '0')).reverse, digits.length + x.exponent)

/-- Digits with a point after the first `point` places. There is a digit on both sides of it. -/
def positional (digits : List Char) (point : Int) : List Char :=
  let padded := List.replicate (1 - point).toNat '0' ++ digits
  let whole := (max point 1).toNat
  let filled := padded ++ List.replicate (whole + 1 - padded.length) '0'
  filled.take whole ++ '.' :: filled.drop whole

/-- Digits with a point after the first of them and an exponent of at least two digits. -/
def scientific (digits : List Char) (exponent : Int) : List Char :=
  let fraction := if digits.length ≤ 1 then [] else '.' :: digits.drop 1
  let power := Nat.toDigits 10 exponent.natAbs
  digits.take 1 ++ fraction ++ 'e' :: (if exponent < 0 then '-' else '+') ::
    (List.replicate (2 - power.length) '0' ++ power)

/-- The text of a decimal number: positional from `10 ^ (-4)` up to below `10 ^ 16`, otherwise with
an exponent. -/
def render (x : Decimal) : List Char :=
  let (digits, point) := x.significant
  if -4 < point && point ≤ 16 then positional digits point else scientific digits (point - 1)

end Decimal

namespace Double

/-- The text of a double. -/
def render (x : Double) : String :=
  let size := match x.magnitude with
    | .infinite => "inf"
    | .finite 0 _ => "0.0"
    | .finite significand exponent =>
      String.ofList (Magnitude.shortest significand exponent).render
  if x.negative then "-" ++ size else size

end Double

end ByteLayout
