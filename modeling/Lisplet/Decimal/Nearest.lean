import Lisplet.Decimal.Pattern

/-!
# Nearest Double

Reading a decimal: the double nearest to a quotient of natural numbers, computed
exactly. A tie goes to the even neighbour, and what is too large becomes infinite.
-/

namespace Lisplet.Decimal

/-- The largest `l` with `2 ^ l ≤ num / den`, for positive `num` and `den`. -/
def floorLog2 (num den : Nat) : Int :=
  let l : Int := num.log2 - den.log2
  if den * twoPow l.toNat ≤ num * twoPow (-l).toNat then l else l - 1

/-- The integer nearest to `num / den`; a tie goes to the even one. -/
def roundHalfEven (num den : Nat) : Nat :=
  let quotient := num / den
  let twice := 2 * (num % den)
  if twice < den then quotient
  else if den < twice then quotient + 1
  else quotient + quotient % 2

/-- The bit pattern of the double nearest to `num / den`. -/
def nearestBits (num den : Nat) : Nat :=
  if num = 0 then 0
  else
    let exponent := max (floorLog2 num den - 52) minExponent
    let mantissa :=
      roundHalfEven (num * twoPow (-exponent).toNat) (den * twoPow exponent.toNat)
    -- A mantissa of 53 bits carries into the exponent field, also when it was rounded up to 54.
    min ((exponent - minExponent).toNat * exponentBit + mantissa) infinityBits

/-- The double nearest to `digits / 10 ^ places`. -/
def nearest (negative : Bool) (digits places : Nat) : Float :=
  let magnitude := Float.ofBits (nearestBits digits (tenPow places)).toUInt64
  if negative then -magnitude else magnitude

end Lisplet.Decimal
