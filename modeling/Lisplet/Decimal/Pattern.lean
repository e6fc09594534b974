/-!
# Bit Patterns of Doubles

Where the fields of a bit pattern begin: the fraction takes 52 bits, the exponent
11 bits above it, and the sign the highest bit.
-/

namespace Lisplet.Decimal

/-- The natural number two to the power of `n`. -/
def twoPow (n : Nat) : Nat := Nat.pow 2 n

/-- The natural number ten to the power of `n`. -/
def tenPow (n : Nat) : Nat := Nat.pow 10 n

/--
The lowest bit of the exponent. It is also the highest bit of the mantissa of a
normal double, which the pattern leaves out.
-/
def exponentBit : Nat := twoPow 52

def signBit : Nat := twoPow 63

/-- The bit pattern of positive infinity. -/
def infinityBits : Nat := 2047 * exponentBit

/-- The exponent of the smallest positive double, which is two to that power. -/
def minExponent : Int := -1074

end Lisplet.Decimal
