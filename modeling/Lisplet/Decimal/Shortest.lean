import Lisplet.Decimal.Pattern

/-!
# Shortest Decimal

Writing a double: of all decimals that read back as the double, one with the
fewest digits, and of these the nearest. The search tries the multiples of ever
smaller powers of ten, starting with one that exceeds the double, and compares
exactly.
-/

namespace Lisplet.Decimal

/-- The number `mantissa * 2 ^ exponent`. -/
structure Binary where
  mantissa : Nat
  exponent : Int
  deriving DecidableEq, Repr

/-- The magnitude of a finite double, from its bit pattern. -/
def Binary.ofBits (bits : Nat) : Binary :=
  let field : Nat := bits / exponentBit % 2048
  let fraction : Nat := bits % exponentBit
  if field = 0 then ⟨fraction, minExponent⟩
  else ⟨exponentBit + fraction, (field : Int) - 1 + minExponent⟩

/-- The number `digits * 10 ^ exponent`. -/
structure Scaled where
  digits : Nat
  exponent : Int
  deriving DecidableEq, Repr

/--
The multiple of `10 ^ exponent` to write for `b`, if one lies among the reals
that round to `b`. The bounds of these reals belong to them when the mantissa is
even. Of two such multiples the nearer is taken, in a tie the larger.
-/
def Binary.onGrid? (b : Binary) (exponent : Int) : Option Scaled :=
  let shift := b.exponent - 2
  let scale := twoPow shift.toNat * tenPow (-exponent).toNat
  let unit := tenPow exponent.toNat * twoPow (-shift).toNat
  let value := 4 * b.mantissa * scale
  -- Below a power of two doubles are twice as dense.
  let lower := (4 * b.mantissa - if b.mantissa = exponentBit then 1 else 2) * scale
  let upper := (4 * b.mantissa + 2) * scale
  let even := b.mantissa % 2 == 0
  let below := value / unit
  let belowFits := lower < below * unit || even && lower == below * unit
  let above := below + 1
  let aboveFits := above * unit < upper || even && above * unit == upper
  if belowFits && (!aboveFits || 2 * (value % unit) < unit) then some ⟨below, exponent⟩
  else if aboveFits then some ⟨above, exponent⟩
  else none

/-- Tries at most `tries` powers of ten, the largest first. -/
def Binary.search (b : Binary) (exponent : Int) : (tries : Nat) → Option Scaled
  | 0 => none
  | tries + 1 =>
    match b.onGrid? exponent with
    | some found => some found
    | none => b.search (exponent - 1) tries

/-- An exponent of a power of ten above `b`. -/
def Binary.startExponent (b : Binary) : Int :=
  ((b.mantissa.log2 : Int) + b.exponent + 1) * 30103 / 100000 + 1

/--
The decimal to write for `b`. Seventeen digits are always enough, and the start
is at most three places too high.
-/
def Binary.shortest (b : Binary) : Scaled :=
  if b.mantissa = 0 then ⟨0, 0⟩ else (b.search b.startExponent 20).getD ⟨0, 0⟩

/--
A decimal written without an exponent and with at least one digit on either side
of the point.
-/
def Scaled.positional (d : Scaled) : String :=
  let digits := (toString d.digits).toList
  let zeros (n : Nat) := List.replicate n '0'
  if 0 ≤ d.exponent then
    String.ofList (digits ++ zeros d.exponent.toNat ++ ['.', '0'])
  else
    let places := (-d.exponent).toNat
    if places < digits.length then
      let whole := digits.length - places
      String.ofList (digits.take whole ++ '.' :: digits.drop whole)
    else
      String.ofList ('0' :: '.' :: zeros (places - digits.length) ++ digits)

/-- The text of a double. Those that are not finite have names, which are not literals. -/
def floatText (x : Float) : String :=
  let bits := x.toBits.toNat
  let negative := signBit ≤ bits
  let magnitude := bits % signBit
  if infinityBits < magnitude then "nan"
  else if magnitude = infinityBits then if negative then "-inf" else "inf"
  else
    let text := (Binary.ofBits magnitude).shortest.positional
    if negative then "-" ++ text else text

end Lisplet.Decimal
