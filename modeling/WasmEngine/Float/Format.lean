/-!
# Binary floating point formats

A format has a sign bit, an exponent field and a fraction field.  Numbers are handled as bit
patterns; `unpack` gives the exact number behind a pattern and `round` the pattern nearest to an
exact number.
-/

namespace WasmEngine

/-- The widths of the exponent and fraction fields. -/
structure FloatFormat where
  exponentBits : Nat
  fractionBits : Nat
  deriving DecidableEq, Repr

/-- Single precision. -/
def binary32 : FloatFormat := ⟨8, 23⟩

/-- Double precision. -/
def binary64 : FloatFormat := ⟨11, 52⟩

/-- The number behind a bit pattern: `significand * 2 ^ exponent` with a sign, which zero has too. -/
inductive Unpacked where
  | nan
  | infinite (negative : Bool)
  | finite (negative : Bool) (significand : Nat) (exponent : Int)
  deriving DecidableEq, Repr

namespace FloatFormat

variable (f : FloatFormat)

/-- All bits of a pattern. -/
def width : Nat := 1 + f.exponentBits + f.fractionBits

/-- The weight of the sign bit. -/
def signBit : Nat := 1 <<< (f.exponentBits + f.fractionBits)

/-- The weight of the lowest bit of the exponent field, one more than the greatest fraction. -/
def hidden : Nat := 1 <<< f.fractionBits

/-- The exponent field of infinities and NaNs. -/
def topField : Nat := 1 <<< f.exponentBits - 1

/-- The exponent of the number one. -/
def bias : Nat := 1 <<< (f.exponentBits - 1) - 1

/-- The least exponent of a normal number. -/
def minNormal : Int := 1 - (f.bias : Int)

/-- The exponent of the smallest positive number. -/
def minExponent : Int := f.minNormal - f.fractionBits

/-- Whether the sign bit is set. -/
def isNegative (bits : Nat) : Bool := bits / f.signBit % 2 = 1

/-- The pattern without its sign bit. -/
def magnitude (bits : Nat) : Nat := bits % f.signBit

/-- The exponent field. -/
def exponentField (bits : Nat) : Nat := f.magnitude bits / f.hidden

/-- The fraction field. -/
def fractionField (bits : Nat) : Nat := bits % f.hidden

/-- The magnitude of infinity; NaNs lie above it. -/
def infinity : Nat := f.topField * f.hidden

/-- The bit that tells quiet NaNs from signalling ones. -/
def quietBit : Nat := 1 <<< (f.fractionBits - 1)

/-- The quiet NaN without payload. -/
def quietNan : Nat := f.infinity + f.quietBit

/-- A magnitude with a sign. -/
def withSign (negative : Bool) (magnitude : Nat) : Nat :=
  if negative then f.signBit + magnitude else magnitude

/-- Whether a pattern is a NaN. -/
def isNan (bits : Nat) : Bool := f.infinity < f.magnitude bits

/-- Whether a pattern is an infinity. -/
def isInfinite (bits : Nat) : Bool := f.magnitude bits = f.infinity

/-- The exact number behind a pattern. -/
def unpack (bits : Nat) : Unpacked :=
  let field := f.exponentField bits
  let fraction := f.fractionField bits
  let negative := f.isNegative bits
  if field = f.topField then
    if fraction = 0 then .infinite negative else .nan
  else if field = 0 then .finite negative fraction f.minExponent
  else .finite negative (f.hidden + fraction) (f.minExponent + (field - 1 : Nat))

/-- The integer nearest to `m / 2 ^ shift`, ties to the even one.  If `inexact`, the number lies
strictly between `m` and `m + 1` before the division. -/
def roundShift (m shift : Nat) (inexact : Bool) : Nat :=
  let unit := 1 <<< shift
  let quotient := m / unit
  let remainder := m % unit
  if 2 * remainder > unit || (2 * remainder = unit && (inexact || quotient % 2 = 1)) then
    quotient + 1
  else quotient

/-- The magnitude nearest to `m * 2 ^ e`, ties to even, infinity beyond the greatest number.  If
`inexact`, the number is a little greater, and `m` must then have more bits than the format keeps.

Patterns of finite numbers are in the order of the numbers, so that a significand which rounds up to
the next power of two carries into the exponent field by itself. -/
def roundMagnitude (m : Nat) (e : Int) (inexact : Bool) : Nat :=
  if m = 0 then 0
  else
    let unit := max (e + (m.log2 : Int) - f.fractionBits) f.minExponent
    let shift := unit - e
    let units := if shift ≤ 0 then m <<< (-shift).toNat else roundShift m shift.toNat inexact
    min f.infinity ((unit - f.minExponent).toNat * f.hidden + units)

/-- The pattern nearest to `± m * 2 ^ e`. -/
def round (negative : Bool) (m : Nat) (e : Int) (inexact : Bool) : Nat :=
  f.withSign negative (f.roundMagnitude m e inexact)

/-- The pattern nearest to the quotient of two naturals, the second not zero. -/
def roundQuotient (negative : Bool) (num den : Nat) : Nat :=
  let shift := f.fractionBits + 3 + den.log2 - num.log2
  let scaled := num <<< shift
  f.round negative (scaled / den) (-(shift : Int)) (scaled % den != 0)

/-- The pattern nearest to an integer. -/
def ofInt (n : Int) : Nat := f.round (n < 0) n.natAbs 0 false

end FloatFormat

end WasmEngine
