import WasmEngine.Float.Format

/-!
# Floating point operations

Every operation computes the exact result on integers and rounds it once.  A NaN operand is
returned quiet, the first of two; an operation without a result gives the negative quiet NaN.
-/

namespace WasmEngine.FloatFormat

variable (f : FloatFormat)

/-- A NaN with its quiet bit set. -/
def quiet (bits : Nat) : Nat :=
  if bits / f.quietBit % 2 = 1 then bits else bits + f.quietBit

/-- The NaN of an operation that has no result. -/
def invalid : Nat := f.withSign true f.quietNan

/-- The NaN that an operation on NaN operands returns. -/
def propagate (a b : Nat) : Nat := if f.isNan a then f.quiet a else f.quiet b

/-- The pattern with its sign bit clear. -/
def abs (a : Nat) : Nat := f.magnitude a

/-- The pattern with its sign bit turned. -/
def neg (a : Nat) : Nat := f.withSign (!f.isNegative a) (f.magnitude a)

/-- The magnitude of the first with the sign of the second. -/
def copysign (a b : Nat) : Nat := f.withSign (f.isNegative b) (f.magnitude a)

/-- An integer with a sign that also says which zero it is. -/
def signed (negative : Bool) (m : Nat) : Int := if negative then -(m : Int) else m

/-- The sum. -/
def add (a b : Nat) : Nat :=
  match f.unpack a, f.unpack b with
  | .nan, _ => f.propagate a b
  | _, .nan => f.propagate a b
  | .infinite s, .infinite t => if s = t then a else f.invalid
  | .infinite _, _ => a
  | _, .infinite _ => b
  | .finite s m d, .finite t n e =>
    let unit := min d e
    let sum := signed s (m <<< (d - unit).toNat) + signed t (n <<< (e - unit).toNat)
    if sum = 0 then f.withSign (s && t) 0
    else f.round (sum < 0) sum.natAbs unit false

/-- The difference. -/
def sub (a b : Nat) : Nat := if f.isNan b then f.propagate a b else f.add a (f.neg b)

/-- The product. -/
def mul (a b : Nat) : Nat :=
  match f.unpack a, f.unpack b with
  | .nan, _ => f.propagate a b
  | _, .nan => f.propagate a b
  | .infinite s, .infinite t => f.withSign (s != t) f.infinity
  | .infinite s, .finite t n _ => if n = 0 then f.invalid else f.withSign (s != t) f.infinity
  | .finite s m _, .infinite t => if m = 0 then f.invalid else f.withSign (s != t) f.infinity
  | .finite s m d, .finite t n e => f.round (s != t) (m * n) (d + e) false

/-- The quotient. -/
def div (a b : Nat) : Nat :=
  match f.unpack a, f.unpack b with
  | .nan, _ => f.propagate a b
  | _, .nan => f.propagate a b
  | .infinite _, .infinite _ => f.invalid
  | .infinite s, .finite t _ _ => f.withSign (s != t) f.infinity
  | .finite s _ _, .infinite t => f.withSign (s != t) 0
  | .finite s m d, .finite t n e =>
    if n = 0 then if m = 0 then f.invalid else f.withSign (s != t) f.infinity
    else if d ≤ e then f.roundQuotient (s != t) m (n <<< (e - d).toNat)
    else f.roundQuotient (s != t) (m <<< (d - e).toNat) n

/-- The greatest natural whose square is at most `n`, found by halving: `bits` bounds the number of
binary digits still to settle. -/
def rootFrom (n : Nat) : Nat → Nat → Nat
  | 0, root => root
  | bits + 1, root =>
    let next := root + 1 <<< bits
    if next * next ≤ n then rootFrom n bits next else rootFrom n bits root

/-- The integer part of a square root. -/
def root (n : Nat) : Nat := rootFrom n (n.log2 / 2 + 1) 0

/-- The square root. -/
def sqrt (a : Nat) : Nat :=
  match f.unpack a with
  | .nan => f.quiet a
  | .infinite s => if s then f.invalid else a
  | .finite s m e =>
    if m = 0 then a
    else if s then f.invalid
    else
      let odd := (e % 2).toNat
      let extra := f.fractionBits + 3
      let scaled := m <<< (odd + 2 * extra)
      let r := root scaled
      f.round false r ((e - odd) / 2 - extra) (r * r != scaled)

/-- A way to choose an integer near `m / 2 ^ shift`, given the sign of the number. -/
def roundIntegral (choose : Bool → Nat → Nat → Nat) (a : Nat) : Nat :=
  match f.unpack a with
  | .nan => f.quiet a
  | .infinite _ => a
  | .finite s m e =>
    if 0 ≤ e then a else f.round s (choose s m (-e).toNat) 0 false

/-- The least integer that is not below. -/
def ceil (a : Nat) : Nat :=
  f.roundIntegral (fun s m k => if s || m % (1 <<< k) = 0 then m >>> k else m >>> k + 1) a

/-- The greatest integer that is not above. -/
def floor (a : Nat) : Nat :=
  f.roundIntegral (fun s m k => if !s || m % (1 <<< k) = 0 then m >>> k else m >>> k + 1) a

/-- The integer part. -/
def trunc (a : Nat) : Nat := f.roundIntegral (fun _ m k => m >>> k) a

/-- The nearest integer, ties to even. -/
def nearest (a : Nat) : Nat := f.roundIntegral (fun _ m k => roundShift m k false) a

/-- The order of two patterns that are not NaN: patterns of one sign are in the order of their
magnitudes, and the two zeros are equal. -/
def key (a : Nat) : Int := signed (f.isNegative a) (f.magnitude a)

/-- Whether neither pattern is a NaN. -/
def ordered (a b : Nat) : Bool := !f.isNan a && !f.isNan b

/-- Equality of numbers. -/
def eq (a b : Nat) : Bool := f.ordered a b && f.key a == f.key b

/-- The strict order of numbers. -/
def lt (a b : Nat) : Bool := f.ordered a b && decide (f.key a < f.key b)

/-- The order of numbers. -/
def le (a b : Nat) : Bool := f.ordered a b && decide (f.key a ≤ f.key b)

/-- The lesser number; of two zeros the negative one. -/
def min (a b : Nat) : Nat :=
  if !f.ordered a b then f.quietNan
  else if f.eq a b then a ||| b
  else if f.lt a b then a else b

/-- The greater number; of two zeros the positive one. -/
def max (a b : Nat) : Nat :=
  if !f.ordered a b then f.quietNan
  else if f.eq a b then a &&& b
  else if f.lt a b then b else a

/-- The nearest pattern of another format.  A NaN keeps its sign and the upper bits of its payload. -/
def convert (g : FloatFormat) (a : Nat) : Nat :=
  match f.unpack a with
  | .nan =>
    let payload := f.fractionField a
    let moved := if f.fractionBits ≤ g.fractionBits
      then payload <<< (g.fractionBits - f.fractionBits)
      else payload >>> (f.fractionBits - g.fractionBits)
    g.quiet (g.withSign (f.isNegative a) (g.infinity + moved))
  | .infinite s => g.withSign s g.infinity
  | .finite s m e => g.round s m e false

/-- The integer part of a finite number. -/
def toInt? (a : Nat) : Option Int :=
  match f.unpack a with
  | .finite s m e => some (signed s (if 0 ≤ e then m <<< e.toNat else m >>> (-e).toNat))
  | _ => none

/-- The integer part held within `low..high`; a NaN counts as zero. -/
def toIntClamped (low high : Int) (a : Nat) : Int :=
  match f.unpack a with
  | .nan => 0
  | .infinite s => if s then low else high
  | .finite s m e =>
    let n := signed s (if 0 ≤ e then m <<< e.toNat else m >>> (-e).toNat)
    if n < low then low else if high < n then high else n

end WasmEngine.FloatFormat
