import WasmEngine.Float.Format
import WasmEngine.Text.Digits

/-!
# Floating point text

Numbers are spelled in decimal or hexadecimal digits.
-/

/-! ## Decimal spellings

Reading rounds the exact decimal to the nearest number.  Writing uses the fewest digits that read
back as the same number, the nearest such decimal among them, and never an exponent.
-/

namespace WasmEngine.FloatFormat

variable (f : FloatFormat)

/-- The pattern nearest to `± digits * 10 ^ exponent`.  A decimal exponent far outside the format
settles the result without computing the power. -/
def ofDecimal (negative : Bool) (digits : Nat) (exponent : Int) : Nat :=
  if digits = 0 then f.withSign negative 0
  else
    let magnitude : Int := exponent + (Nat.toDigits 10 digits).length
    if magnitude > 400 then f.withSign negative f.infinity
    else if magnitude < -400 then f.withSign negative 0
    else if 0 ≤ exponent then f.round negative (digits * Nat.pow 10 exponent.toNat) 0 false
    else f.roundQuotient negative digits (Nat.pow 10 (-exponent).toNat)

/-- The digits before and after the point and the exponent of an unsigned decimal spelling. -/
def splitDecimal (cs : List Char) : List Char × List Char × List Char :=
  let mantissa := cs.takeWhile fun c => c != 'e' && c != 'E'
  let exponent := (cs.dropWhile fun c => c != 'e' && c != 'E').drop 1
  (mantissa.takeWhile (· != '.'), (mantissa.dropWhile (· != '.')).drop 1, exponent)

/-- The exponent written after `e`, zero where nothing is written. -/
def decimalExponent : List Char → Int
  | '-' :: cs => -((Text.foldDigits? 10 0 cs).getD 0 : Int)
  | '+' :: cs => (Text.foldDigits? 10 0 cs).getD 0
  | cs => (Text.foldDigits? 10 0 cs).getD 0

/-- The number nearest to an unsigned decimal spelling. -/
def readDecimal (negative : Bool) (cs : List Char) : Nat :=
  let (whole, fraction, exponent) := splitDecimal cs
  f.ofDecimal negative ((Text.foldDigits? 10 0 (whole ++ fraction)).getD 0)
    (decimalExponent exponent - fraction.length)

/-- A positive number with the interval of reals that round to it, all three scaled by a common
denominator.  The ends belong to the interval if `closed`. -/
structure Neighbourhood where
  value : Nat
  low : Nat
  high : Nat
  scale : Nat
  closed : Bool

/-- The neighbourhood of `m * 2 ^ e`.  The gap below a power of two is half the gap above it, except
at the bottom of the format. -/
def neighbourhood (m : Nat) (e : Int) : Neighbourhood :=
  let narrow := m = f.hidden && e != f.minExponent
  let up := 1 <<< e.toNat
  { value := 4 * m * up
    low := (if narrow then 4 * m - 1 else 4 * m - 2) * up
    high := (4 * m + 2) * up
    scale := 4 <<< (-e).toNat
    closed := m % 2 = 0 }

/-- Whether `digits * 10 ^ k`, given as `num / den`, rounds to the number. -/
def Neighbourhood.contains (n : Neighbourhood) (num den : Nat) : Bool :=
  let point := num * n.scale
  if n.closed then n.low * den ≤ point && point ≤ n.high * den
  else n.low * den < point && point < n.high * den

/-- The best decimal on the grid `10 ^ k`: of the two neighbours of the number on it, those that
round to the number, the nearer of the two, the upper one on a tie. -/
def Neighbourhood.onGrid? (n : Neighbourhood) (k : Int) : Option Nat :=
  let up := Nat.pow 10 k.toNat
  let down := Nat.pow 10 (-k).toNat
  let num := n.value * down
  let den := n.scale * up
  let below := num / den
  let above := below + 1
  let belowFits := n.contains (below * up) down
  let aboveFits := n.contains (above * up) down
  if aboveFits && (!belowFits || 2 * (num % den) ≥ den) then some above
  else if belowFits then some below
  else none

/-- The first grid with a decimal that rounds to the number, from coarse to fine.  Seventeen digits
are enough for the widest format. -/
def Neighbourhood.search (n : Neighbourhood) (k : Int) : Nat → Nat × Int
  | 0 => (0, 0)
  | tries + 1 =>
    match n.onGrid? k with
    | some digits => (digits, k)
    | none => n.search (k - 1) tries

/-- The position of the leading decimal digit of `num / den`, counted from the units. -/
def leadingPosition (num den : Nat) : Int :=
  if den ≤ num then ((Nat.toDigits 10 (num / den)).length : Int) - 1
  else -((Nat.toDigits 10 (den / num)).length : Int)

/-- The shortest decimal `digits * 10 ^ k` that rounds to `m * 2 ^ e`. -/
def shortest (m : Nat) (e : Int) : Nat × Int :=
  let n := f.neighbourhood m e
  n.search (leadingPosition n.value n.scale + 1) 20

/-- A decimal without exponent. -/
def positional (digits : Nat) (k : Int) : String :=
  let cs := Nat.toDigits 10 digits
  if 0 ≤ k then String.ofList (cs ++ List.replicate k.toNat '0')
  else
    let places := (-k).toNat
    let padded := List.replicate (places + 1 - cs.length) '0' ++ cs
    let fraction := padded.drop (padded.length - places)
    let trimmed := (fraction.reverse.dropWhile (· = '0')).reverse
    let whole := String.ofList (padded.take (padded.length - places))
    if trimmed.isEmpty then whole else whole ++ "." ++ String.ofList trimmed

/-- The decimal text of a pattern. -/
def display (bits : Nat) : String :=
  match f.unpack bits with
  | .nan => "NaN"
  | .infinite s => if s then "-inf" else "inf"
  | .finite s m e =>
    let body := if m = 0 then "0" else let (digits, k) := f.shortest m e; positional digits k
    if s then "-" ++ body else body

end WasmEngine.FloatFormat

/-! ## Hexadecimal spellings

The reader keeps the first sixty bits of the digits exactly and only whether anything follows them,
rounds to the precision that the exponent leaves, and builds the pattern from the rounded digits.
The writer gives the exact number with a leading one.

Both stand for routines of a library (`readHex?`, `displayHex`), written after its documentation.  What theorems
assume of the library is one fact about the reader, that it never gives a magnitude that reaches the sign bit
(`readHex?_lt`); the writer only makes texts for messages, and no theorem looks into them.
-/

namespace WasmEngine.FloatFormat

variable (f : FloatFormat)

/-- The digits gathered so far: the bits kept, how many there are, by how many the digits that no
longer fit scale them, and whether one of those was not zero. -/
structure HexDigits where
  significand : Nat
  bits : Nat
  overflow : Nat
  sticky : Bool

/-- Takes one more digit.  Zeros before the first other digit have no weight. -/
def HexDigits.push (h : HexDigits) (d : Nat) : HexDigits :=
  if h.bits = 0 ∧ d = 0 then h
  else if h.bits < 60 then { h with significand := h.significand * 16 + d, bits := h.bits + 4 }
  else { h with overflow := h.overflow + 4, sticky := h.sticky || d != 0 }

/-- The digits of a mantissa, none if one of the characters is no digit. -/
def hexDigits? : HexDigits → List Char → Option HexDigits
  | h, [] => some h
  | h, c :: cs =>
    match Text.hexDigit? c with
    | some d => hexDigits? (h.push d) cs
    | none => none

/-- The exponent after `p`: a 64-bit number from which one `+` was dropped first. -/
def hexExponent? (cs : List Char) : Option Int :=
  let body := match cs with
    | '+' :: rest => rest
    | _ => cs
  match body with
  | '-' :: rest => ((Text.digits? 10 rest).filter (· ≤ 0x8000000000000000)).map fun n => -(n : Int)
  | _ => (Text.unsigned? 10 0x8000000000000000 body).map fun n => (n : Int)

/-- Rounds the kept digits to `precision` bits, ties to even unless something follows them.  The flag
tells a carry into a new leading bit. -/
def roundDigits (h : HexDigits) (precision : Nat) : Nat × Bool :=
  let size := h.significand.log2 + 1
  if size ≤ precision then (h.significand <<< (precision - size), false)
  else
    let rounded := roundShift h.significand (size - precision) h.sticky
    if rounded = 1 <<< precision then (1 <<< (precision - 1), true) else (rounded, false)

/-- The magnitude of digits scaled by `2 ^ exponent`. -/
def ofHexDigits (h : HexDigits) (exponent : Int) : Nat :=
  if h.significand = 0 then 0
  else
    let top := exponent + h.overflow + h.significand.log2
    if top < f.minExponent - 1 then 0
    else if top = f.minExponent - 1 then
      if h.significand = 1 <<< h.significand.log2 ∧ ¬ h.sticky then 0 else 1
    else
      let precision :=
        if f.minNormal ≤ top then f.fractionBits + 1 else (top - f.minExponent + 1).toNat
      let (rounded, carried) := roundDigits h precision
      let top := if carried then top + 1 else top
      if (f.bias : Int) < top then f.infinity
      else if f.minNormal ≤ top then (top + f.bias).toNat * f.hidden + rounded % f.hidden
      else if carried then rounded * 2 else rounded

/-- The magnitude of an unsigned hexadecimal spelling after `0x`, as the library for these spellings reads it. -/
def readHex? (cs : List Char) : Option Nat :=
  let isMark := fun c => c == 'p' || c == 'P'
  let mantissa := cs.takeWhile fun c => !isMark c
  let exponent? := match cs.dropWhile fun c => !isMark c with
    | _ :: rest => hexExponent? rest
    | [] => some 0
  let whole := mantissa.takeWhile (· != '.')
  let fraction := (mantissa.dropWhile (· != '.')).drop 1
  match exponent? with
  | none => none
  | some exponent =>
    if whole.isEmpty && fraction.isEmpty then none
    else
      (hexDigits? ⟨0, 0, 0, false⟩ (whole ++ fraction)).map fun h =>
        f.ofHexDigits h (exponent - 4 * fraction.length)

/-- A signed exponent, the sign always written. -/
def signedExponent (e : Int) : String := if e < 0 then toString e else "+" ++ toString e

/-- The hexadecimal digits of `fraction / 2 ^ bits` without trailing zeros. -/
def hexFraction (fraction bits : Nat) : String :=
  let digits := (bits + 3) / 4
  let cs := (Text.hexFixed digits (fraction <<< (4 * digits - bits))).toList
  String.ofList (cs.reverse.dropWhile (· = '0')).reverse

/-- The hexadecimal text of a pattern, as the library for these spellings writes it. -/
def displayHex (bits : Nat) : String :=
  let body := match f.unpack bits with
    | .nan =>
      let payload := f.fractionField bits
      if payload = f.quietBit then "nan" else "nan:0x" ++ Text.hex payload
    | .infinite _ => "inf"
    | .finite _ m e =>
      if m = 0 then "0x0p+0"
      else
        let top := m.log2
        let fraction := hexFraction (m - 1 <<< top) top
        let point := if fraction.isEmpty then "" else "." ++ fraction
        "0x1" ++ point ++ "p" ++ signedExponent (e + top)
  if f.isNegative bits then "-" ++ body else body

end WasmEngine.FloatFormat
