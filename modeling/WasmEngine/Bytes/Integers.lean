/-!
# Integers as bytes

Integers are spelled with as many bytes as they need (`Leb128`), or with a fixed number of them
(`LittleEndian`).
-/

/-! ## LEB128

Variable-length integers: groups of seven bits, least significant first, the top bit of a byte set
on all but the last.  A reader for `bits`-bit numbers takes at most `maxBytes bits` bytes and
accepts spellings that are longer than needed.
-/

namespace WasmEngine.Leb128

/-- Why a byte list spells no number. -/
inductive Error where
  | unexpectedEnd
  | tooLong
  | tooLarge
  deriving DecidableEq, Repr

/-- The text of an error. -/
def Error.message : Error → String
  | unexpectedEnd => "unexpected end"
  | tooLong => "integer representation too long"
  | tooLarge => "integer too large"

/-- The greatest number of bytes that a `bits`-bit number may take. -/
def maxBytes (bits : Nat) : Nat := (bits + 6) / 7

/-- The seven payload bits of a byte. -/
def payload (b : UInt8) : Nat := b.toNat % 128

/-- Whether another byte follows. -/
def continues (b : UInt8) : Bool := 128 ≤ b.toNat

/-- Reads on after `i` bytes that denote `acc`.  The last byte that may be read has to leave the bits
beyond the width clear. -/
def decodeUnsignedFrom (bits i acc : Nat) : List UInt8 → Except Error (Nat × Nat)
  | [] => .error .unexpectedEnd
  | b :: bs =>
    if maxBytes bits ≤ i then .error .tooLong
    else if i + 1 = maxBytes bits ∧ 1 <<< (bits - 7 * i) ≤ payload b then .error .tooLarge
    else
      let value := acc + payload b <<< (7 * i)
      if continues b then decodeUnsignedFrom bits (i + 1) value bs else .ok (value, i + 1)

/-- An unsigned `bits`-bit number and how many bytes it took. -/
def decodeUnsigned (bits : Nat) (bytes : List UInt8) : Except Error (Nat × Nat) :=
  decodeUnsignedFrom bits 0 0 bytes

/-- Whether the sign bit and the bits above it agree in the last byte that may be read, of which
`used` bits belong to the number. -/
def signFits (used p : Nat) : Bool :=
  p >>> (used - 1) = 0 || p >>> (used - 1) = 127 >>> (used - 1)

/-- Reads on after `i` bytes whose groups denote `acc`; bit six of the final byte is the sign. -/
def decodeSignedFrom (bits i acc : Nat) : List UInt8 → Except Error (Int × Nat)
  | [] => .error .unexpectedEnd
  | b :: bs =>
    if maxBytes bits ≤ i then .error .tooLong
    else if i + 1 = maxBytes bits ∧ ¬ signFits (bits - 7 * i) (payload b) then .error .tooLarge
    else
      let value := acc + payload b <<< (7 * i)
      if continues b then decodeSignedFrom bits (i + 1) value bs
      else if 64 ≤ payload b then .ok ((value : Int) - (1 <<< (7 * (i + 1)) : Nat), i + 1)
      else .ok (value, i + 1)

/-- A signed `bits`-bit number in two's complement and how many bytes it took. -/
def decodeSigned (bits : Nat) (bytes : List UInt8) : Except Error (Int × Nat) :=
  decodeSignedFrom bits 0 0 bytes

/-- The shortest spelling of a natural number. -/
def encodeUnsigned (n : Nat) : List UInt8 :=
  if n < 128 then [UInt8.ofNat n]
  else UInt8.ofNat (n % 128 + 128) :: encodeUnsigned (n / 128)

/-- The shortest spelling of an integer: it ends as soon as what is left is the sign of the group
just written. -/
def encodeSigned (v : Int) : List UInt8 :=
  let group := (v % 128).toNat
  let rest := v / 128
  if (rest = 0 ∧ group < 64) ∨ (rest = -1 ∧ 64 ≤ group) then [UInt8.ofNat group]
  else UInt8.ofNat (group + 128) :: encodeSigned rest
termination_by v.natAbs
decreasing_by
  all_goals grind

end WasmEngine.Leb128

namespace WasmEngine

/-- A 64-bit integer as a signed upper and an unsigned lower half. -/
structure LongNumber where
  high : Int
  low : Nat
  deriving DecidableEq, Repr

/-- The halves of an integer. -/
def LongNumber.ofInt (v : Int) : LongNumber := ⟨v / UInt32.size, (v % UInt32.size).toNat⟩

/-- The integer with these halves. -/
def LongNumber.toInt (n : LongNumber) : Int := n.high * UInt32.size + n.low

end WasmEngine

/-! ## Little-endian words

The number spelled by a byte list, least significant byte first, and the bytes of a number.
-/

namespace WasmEngine.LittleEndian

/-- The number whose bytes these are. -/
def toNat : List UInt8 → Nat
  | [] => 0
  | b :: bs => b.toNat + 256 * toNat bs

/-- The lowest `width` bytes of a number. -/
def bytes : Nat → Nat → List UInt8
  | 0, _ => []
  | width + 1, n => UInt8.ofNat (n % 256) :: bytes width (n / 256)

@[simp] theorem length_bytes (width n : Nat) : (bytes width n).length = width := by
  induction width generalizing n with
  | zero => rfl
  | succ width ih => simp [bytes, ih]

/-- Reading what was written gives the number modulo the width. -/
theorem toNat_bytes (width n : Nat) : toNat (bytes width n) = n % 1 <<< (8 * width) := by
  induction width generalizing n with
  | zero => simp [bytes, toNat, Nat.mod_one]
  | succ width ih =>
    have byte : (UInt8.ofNat (n % 256)).toNat = n % 256 := by simp
    have wider : 1 <<< (8 * (width + 1)) = 256 * 1 <<< (8 * width) := by
      rw [Nat.mul_succ, Nat.one_shiftLeft, Nat.one_shiftLeft, Nat.pow_add, Nat.mul_comm]
    rw [bytes, toNat, ih, byte, wider, Nat.mod_mul]

end WasmEngine.LittleEndian
