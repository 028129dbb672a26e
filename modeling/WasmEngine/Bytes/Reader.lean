import WasmEngine.Binary.DecodeError
import WasmEngine.Bytes.Integers
import WasmEngine.Text.Utf8

/-!
# Reading bytes

A reader holds the bytes that are left and how many were read before them.  A read consumes exactly
the bytes of what it returns; a failing read reports the offset at which it failed.
-/

namespace WasmEngine

open Binary (DecodeError DecodeErrorKind)

/-- A position in a byte string: the number of bytes before it and the bytes after it. -/
structure Reader where
  pos : Nat
  rest : List UInt8
  deriving Repr

/-- A computation that reads bytes and keeps its position when it fails. -/
abbrev Read := EStateM DecodeError Reader

namespace Reader

/-- The start of a byte string. -/
def start (bytes : List UInt8) : Reader := ⟨0, bytes⟩

/-- The length of the whole byte string. -/
def size (r : Reader) : Nat := r.pos + r.rest.length

/-- How many bytes are left. -/
def remaining (r : Reader) : Nat := r.rest.length

/-- Whether all bytes were read. -/
def atEnd (r : Reader) : Bool := r.rest.isEmpty

/-- Whether `n` more bytes are there. -/
def hasAtLeast (r : Reader) (n : Nat) : Bool := n ≤ r.rest.length

/-- The reader `n` bytes further on. -/
def advance (r : Reader) (n : Nat) : Reader := ⟨r.pos + n, r.rest.drop n⟩

/-- An error at the current offset. -/
def error (r : Reader) (kind : DecodeErrorKind) : DecodeError := ⟨kind, r.pos⟩

end Reader

namespace Read

/-- Fails at the current offset. -/
def fail {α : Type} (kind : DecodeErrorKind) : Read α :=
  fun r => .error (r.error kind) r

/-- The next byte. -/
def byte : Read UInt8 := fun r =>
  match r.rest with
  | [] => .error (r.error .unexpectedEnd) r
  | b :: bs => .ok b ⟨r.pos + 1, bs⟩

/-- The next `n` bytes. -/
def bytes (n : Nat) : Read (List UInt8) := fun r =>
  if r.hasAtLeast n then .ok (r.rest.take n) (r.advance n)
  else .error (r.error .unexpectedEnd) r

/-- Passes over the next `n` bytes. -/
def skip (n : Nat) : Read Unit := fun r =>
  if r.hasAtLeast n then .ok () (r.advance n)
  else .error (r.error .unexpectedEnd) r

/-- A variable-length number, read by a decoder that says how many bytes it took. -/
def leb {α : Type} (decode : List UInt8 → Except Leb128.Error (α × Nat)) : Read α := fun r =>
  match decode r.rest with
  | .ok (value, taken) => .ok value (r.advance taken)
  | .error .unexpectedEnd => .error (r.error .unexpectedEnd) r
  | .error cause => .error (r.error (.leb cause)) r

/-- An unsigned 32-bit number. -/
def u32 : Read Nat := leb (Leb128.decodeUnsigned 32)

/-- An unsigned 64-bit number. -/
def u64 : Read Nat := leb (Leb128.decodeUnsigned 64)

/-- A signed 32-bit number. -/
def i32 : Read Int := leb (Leb128.decodeSigned 32)

/-- A signed 64-bit number. -/
def i64 : Read Int := leb (Leb128.decodeSigned 64)

/-- A little-endian word of `width` bytes. -/
def word (width : Nat) : Read Nat := fun r =>
  if r.hasAtLeast width then .ok (LittleEndian.toNat (r.rest.take width)) (r.advance width)
  else .error (r.error .unexpectedEnd) r

/-- A text in UTF-8 after its length in bytes.  A malformed text is reported at its first byte. -/
def name : Read String := fun r =>
  match u32 r with
  | .error e r => .error e r
  | .ok len r =>
    match bytes len r with
    | .error e r => .error e r
    | .ok bs r' =>
      match Text.ofUtf8? bs with
      | some s => .ok s r'
      | none => .error (r.error .invalidUtf8) r'

end Read

end WasmEngine
