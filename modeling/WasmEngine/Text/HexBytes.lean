import WasmEngine.Text.Digits

/-!
# Bytes in hexadecimal

Two lower-case digits for each byte; upper-case digits are read as well.
-/

namespace WasmEngine.Text

/-- The digits of a byte string. -/
def ofBytes (bytes : List UInt8) : String := String.join (bytes.map fun b => hexFixed 2 b.toNat)

/-- The bytes of pairs of digits. -/
def bytesOfChars? : List Char → Option (List UInt8)
  | [] => some []
  | [_] => none
  | a :: b :: rest => do
    let high ← hexDigit? a
    let low ← hexDigit? b
    return .ofNat (16 * high + low) :: (← bytesOfChars? rest)

/-- The bytes of a text. -/
def toBytes? (s : String) : Option (List UInt8) := bytesOfChars? s.toList

end WasmEngine.Text
