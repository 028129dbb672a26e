import WasmEngine.Bytes.Integers
import WasmEngine.Text.Utf8

/-!
# Writing bytes

The byte strings of the pieces that a binary module is put together from.
-/

namespace WasmEngine.Write

/-- The four bytes that open a module, and its version. -/
def preamble : List UInt8 := [0x00, 0x61, 0x73, 0x6d, 0x01, 0x00, 0x00, 0x00]

/-- An unsigned number. -/
def unsigned (n : Nat) : List UInt8 := Leb128.encodeUnsigned n

/-- A signed number. -/
def signed (v : Int) : List UInt8 := Leb128.encodeSigned v

/-- Bytes after their count. -/
def byteVector (bytes : List UInt8) : List UInt8 :=
  unsigned (bytes.length % UInt32.size) ++ bytes

/-- A text after its length in bytes. -/
def name (s : String) : List UInt8 := byteVector (Text.utf8Bytes s)

/-- A section: its number, then its body after the body's size. -/
def sectionOf (id : UInt8) (body : List UInt8) : List UInt8 := id :: byteVector body

end WasmEngine.Write
