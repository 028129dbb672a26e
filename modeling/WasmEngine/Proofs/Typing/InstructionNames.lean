import WasmEngine.Opcode

/-!
# The names of the instructions

The names are spelled in ASCII, so that the characters of a name are its bytes (`Opcode.toList_name`).  What is said of
all rows of the table is checked on those, without decoding the names.
-/

namespace WasmEngine

namespace Text

/-- The characters that have the bytes of a text as code points. -/
def byteChars (s : String) : List Char := s.toByteArray.data.toList.map fun b => Char.ofNat b.toNat

/-- Whether all bytes of a text are code points of ASCII. -/
def isAscii (s : String) : Bool := s.toByteArray.data.toList.all fun b => b.toNat.blt 128

/-- A character that is spelled by ASCII bytes is spelled by its code point. -/
theorem utf8EncodeChar_of_ascii {c : Char} (plain : ∀ b ∈ String.utf8EncodeChar c, b.toNat < 128) :
    (String.utf8EncodeChar c).map (fun b => Char.ofNat b.toNat) = [c] := by
  have lead {b : UInt8} {bs : List UInt8} (spelled : String.utf8EncodeChar c = b :: bs) : b.toNat < 128 :=
    plain b (spelled ▸ List.mem_cons_self)
  unfold String.utf8EncodeChar at lead ⊢
  by_cases single : c.val.toNat ≤ 127
  · have whole : c.val.toNat % 256 = c.toNat := Nat.mod_eq_of_lt (by omega)
    simp only [if_pos single, List.map_cons, List.map_nil, UInt8.toNat_ofNat', whole, Char.ofNat_toNat]
  · -- the first byte of a longer spelling has its top bit set
    simp only [if_neg single] at lead
    split at lead
    · have := lead rfl
      rw [UInt8.toNat_ofNat'] at this
      omega
    · split at lead
      all_goals
        have := lead rfl
        rw [UInt8.toNat_ofNat'] at this
        omega

theorem flatMap_utf8EncodeChar_of_ascii {cs : List Char}
    (plain : ∀ b ∈ cs.flatMap String.utf8EncodeChar, b.toNat < 128) :
    (cs.flatMap String.utf8EncodeChar).map (fun b => Char.ofNat b.toNat) = cs := by
  induction cs with
  | nil => rfl
  | cons c cs ih =>
    rw [List.flatMap_cons] at plain ⊢
    rw [List.map_append, utf8EncodeChar_of_ascii fun b inside => plain b (List.mem_append_left _ inside),
      ih fun b inside => plain b (List.mem_append_right _ inside)]
    rfl

/-- The characters of an ASCII text are its bytes. -/
theorem toList_of_isAscii {s : String} (plain : isAscii s = true) : s.toList = byteChars s := by
  have bytes : s.toByteArray.data.toList = s.toList.flatMap String.utf8EncodeChar := by
    rw [← String.utf8Encode_toList, List.utf8Encode, List.data_toByteArray, List.toList_toArray]
  rw [isAscii, bytes, List.all_eq_true] at plain
  rw [byteChars, bytes, flatMap_utf8EncodeChar_of_ascii fun b inside => Nat.blt_eq.mp (plain b inside)]

end Text

namespace Opcode

set_option maxRecDepth 4000 in
/-- The names of the instructions are ASCII. -/
theorem isAscii_name : ∀ op ∈ table, Text.isAscii op.name = true := by decide +kernel

theorem toList_name {op : Opcode} (listed : op ∈ table) : op.name.toList = Text.byteChars op.name :=
  Text.toList_of_isAscii (isAscii_name op listed)

/-- The rows on a type, or those on none. -/
def rowsOn (object : Option Valtype) : List Opcode := table.filter (·.object == object)

/-- The rows of an object are the listed instructions on it. -/
theorem mem_rowsOn {op : Opcode} {object : Option Valtype} :
    op ∈ rowsOn object ↔ op ∈ table ∧ op.object = object := by
  rw [rowsOn, List.mem_filter, beq_iff_eq]

end Opcode

end WasmEngine
