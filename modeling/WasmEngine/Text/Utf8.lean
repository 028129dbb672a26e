/-!
# UTF-8

Strict reading of a byte list as text, and the lossy reading that puts one replacement character
for each maximal run of bytes that starts, but does not complete, a character.
-/

namespace WasmEngine.Text

/-- The bytes of a text. -/
def utf8Bytes (s : String) : List UInt8 := s.toUTF8.toList

/-- The text spelled by well-formed bytes. -/
def ofUtf8? (bytes : List UInt8) : Option String :=
  String.fromUTF8? ⟨bytes.toArray⟩

/-- The bytes of one character encoded after its lead byte: how many continuation bytes follow, and
the range of the first of them. -/
structure LeadByte where
  continuation : Nat
  low : Nat
  high : Nat
  bits : Nat

/-- What a lead byte announces; `none` for a byte that starts no character. -/
def leadByte? (b : Nat) : Option LeadByte :=
  if b < 0x80 then some ⟨0, 0, 0, b⟩
  else if 0xC2 ≤ b ∧ b ≤ 0xDF then some ⟨1, 0x80, 0xBF, b - 0xC0⟩
  else if b = 0xE0 then some ⟨2, 0xA0, 0xBF, 0⟩
  else if b = 0xED then some ⟨2, 0x80, 0x9F, 0xD⟩
  else if 0xE1 ≤ b ∧ b ≤ 0xEF then some ⟨2, 0x80, 0xBF, b - 0xE0⟩
  else if b = 0xF0 then some ⟨3, 0x90, 0xBF, 0⟩
  else if 0xF1 ≤ b ∧ b ≤ 0xF3 then some ⟨3, 0x80, 0xBF, b - 0xF0⟩
  else if b = 0xF4 then some ⟨3, 0x80, 0x8F, 4⟩
  else none

/-- Reads up to `k` continuation bytes, the first within `low..high`.  Gives the code point when
all are there, and what is left to read in either case. -/
def continuation (low high acc : Nat) : Nat → List UInt8 → Option Nat × List UInt8
  | 0, bs => (some acc, bs)
  | _ + 1, [] => (none, [])
  | k + 1, b :: bs =>
    if low ≤ b.toNat ∧ b.toNat ≤ high then
      continuation 0x80 0xBF (acc * 64 + (b.toNat - 0x80)) k bs
    else (none, b :: bs)

theorem length_continuation_le (k : Nat) (low high acc : Nat) (bs : List UInt8) :
    (continuation low high acc k bs).2.length ≤ bs.length := by
  induction k generalizing low high acc bs with
  | zero => simp [continuation]
  | succ k ih =>
    cases bs with
    | nil => simp [continuation]
    | cons b bs =>
      simp only [continuation]
      split
      · exact Nat.le_succ_of_le (ih ..)
      · simp

/-- The characters of a byte list, with `U+FFFD` in place of each malformed run. -/
def lossyChars (bytes : List UInt8) : List Char :=
  match bytes with
  | [] => []
  | b :: bs =>
    match leadByte? b.toNat with
    | none => '\uFFFD' :: lossyChars bs
    | some lead =>
      let next := continuation lead.low lead.high lead.bits lead.continuation bs
      (next.1.map Char.ofNat).getD '\uFFFD' :: lossyChars next.2
termination_by bytes.length
decreasing_by
  · simp
  · exact Nat.lt_succ_of_le (length_continuation_le ..)

/-- The text of a byte list, with `U+FFFD` in place of each malformed run. -/
def ofUtf8Lossy (bytes : List UInt8) : String := String.ofList (lossyChars bytes)

end WasmEngine.Text
