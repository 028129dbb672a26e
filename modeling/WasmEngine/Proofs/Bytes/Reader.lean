import WasmEngine.Bytes.Reader
import WasmEngine.Bytes.Writer
import WasmEngine.Proofs.Bytes.Leb128

/-!
# Reading back what was written

What the readers give tells how many bytes they took (`Read.Gives`), and what is written of it takes no
more bytes and is read back (`Read.Spells`).
-/

namespace WasmEngine

/-! ## Texts and words -/

namespace Text

theorem toList_loop (bytes : ByteArray) (i : Nat) (before : List UInt8) :
    ByteArray.toList.loop bytes i before = before.reverse ++ bytes.data.toList.drop i := by
  generalize left : bytes.size - i = k
  induction k generalizing i before with
  | zero =>
    have done : ¬ i < bytes.size := by omega
    unfold ByteArray.toList.loop
    rw [if_neg done, List.drop_of_length_le (Nat.le_of_not_lt done), List.append_nil]
  | succ k ih =>
    have here : i < bytes.data.toList.length := show i < bytes.size by omega
    have byte : bytes.get! i = bytes.data.toList[i] := getElem!_pos bytes.data i here
    unfold ByteArray.toList.loop
    rw [if_pos (show i < bytes.size from here), ih (i + 1) _ (by omega), byte, List.drop_eq_getElem_cons here,
      List.reverse_cons, List.append_assoc, List.singleton_append]

theorem toList_eq (bytes : ByteArray) : bytes.toList = bytes.data.toList := toList_loop bytes 0 []

/-- What is read as text is written as the same bytes. -/
theorem utf8Bytes_of_ofUtf8? {bytes : List UInt8} {s : String} (reads : ofUtf8? bytes = some s) :
    utf8Bytes s = bytes := by
  unfold ofUtf8? String.fromUTF8? at reads
  split_ifs at reads with valid
  obtain rfl := Option.some.inj reads
  exact toList_eq ⟨bytes.toArray⟩

theorem ofUtf8?_utf8Bytes (s : String) : ofUtf8? (utf8Bytes s) = some s := by
  have same : (⟨(utf8Bytes s).toArray⟩ : ByteArray) = s.toByteArray := by
    rw [utf8Bytes, toList_eq]
    rfl
  unfold ofUtf8? String.fromUTF8?
  rw [same, dif_pos s.isValidUTF8]
  rfl

end Text

namespace LittleEndian

/-- So many bytes are a number of so many bits. -/
theorem toNat_lt (bytes : List UInt8) : toNat bytes < 2 ^ (8 * bytes.length) := by
  induction bytes with
  | nil => exact Nat.one_pos
  | cons b bytes ih =>
    have small := b.toNat_lt
    rw [List.length_cons, Nat.mul_succ, Nat.pow_add, toNat]
    omega

/-- A number that fits so many bytes is read back from them. -/
theorem toNat_bytes_of_lt {width n : Nat} (fits : n < 2 ^ (8 * width)) :
    toNat (bytes width n) = n := by
  rw [toNat_bytes, Nat.one_shiftLeft, Nat.mod_eq_of_lt fits]

end LittleEndian

namespace Read

variable {α : Type}

/-- What a reader gives has a property that depends on how many bytes it took. -/
def Gives (P : α → Nat → Prop) (r : Read α) : Prop :=
  ∀ s a s', r s = .ok a s' → ∃ n, n ≤ s.remaining ∧ s' = s.advance n ∧ P a n

/-- Bytes spell what a reader gives, whatever follows them. -/
def Spells (bytes : List UInt8) (r : Read α) (a : α) : Prop :=
  ∀ pos rest, r ⟨pos, bytes ++ rest⟩ = .ok a ⟨pos + bytes.length, rest⟩

theorem gives_fail {P : α → Nat → Prop} {kind : Binary.DecodeErrorKind} : Gives P (fail kind) := by
  intro s a s' reads
  cases reads

theorem gives_byte : Gives (fun _ n => n = 1) byte := by
  intro s b s' reads
  unfold byte at reads
  split at reads
  · cases reads
  · next here =>
    cases reads
    refine ⟨1, ?_, ?_, rfl⟩
    · rw [Reader.remaining, here, List.length_cons]
      omega
    · rw [Reader.advance, here, List.drop_one, List.tail_cons]

theorem spells_byte (b : UInt8) : Spells [b] byte b := fun _ _ => rfl

theorem gives_bytes (k : Nat) : Gives (fun bs n => bs.length = k ∧ n = k) (bytes k) := by
  intro s bs s' reads
  unfold bytes at reads
  split_ifs at reads with enough
  cases reads
  have enough : k ≤ s.rest.length := of_decide_eq_true enough
  exact ⟨k, enough, rfl, List.length_take_of_le enough, rfl⟩

theorem spells_bytes (bs : List UInt8) : Spells bs (bytes bs.length) bs := by
  intro pos rest
  simp [bytes, Reader.hasAtLeast, Reader.advance]

theorem gives_skip (k : Nat) : Gives (fun _ n => n = k) (skip k) := by
  intro s a s' reads
  unfold skip at reads
  split_ifs at reads with enough
  cases reads
  exact ⟨k, of_decide_eq_true enough, rfl, rfl⟩

theorem gives_leb {decode : List UInt8 → Except Leb128.Error (α × Nat)} {P : α → Nat → Prop}
    (decodes : ∀ bs a n, decode bs = .ok (a, n) → n ≤ bs.length ∧ P a n) : Gives P (leb decode) := by
  intro s a s' reads
  unfold leb at reads
  split at reads
  · next value taken decoded =>
    cases reads
    obtain ⟨within, holds⟩ := decodes _ _ _ decoded
    exact ⟨taken, within, rfl, holds⟩
  · cases reads
  · cases reads

theorem spells_leb {decode : List UInt8 → Except Leb128.Error (α × Nat)} {bs : List UInt8} {a : α}
    (decodes : ∀ rest, decode (bs ++ rest) = .ok (a, bs.length)) : Spells bs (leb decode) a := by
  intro pos rest
  simp [leb, decodes, Reader.advance]

theorem gives_u32 :
    Gives (fun v n => v < UInt32.size ∧ (Write.unsigned v).length ≤ n) u32 :=
  gives_leb fun _ _ _ decoded =>
    let ⟨width, shorter, within⟩ := Leb128.length_encodeUnsigned_le_of_decode decoded
    ⟨within, width, shorter⟩

theorem spells_u32 {v : Nat} (fits : v < UInt32.size) : Spells (Write.unsigned v) u32 v :=
  spells_leb fun rest => Leb128.decodeUnsigned_encodeUnsigned fits (by omega) rest

theorem gives_i32 :
    Gives (fun v n => Leb128.Fits 31 v ∧ (Write.signed v).length ≤ n) i32 :=
  gives_leb fun _ _ _ decoded =>
    let ⟨width, shorter, within⟩ := Leb128.length_encodeSigned_le_of_decode decoded
    ⟨within, width, shorter⟩

theorem spells_i32 {v : Int} (fits : Leb128.Fits 31 v) : Spells (Write.signed v) i32 v :=
  spells_leb fun rest => Leb128.decodeSigned_encodeSigned fits (by omega) rest

theorem gives_i64 :
    Gives (fun v n => Leb128.Fits 63 v ∧ (Write.signed v).length ≤ n) i64 :=
  gives_leb fun _ _ _ decoded =>
    let ⟨width, shorter, within⟩ := Leb128.length_encodeSigned_le_of_decode decoded
    ⟨within, width, shorter⟩

theorem spells_i64 {v : Int} (fits : Leb128.Fits 63 v) : Spells (Write.signed v) i64 v :=
  spells_leb fun rest => Leb128.decodeSigned_encodeSigned fits (by omega) rest

theorem gives_word (width : Nat) :
    Gives (fun v n => v < 2 ^ (8 * width) ∧ n = width) (word width) := by
  intro s v s' reads
  unfold word at reads
  split_ifs at reads with enough
  cases reads
  have enough : width ≤ s.rest.length := of_decide_eq_true enough
  have small := LittleEndian.toNat_lt (s.rest.take width)
  rw [List.length_take_of_le enough] at small
  exact ⟨width, enough, rfl, small, rfl⟩

theorem spells_word {width v : Nat} (fits : v < 2 ^ (8 * width)) :
    Spells (LittleEndian.bytes width v) (word width) v := by
  intro pos rest
  have length := LittleEndian.length_bytes width v
  have enough : (⟨pos, LittleEndian.bytes width v ++ rest⟩ : Reader).hasAtLeast width = true := by
    simp [Reader.hasAtLeast, length]
  have value : (LittleEndian.bytes width v ++ rest).take width = LittleEndian.bytes width v := by
    rw [List.take_append_of_le_length (by omega), List.take_of_length_le (by omega)]
  have after : (LittleEndian.bytes width v ++ rest).drop width = rest := by
    rw [List.drop_append_of_le_length (by omega), List.drop_of_length_le (by omega)]
    rfl
  simp only [word, enough, if_true, value, LittleEndian.toNat_bytes_of_lt fits, Reader.advance,
    after, length]

/-- A text whose length takes 32 bits. -/
def IsName (s : String) : Prop := (Text.utf8Bytes s).length < UInt32.size

theorem gives_name : Gives (fun s n => IsName s ∧ (Write.name s).length ≤ n) name := by
  intro s text s' reads
  unfold name at reads
  split at reads
  · cases reads
  · next length after first =>
    obtain ⟨n, within, rfl, fits, shorter⟩ := gives_u32 _ _ _ first
    split at reads
    · cases reads
    · next bs last second =>
      obtain ⟨k, more, rfl, count, same⟩ := gives_bytes _ _ _ _ second
      subst same
      split at reads
      · next decoded =>
        cases reads
        have spelled := Text.utf8Bytes_of_ofUtf8? decoded
        have size : (Text.utf8Bytes text).length = k := by rw [spelled, count]
        refine ⟨n + k, ?_, ?_, ?_, ?_⟩
        · rw [Reader.remaining, Reader.advance, List.length_drop] at more
          rw [Reader.remaining] at *
          omega
        · simp only [Reader.advance, List.drop_drop, Nat.add_assoc]
        · rw [IsName, size]
          exact fits
        · rw [Write.name, Write.byteVector, List.length_append, size, Nat.mod_eq_of_lt fits]
          omega
      · cases reads

theorem spells_name {s : String} (fits : IsName s) : Spells (Write.name s) name s := by
  intro pos rest
  have length := spells_u32 fits pos (Text.utf8Bytes s ++ rest)
  have text := spells_bytes (Text.utf8Bytes s) (pos + (Write.unsigned (Text.utf8Bytes s).length).length)
    rest
  simp only [name, Write.name, Write.byteVector, Nat.mod_eq_of_lt fits, List.append_assoc, length,
    text, Text.ofUtf8?_utf8Bytes, List.length_append, Nat.add_assoc]

end Read

end WasmEngine
