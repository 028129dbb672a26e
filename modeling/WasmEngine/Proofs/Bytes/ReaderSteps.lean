import WasmEngine.Proofs.Bytes.Denotation
import WasmEngine.Proofs.Bytes.Reader

/-!
# The steps of a reader

A read takes the bytes that spell its value and no others, or it fails where it stands (`Read.Clean`).  How many bytes
each operation takes and which value it makes of them is a table (`Operation.takes_iff_reads`).  The read of a
text also fails behind the length or behind the bytes of the text.  So the position of a reader never moves back and
never passes the end, whatever is read from it and whichever reads fail (`Reader.steps_cleanly`).
-/

namespace WasmEngine

open Binary (DecodeErrorKind)

/-! ## Decoders of numbers -/

namespace Leb128

variable {α β : Type} {bs bs' : List UInt8} {m n : Nat}

/-- No byte string has two whole numbers at its start. -/
theorem Whole.unique (one : Whole bs m) (other : Whole bs n) : m = n := by
  induction bs generalizing m n with
  | nil => exact absurd one (not_whole_nil m)
  | cons b bs ih =>
    obtain ⟨rfl, last⟩ | ⟨k, rfl, more, one⟩ := whole_cons.1 one
    · obtain ⟨rfl, -⟩ | ⟨_, -, more, -⟩ := whole_cons.1 other
      · rfl
      · rw [last] at more
        cases more
    · obtain ⟨-, last⟩ | ⟨l, rfl, -, other⟩ := whole_cons.1 other
      · rw [last] at more
        cases more
      · rw [ih one other]

/-- Whether the first bytes are a whole number does not depend on the others. -/
theorem Whole.congr (whole : Whole bs n) (same : bs.take n = bs'.take n) : Whole bs' n := by
  have agree : ∀ i < n, bs[i]? = bs'[i]? := by
    intro i inside
    rw [← List.getElem?_take_of_lt inside, same, List.getElem?_take_of_lt inside]
  have some_ := whole.some_
  refine ⟨some_, fun i below => ?_, ?_⟩
  · rw [← agree i (by omega)]
    exact whole.more i below
  · rw [← agree (n - 1) (by omega)]
    exact whole.last

/-- A decoder takes just the bytes of its value: it reads the value from them whatever follows, and not from fewer. -/
def Exact (decode : List UInt8 → Except Error (α × Nat)) : Prop :=
  ∀ bs a n, decode bs = .ok (a, n) → n ≤ bs.length ∧ (∀ rest, decode (bs.take n ++ rest) = .ok (a, n)) ∧
    ∀ k < n, ∃ e, decode (bs.take k) = .error e

/-- A decoder is exact if it looks for a whole number and only then at what its bytes denote. -/
theorem exact_of_whole {decode : List UInt8 → Except Error (α × Nat)} (Denotes : List UInt8 → α → Prop)
    (decodes : ∀ {bs a n}, decode bs = .ok (a, n) ↔ Whole bs n ∧ Denotes (bs.take n) a) : Exact decode := by
  intro bs a n reads
  obtain ⟨whole, denotes⟩ := decodes.1 reads
  have length : (bs.take n).length = n := List.length_take_of_le whole.le_length
  refine ⟨whole.le_length, fun rest => ?_, fun k fewer => ?_⟩
  · have same : (bs.take n ++ rest).take n = bs.take n := List.take_left' length
    exact decodes.2 ⟨whole.congr same.symm, by rwa [same]⟩
  · cases early : decode (bs.take k) with
    | error e => exact ⟨e, rfl⟩
    | ok r =>
      -- the number that ends there would be a number of all the bytes, too
      obtain ⟨whole', -⟩ := decodes.1 (show decode (bs.take k) = .ok (r.1, r.2) from early)
      have inside : r.2 ≤ k := whole'.le_length.trans (List.length_take_le k bs)
      have cut : (bs.take k).take r.2 = bs.take r.2 := by rw [List.take_take, Nat.min_eq_left inside]
      have same := (whole'.congr cut).unique whole
      omega

/-- Unsigned numbers take just their bytes. -/
theorem exact_decodeUnsigned (bits : Nat) : Exact (decodeUnsigned bits) := by
  refine exact_of_whole (fun bs v => bs.length ≤ maxBytes bits ∧ v = groups bs ∧ v < 2 ^ bits) @fun bs v n => ?_
  rw [decodeUnsigned_eq_ok_iff, and_left_comm]
  refine and_congr_right fun whole => ?_
  rw [List.length_take_of_le whole.le_length]

/-- Signed numbers take just their bytes. -/
theorem exact_decodeSigned {bits : Nat} (some_ : 0 < bits) : Exact (decodeSigned bits) := by
  refine exact_of_whole (fun bs v => bs.length ≤ maxBytes bits ∧ v = signedGroups bs ∧ Fits (bits - 1) v)
    @fun bs v n => ?_
  rw [decodeSigned_eq_ok_iff some_, and_left_comm]
  refine and_congr_right fun whole => ?_
  rw [List.length_take_of_le whole.le_length]

/-- Long numbers take just their bytes. -/
theorem exact_decodeLong : Exact decodeLong := by
  intro bs long n reads
  unfold decodeLong at reads ⊢
  cases whole : decodeSigned 64 bs with
  | error e =>
    rw [whole] at reads
    cases reads
  | ok r =>
    rw [whole] at reads
    cases reads
    obtain ⟨within, more, least⟩ := exact_decodeSigned (by decide) bs r.1 r.2 whole
    refine ⟨within, fun rest => by rw [more rest]; rfl, fun k fewer => ?_⟩
    obtain ⟨e, early⟩ := least k fewer
    exact ⟨e, by rw [early]; rfl⟩

/-- All of some bytes are one unsigned number. -/
def DenotesUnsigned (bits : Nat) (bs : List UInt8) (v : Nat) : Prop :=
  bs.length ≤ maxBytes bits ∧ Whole bs bs.length ∧ v = groups bs ∧ v < 2 ^ bits

/-- All of some bytes are one signed number. -/
def DenotesSigned (bits : Nat) (bs : List UInt8) (v : Int) : Prop :=
  bs.length ≤ maxBytes bits ∧ Whole bs bs.length ∧ v = signedGroups bs ∧ Fits (bits - 1) v

theorem decodeUnsigned_eq_ok_length_iff {bits v : Nat} :
    decodeUnsigned bits bs = .ok (v, bs.length) ↔ DenotesUnsigned bits bs v := by
  rw [decodeUnsigned_eq_ok_iff, List.take_length, DenotesUnsigned]

theorem decodeSigned_eq_ok_length_iff {bits : Nat} (some_ : 0 < bits) {v : Int} :
    decodeSigned bits bs = .ok (v, bs.length) ↔ DenotesSigned bits bs v := by
  rw [decodeSigned_eq_ok_iff some_, List.take_length, DenotesSigned]

/-- All of some bytes are a long number if they are one of 64 bits, which is then split. -/
theorem decodeLong_eq_ok_length_iff {long : LongNumber} :
    decodeLong bs = .ok (long, bs.length) ↔ ∃ v, DenotesSigned 64 bs v ∧ long = .ofInt v := by
  have some_ : 0 < 64 := by decide
  simp only [← decodeSigned_eq_ok_length_iff some_, decodeLong]
  cases decodeSigned 64 bs with
  | error e => simp [Except.map]
  | ok r =>
    obtain ⟨v, n⟩ := r
    simp only [Except.map, Except.ok.injEq, Prod.mk.injEq]
    constructor
    · rintro ⟨rfl, counted⟩
      exact ⟨v, ⟨rfl, counted⟩, rfl⟩
    · rintro ⟨_, ⟨rfl, counted⟩, rfl⟩
      exact ⟨rfl, counted⟩

end Leb128

/-! ## Reads -/

namespace Read

variable {α : Type} {r : Read α} {bytes : List UInt8} {s : Reader} {a : α}

/-- The bytes that a read takes for its value: whatever follows them and wherever they stand, and none too many. -/
structure Takes (bytes : List UInt8) (r : Read α) (a : α) : Prop where
  spells : Spells bytes r a
  least : ∀ k < bytes.length, ∀ pos, ∃ e after, r ⟨pos, bytes.take k⟩ = .error e after

/-- What a read takes it finds in front of anything. -/
theorem Takes.runs {rest : List UInt8} (takes : Takes bytes r a) (here : s.rest = bytes ++ rest) :
    r s = .ok a ⟨s.pos + bytes.length, rest⟩ := by
  obtain ⟨pos, left⟩ := s
  subst here
  exact takes.spells pos rest

/-- A read takes some of the bytes that are left, or it fails where it stands. -/
def Clean (r : Read α) : Prop :=
  ∀ s : Reader, (∃ bytes rest a, s.rest = bytes ++ rest ∧ Takes bytes r a) ∨ ∃ kind, r s = .error ⟨kind, s.pos⟩ s

/-- A read whose number of bytes is known before takes just so many, whatever they are. -/
theorem takes_counted (n : Nat) (f : List UInt8 → α)
    (runs : ∀ s, r s = if s.hasAtLeast n then .ok (f (s.rest.take n)) (s.advance n)
      else .error (s.error .unexpectedEnd) s) : Takes bytes r a ↔ bytes.length = n ∧ a = f bytes := by
  constructor
  · intro takes
    have alone := takes.spells 0 []
    rw [runs, List.append_nil] at alone
    split_ifs at alone with enough
    obtain ⟨rfl, counted⟩ : f (bytes.take n) = a ∧ (⟨0 + n, bytes.drop n⟩ : Reader) = ⟨0 + bytes.length, []⟩ := by
      simpa [Reader.advance] using alone
    obtain rfl : n = bytes.length := by simpa using congrArg Reader.pos counted
    exact ⟨rfl, by rw [List.take_length]⟩
  · rintro ⟨rfl, rfl⟩
    refine ⟨fun pos rest => ?_, fun k fewer pos => ?_⟩
    · have more : (Reader.mk pos (bytes ++ rest)).hasAtLeast bytes.length = true := by simp [Reader.hasAtLeast]
      rw [runs, if_pos more, Reader.advance]
      simp only [List.take_left, List.drop_left]
    · have few : ¬ (Reader.mk pos (bytes.take k)).hasAtLeast bytes.length = true := by
        simp only [Reader.hasAtLeast, List.length_take, decide_eq_true_eq]
        omega
      exact ⟨_, _, by rw [runs, if_neg few]⟩

theorem clean_counted (n : Nat) (f : List UInt8 → α)
    (runs : ∀ s, r s = if s.hasAtLeast n then .ok (f (s.rest.take n)) (s.advance n)
      else .error (s.error .unexpectedEnd) s) : Clean r := by
  intro s
  by_cases enough : n ≤ s.rest.length
  · have length : (s.rest.take n).length = n := List.length_take_of_le enough
    exact .inl ⟨_, _, _, (List.take_append_drop n s.rest).symm, (takes_counted n f runs).2 ⟨length, rfl⟩⟩
  · have few : ¬ s.hasAtLeast n = true := by simpa [Reader.hasAtLeast] using enough
    exact .inr ⟨.unexpectedEnd, by rw [runs, if_neg few, Reader.error]⟩

theorem clean_bytes (n : Nat) : Clean (Read.bytes n) := clean_counted n id fun _ => rfl

theorem clean_skip (n : Nat) : Clean (skip n) := clean_counted n (fun _ => ()) fun _ => rfl

theorem clean_word (width : Nat) : Clean (word width) := clean_counted width LittleEndian.toNat fun _ => rfl

/-- A byte is read as the bytes of a list of one are. -/
theorem byte_run (s : Reader) : byte s = if s.hasAtLeast 1 then .ok ((s.rest.take 1).headD 0) (s.advance 1)
    else .error (s.error .unexpectedEnd) s := by
  obtain ⟨pos, left⟩ := s
  cases left with
  | nil => rfl
  | cons b left => rfl

theorem clean_byte : Clean byte := clean_counted 1 (fun bs => bs.headD 0) byte_run

/-- A byte is taken as the one byte that there is. -/
theorem takes_byte {b : UInt8} : Takes bytes byte b ↔ bytes = [b] := by
  rw [takes_counted 1 (fun bs => bs.headD 0) byte_run, List.length_eq_one_iff]
  constructor
  · rintro ⟨⟨b', rfl⟩, rfl⟩
    rfl
  · rintro rfl
    exact ⟨⟨b, rfl⟩, rfl⟩

/-- The read of a number takes the bytes that its decoder says. -/
theorem takes_leb {decode : List UInt8 → Except Leb128.Error (α × Nat)} (exact_ : Leb128.Exact decode) :
    Takes bytes (leb decode) a ↔ decode bytes = .ok (a, bytes.length) := by
  constructor
  · intro takes
    have alone := takes.spells 0 []
    unfold leb at alone
    rw [List.append_nil] at alone
    split at alone
    · next value taken reads =>
      obtain ⟨rfl, counted⟩ : value = a ∧ (⟨0 + taken, bytes.drop taken⟩ : Reader) = ⟨0 + bytes.length, []⟩ := by
        simpa [Reader.advance] using alone
      obtain rfl : taken = bytes.length := by simpa using congrArg Reader.pos counted
      exact reads
    · cases alone
    · cases alone
  · intro reads
    obtain ⟨-, more, least⟩ := exact_ bytes a _ reads
    rw [List.take_length] at more
    refine ⟨spells_leb more, fun k fewer pos => ?_⟩
    obtain ⟨e, early⟩ := least k fewer
    unfold leb
    rw [early]
    cases e <;> exact ⟨_, _, rfl⟩

theorem clean_leb {decode : List UInt8 → Except Leb128.Error (α × Nat)} (exact_ : Leb128.Exact decode) :
    Clean (leb decode) := by
  intro s
  cases reads : decode s.rest with
  | ok taken =>
    obtain ⟨a, n⟩ := taken
    obtain ⟨within, more, -⟩ := exact_ s.rest a n reads
    have alone : decode (s.rest.take n) = .ok (a, (s.rest.take n).length) := by
      rw [List.length_take_of_le within, ← more [], List.append_nil]
    exact .inl ⟨_, _, a, (List.take_append_drop n s.rest).symm, (takes_leb exact_).2 alone⟩
  | error e =>
    unfold leb
    rw [reads]
    cases e <;> exact .inr ⟨_, rfl⟩

theorem clean_u32 : Clean u32 := clean_leb (Leb128.exact_decodeUnsigned 32)

/-- A text is taken with its length. -/
theorem takes_name_append {first bs : List UInt8} {text : String} (length : Takes first u32 bs.length)
    (valid : Text.ofUtf8? bs = some text) : Takes (first ++ bs) name text := by
  refine ⟨fun pos rest => ?_, fun k fewer pos => ?_⟩
  · have here := length.spells pos (bs ++ rest)
    have there := spells_bytes bs (pos + first.length) rest
    rw [List.append_assoc, List.length_append, ← Nat.add_assoc]
    simp only [name, here, there, valid]
  · by_cases early : k < first.length
    · obtain ⟨e, after, stops⟩ := length.least k early pos
      rw [List.take_append_of_le_length (Nat.le_of_lt early)]
      exact ⟨e, after, by simp only [name, stops]⟩
    · -- the length is there, but not all of the text
      have here := length.spells pos (bs.take (k - first.length))
      have few : ¬ (Reader.mk (pos + first.length) (bs.take (k - first.length))).hasAtLeast bs.length = true := by
        rw [List.length_append] at fewer
        simp only [Reader.hasAtLeast, List.length_take, decide_eq_true_eq]
        omega
      rw [List.take_append, List.take_of_length_le (Nat.le_of_not_lt early)]
      exact ⟨_, _, by simp only [name, here, Read.bytes, if_neg few]; rfl⟩

/-- A text is taken as its length and so many bytes that are valid. -/
theorem takes_name {text : String} : Takes bytes name text ↔
    ∃ first bs, bytes = first ++ bs ∧ Takes first u32 bs.length ∧ Text.ofUtf8? bs = some text := by
  constructor
  · intro takes
    have alone := takes.spells 0 []
    rw [List.append_nil] at alone
    obtain ⟨first, left, length, here, counts⟩ | ⟨kind, fails⟩ := clean_u32 ⟨0, bytes⟩
    · obtain rfl : bytes = first ++ left := here
      have counted := counts.spells 0 left
      simp only [name, counted] at alone
      by_cases enough : length ≤ left.length
      · have read : Read.bytes length ⟨0 + first.length, left⟩ =
            .ok (left.take length) ⟨0 + first.length + length, left.drop length⟩ := if_pos (decide_eq_true enough)
        rw [read] at alone
        dsimp only at alone
        split at alone
        · next text' valid =>
          obtain ⟨rfl, rfl, -⟩ : text' = text ∧ length = left.length ∧ left.length ≤ length := by simpa using alone
          rw [List.take_length] at valid
          exact ⟨first, left, rfl, counts, valid⟩
        · cases alone
      · have few : ¬ (Reader.mk (0 + first.length) left).hasAtLeast length = true := by
          simpa [Reader.hasAtLeast] using enough
        rw [Read.bytes, if_neg few] at alone
        cases alone
    · simp only [name, fails] at alone
      cases alone
  · rintro ⟨first, bs, rfl, counts, valid⟩
    exact takes_name_append counts valid

end Read

/-! ## Operations -/

namespace Reader

/-- The operations on a reader. -/
inductive Operation where
  | skip (n : Nat)
  | byte
  | bytes (n : Nat)
  | u32
  | u64
  | i32
  | i64
  | long
  | f32
  | f64
  | name
  deriving DecidableEq, Repr

namespace Operation

/-- What an operation gives; a float is its bits. -/
def Value : Operation → Type
  | skip _ => Unit
  | byte => UInt8
  | bytes _ => List UInt8
  | u32 | u64 | f32 | f64 => Nat
  | i32 | i64 => Int
  | long => LongNumber
  | name => String

/-- The read of an operation. -/
def read : (op : Operation) → Read op.Value
  | skip n => Read.skip n
  | byte => Read.byte
  | bytes n => Read.bytes n
  | u32 => Read.u32
  | u64 => Read.u64
  | i32 => Read.i32
  | i64 => Read.i64
  | long => Read.leb Leb128.decodeLong
  | f32 => Read.word 4
  | f64 => Read.word 8
  | name => Read.name

/-- The reader after an operation, which may fail. -/
def next (op : Operation) (s : Reader) : Reader :=
  match op.read s with
  | .ok _ after => after
  | .error _ after => after

/-- The bytes that an operation takes and the value that it makes of them.  A number is a whole one of no more bytes
than its width has groups, and a text comes after its length in bytes. -/
def Reads : (op : Operation) → List UInt8 → op.Value → Prop
  | skip n, taken, _ => taken.length = n
  | byte, taken, b => taken = [b]
  | bytes n, taken, bs => taken.length = n ∧ bs = taken
  | u32, taken, v => Leb128.DenotesUnsigned 32 taken v
  | u64, taken, v => Leb128.DenotesUnsigned 64 taken v
  | i32, taken, v => Leb128.DenotesSigned 32 taken v
  | i64, taken, v => Leb128.DenotesSigned 64 taken v
  | long, taken, v => ∃ whole, Leb128.DenotesSigned 64 taken whole ∧ v = .ofInt whole
  | f32, taken, bits => taken.length = 4 ∧ bits = LittleEndian.toNat taken
  | f64, taken, bits => taken.length = 8 ∧ bits = LittleEndian.toNat taken
  | name, taken, text => ∃ first bs, taken = first ++ bs ∧ Leb128.DenotesUnsigned 32 first bs.length ∧
    Text.ofUtf8? bs = some text

/-- Each operation takes just the bytes of its value. -/
theorem takes_iff_reads (op : Operation) (taken : List UInt8) (a : op.Value) :
    Read.Takes taken op.read a ↔ op.Reads taken a := by
  cases op with
  | skip n => exact (Read.takes_counted n (fun _ => ()) fun _ => rfl).trans (and_iff_left rfl)
  | byte => exact Read.takes_byte
  | bytes n => exact Read.takes_counted n id fun _ => rfl
  | u32 => exact (Read.takes_leb (Leb128.exact_decodeUnsigned 32)).trans Leb128.decodeUnsigned_eq_ok_length_iff
  | u64 => exact (Read.takes_leb (Leb128.exact_decodeUnsigned 64)).trans Leb128.decodeUnsigned_eq_ok_length_iff
  | i32 =>
    have some_ : 0 < 32 := by decide
    exact (Read.takes_leb (Leb128.exact_decodeSigned some_)).trans (Leb128.decodeSigned_eq_ok_length_iff some_)
  | i64 =>
    have some_ : 0 < 64 := by decide
    exact (Read.takes_leb (Leb128.exact_decodeSigned some_)).trans (Leb128.decodeSigned_eq_ok_length_iff some_)
  | long => exact (Read.takes_leb Leb128.exact_decodeLong).trans Leb128.decodeLong_eq_ok_length_iff
  | f32 => exact Read.takes_counted 4 LittleEndian.toNat fun _ => rfl
  | f64 => exact Read.takes_counted 8 LittleEndian.toNat fun _ => rfl
  | name =>
    refine Read.takes_name.trans (exists_congr fun first => exists_congr fun bs => and_congr_right fun _ =>
      and_congr_left fun _ => ?_)
    exact (Read.takes_leb (Leb128.exact_decodeUnsigned 32)).trans Leb128.decodeUnsigned_eq_ok_length_iff

/-- How an operation may end.  It takes the bytes of its value, or it fails where it stands; the one of a text
may also find the length and then too few bytes, or bytes that are no text. -/
inductive Ends (op : Operation) (s : Reader) : EStateM.Result Binary.DecodeError Reader op.Value → Prop
  | takes {bytes rest : List UInt8} {a : op.Value} (here : s.rest = bytes ++ rest) (takes : Read.Takes bytes op.read a) :
      Ends op s (.ok a ⟨s.pos + bytes.length, rest⟩)
  | stays {kind : DecodeErrorKind} (primitive : op ≠ name) : Ends op s (.error ⟨kind, s.pos⟩ s)
  | badLength {kind : DecodeErrorKind} (isName : op = name) (bad : Read.u32 s = .error ⟨kind, s.pos⟩ s) :
      Ends op s (.error ⟨kind, s.pos⟩ s)
  | tooFew {length : Nat} {after : Reader} (isName : op = name) (counted : Read.u32 s = .ok length after)
      (few : after.remaining < length) : Ends op s (.error ⟨.unexpectedEnd, after.pos⟩ after)
  | malformed {length : Nat} {after : Reader} (isName : op = name) (counted : Read.u32 s = .ok length after)
      (enough : length ≤ after.remaining) (bad : Text.ofUtf8? (after.rest.take length) = none) :
      Ends op s (.error ⟨.invalidUtf8, after.pos⟩ (after.advance length))

/-- A read that is clean ends as the operation of it may. -/
theorem ends_of_clean (op : Operation) (clean : Read.Clean op.read) (primitive : op ≠ name) (s : Reader) :
    Ends op s (op.read s) := by
  obtain ⟨bytes, rest, a, here, takes⟩ | ⟨kind, fails⟩ := clean s
  · rw [takes.runs here]
    exact .takes here takes
  · rw [fails]
    exact .stays primitive

/-- The read of a text ends in one of the four ways of a text. -/
theorem ends_name (s : Reader) : Ends name s (name.read s) := by
  show Ends name s (Read.name s)
  obtain ⟨first, left, length, here, counts⟩ | ⟨kind, fails⟩ := Read.clean_u32 s
  · have counted := counts.runs here
    by_cases enough : length ≤ left.length
    · have all : (left.take length).length = length := List.length_take_of_le enough
      have read : Read.bytes length ⟨s.pos + first.length, left⟩ =
          .ok (left.take length) (advance ⟨s.pos + first.length, left⟩ length) := if_pos (decide_eq_true enough)
      cases text : Text.ofUtf8? (left.take length) with
      | none =>
        have ends : Read.name s = .error ⟨.invalidUtf8, s.pos + first.length⟩
            (advance ⟨s.pos + first.length, left⟩ length) := by simp only [Read.name, counted, read, text, error]
        rw [ends]
        exact .malformed rfl counted enough text
      | some text' =>
        have takes : Read.Takes (first ++ left.take length) Read.name text' :=
          Read.takes_name_append (by rwa [all]) text
        have bytes : s.rest = first ++ left.take length ++ left.drop length := by
          rw [here, List.append_assoc, List.take_append_drop]
        rw [takes.runs bytes]
        exact .takes bytes takes
    · have read : Read.bytes length ⟨s.pos + first.length, left⟩ =
          .error ⟨.unexpectedEnd, s.pos + first.length⟩ ⟨s.pos + first.length, left⟩ :=
        if_neg (by simpa [hasAtLeast] using enough)
      have ends : Read.name s = .error ⟨.unexpectedEnd, s.pos + first.length⟩ ⟨s.pos + first.length, left⟩ := by
        simp only [Read.name, counted, read]
      rw [ends]
      exact .tooFew rfl counted (Nat.lt_of_not_le enough)
  · have ends : Read.name s = .error ⟨kind, s.pos⟩ s := by simp only [Read.name, fails]
    rw [ends]
    exact .badLength rfl fails

/-- Each operation ends as it may. -/
theorem ends (op : Operation) (s : Reader) : Ends op s (op.read s) := by
  cases op with
  | skip n => exact ends_of_clean (skip n) (Read.clean_skip n) nofun s
  | byte => exact ends_of_clean byte Read.clean_byte nofun s
  | bytes n => exact ends_of_clean (bytes n) (Read.clean_bytes n) nofun s
  | u32 => exact ends_of_clean u32 Read.clean_u32 nofun s
  | u64 => exact ends_of_clean u64 (Read.clean_leb (Leb128.exact_decodeUnsigned 64)) nofun s
  | i32 => exact ends_of_clean i32 (Read.clean_leb (Leb128.exact_decodeSigned (by decide))) nofun s
  | i64 => exact ends_of_clean i64 (Read.clean_leb (Leb128.exact_decodeSigned (by decide))) nofun s
  | long => exact ends_of_clean long (Read.clean_leb Leb128.exact_decodeLong) nofun s
  | f32 => exact ends_of_clean f32 (Read.clean_word 4) nofun s
  | f64 => exact ends_of_clean f64 (Read.clean_word 8) nofun s
  | name => exact ends_name s

/-- An operation moves on over bytes that are there, also when it fails. -/
theorem next_eq_advance (op : Operation) (s : Reader) : ∃ n, n ≤ s.remaining ∧ op.next s = s.advance n := by
  have ends := op.ends s
  unfold next
  generalize op.read s = result at ends
  cases ends with
  | @takes bytes rest a here =>
    refine ⟨bytes.length, ?_, ?_⟩
    · rw [remaining, here, List.length_append]
      exact Nat.le_add_right _ _
    · rw [advance, here, List.drop_left]
  | stays | badLength => exact ⟨0, Nat.zero_le _, rfl⟩
  | tooFew _ counted =>
    obtain ⟨n, within, rfl, -⟩ := Read.gives_u32 _ _ _ counted
    exact ⟨n, within, rfl⟩
  | @malformed length _ _ counted enough =>
    obtain ⟨n, within, rfl, -⟩ := Read.gives_u32 _ _ _ counted
    refine ⟨n + length, ?_, ?_⟩
    · rw [remaining, advance, List.length_drop] at enough
      rw [remaining] at within ⊢
      omega
    · simp only [advance, List.drop_drop, Nat.add_assoc]

end Operation

/-! ## Runs -/

/-- The reader after some operations, of which any may fail. -/
def after (ops : List Operation) (s : Reader) : Reader := ops.foldl (fun s op => op.next s) s

/-- A reader stands in a byte string. -/
structure In (bytes : List UInt8) (s : Reader) : Prop where
  le : s.pos ≤ bytes.length
  rest : s.rest = bytes.drop s.pos

/-- An operation keeps the reader in its byte string. -/
theorem In.next {bytes : List UInt8} {s : Reader} (inside : In bytes s) (op : Operation) : In bytes (op.next s) := by
  obtain ⟨n, within, moves⟩ := op.next_eq_advance s
  have le := inside.le
  rw [remaining, inside.rest, List.length_drop] at within
  rw [moves]
  refine ⟨?_, ?_⟩
  · show s.pos + n ≤ bytes.length
    omega
  · rw [advance, inside.rest, List.drop_drop]

/-- Operations keep the reader in its byte string, whichever of them fail. -/
theorem In.after {bytes : List UInt8} {s : Reader} (inside : In bytes s) (ops : List Operation) :
    In bytes (s.after ops) := by
  induction ops generalizing s with
  | nil => exact inside
  | cons op ops ih => exact ih (inside.next op)

/-- No operation brings the reader back. -/
theorem le_after (s : Reader) (ops : List Operation) : s.pos ≤ (s.after ops).pos := by
  induction ops generalizing s with
  | nil => exact Nat.le_refl _
  | cons op ops ih =>
    obtain ⟨n, -, moves⟩ := op.next_eq_advance s
    have first : s.pos ≤ (op.next s).pos := by
      rw [moves]
      exact Nat.le_add_right _ _
    exact first.trans (ih (op.next s))

/-- **The steps of a reader are monotone and fail cleanly.**  After any operations on a byte string, of which any may
have failed, the reader is at a position inside it and has the bytes from there on left.  No further operations bring
it back.  The next operation takes the bytes of its value (those of `Operation.Reads`), which does not depend on
others, or it fails where the
reader is and leaves it there; one that reads a text may also fail behind the length of the text, if too few bytes
follow, or at the bytes of the text and leave the reader behind them, if they are not valid. -/
theorem steps_cleanly (bytes : List UInt8) (ops : List Operation) :
    ((start bytes).after ops).pos ≤ bytes.length ∧
    ((start bytes).after ops).rest = bytes.drop ((start bytes).after ops).pos ∧
    (∀ more, ((start bytes).after ops).pos ≤ ((start bytes).after (ops ++ more)).pos) ∧
    ∀ op : Operation, op.Ends ((start bytes).after ops) (op.read ((start bytes).after ops)) := by
  have begins : In bytes (start bytes) := ⟨Nat.zero_le _, List.drop_zero.symm⟩
  obtain ⟨le, rest⟩ := begins.after ops
  refine ⟨le, rest, fun more => ?_, fun op => op.ends _⟩
  rw [after, after, List.foldl_append]
  exact le_after _ more

example : Operation.name.read (start [2, 0xff, 0xfe, 7]) = .error ⟨.invalidUtf8, 1⟩ ⟨3, [7]⟩ := by rfl

end Reader

end WasmEngine
