import WasmEngine.Proofs.Bytes.Leb128

/-!
# The numbers that bytes denote

A decoder accepts just the bytes whose groups denote a number of its width, if they are no more than the
width allows (`decodeUnsigned_eq_ok_iff`, `decodeSigned_eq_ok_iff`).  A number has a spelling in every
number of bytes from its shortest one up to that limit (`decodeUnsigned_spelling`,
`decodeSigned_spelling`).
-/

namespace WasmEngine.Leb128

/-! ## Groups -/

/-- The number that the groups of some bytes denote, the first group the lowest. -/
def groups : List UInt8 → Nat
  | [] => 0
  | b :: bs => payload b + 128 * groups bs

/-- The integer that the groups of some bytes denote in two's complement. -/
def signedGroups (bs : List UInt8) : Int := Int.bmod (groups bs) (2 ^ (7 * bs.length))

/-- The first `n` bytes are a whole number: the top bit is set in all of them but the last. -/
structure Whole (bs : List UInt8) (n : Nat) : Prop where
  some_ : 0 < n
  more : ∀ i, i + 1 < n → ∃ b, bs[i]? = some b ∧ 128 ≤ b.toNat
  last : ∃ b, bs[n - 1]? = some b ∧ b.toNat < 128

theorem not_whole_nil (n : Nat) : ¬ Whole [] n := by
  intro whole
  obtain ⟨b, here, -⟩ := whole.last
  cases here

/-- A whole number takes no more bytes than there are. -/
theorem Whole.le_length {bs : List UInt8} {n : Nat} (whole : Whole bs n) : n ≤ bs.length := by
  obtain ⟨b, here, -⟩ := whole.last
  have inside := (List.getElem?_eq_some_iff.1 here).1
  have some_ := whole.some_
  omega

/-- A whole number is its last byte, or a byte before a whole number. -/
theorem whole_cons {b : UInt8} {bs : List UInt8} {n : Nat} : Whole (b :: bs) n ↔
    n = 1 ∧ continues b = false ∨ ∃ k, n = k + 1 ∧ continues b = true ∧ Whole bs k := by
  have top : continues b = true ↔ 128 ≤ b.toNat := decide_eq_true_iff
  constructor
  · rintro ⟨some_, more, last⟩
    match n with
    | 0 => omega
    | 1 =>
      obtain ⟨_, here, low⟩ := last
      cases here
      exact .inl ⟨rfl, decide_eq_false (Nat.not_le.2 low)⟩
    | k + 2 =>
      obtain ⟨_, here, high⟩ := more 0 (by omega)
      cases here
      exact .inr ⟨k + 1, rfl, top.2 high, Nat.succ_pos k, fun i below => more (i + 1) (by omega), last⟩
  · rintro (⟨rfl, low⟩ | ⟨k, rfl, high, whole⟩)
    · exact ⟨Nat.one_pos, fun i below => absurd below (by omega), b, rfl,
        Nat.not_le.1 (of_decide_eq_false low)⟩
    · refine ⟨Nat.succ_pos k, fun i below => ?_, ?_⟩
      · cases i with
        | zero => exact ⟨b, rfl, top.1 high⟩
        | succ i => exact whole.more i (by omega)
      · obtain ⟨last, here, low⟩ := whole.last
        refine ⟨last, ?_, low⟩
        rw [Nat.add_sub_cancel, ← here, List.getElem?_cons, if_neg (Nat.ne_of_gt whole.some_)]

/-! ## Unsigned numbers -/

section Unsigned

variable {bits i acc v n k : Nat} {bs : List UInt8}

/-- The first group after some others, which denote `acc`. -/
theorem add_groups_one (acc : Nat) (b : UInt8) (bs : List UInt8) (i : Nat) :
    acc + groups ((b :: bs).take 1) * 2 ^ (7 * i) = acc + payload b * 2 ^ (7 * i) := rfl

/-- The groups after some others, which denote `acc`. -/
theorem add_groups_succ (acc : Nat) (b : UInt8) (bs : List UInt8) (i k : Nat) :
    acc + groups ((b :: bs).take (k + 1)) * 2 ^ (7 * i) =
      acc + payload b * 2 ^ (7 * i) + groups (bs.take k) * 2 ^ (7 * (i + 1)) := by
  rw [List.take_succ_cons, groups, shift_succ]
  ring

/-- Decoding from the `i`-th group on finds the rest of a whole number and adds its groups to those before. -/
theorem whole_of_decodeUnsignedFrom (reads : decodeUnsignedFrom bits i acc bs = .ok (v, n)) :
    ∃ k, n = i + k ∧ n ≤ maxBytes bits ∧ Whole bs k ∧ v = acc + groups (bs.take k) * 2 ^ (7 * i) := by
  induction bs generalizing i acc with
  | nil => cases reads
  | cons b bs ih =>
    unfold decodeUnsignedFrom at reads
    split_ifs at reads with long large more
    · obtain ⟨k, rfl, within, whole, rfl⟩ := ih reads
      refine ⟨k + 1, by omega, within, whole_cons.2 (.inr ⟨k, rfl, more, whole⟩), ?_⟩
      rw [add_groups_succ, Nat.shiftLeft_eq]
    · obtain ⟨rfl, rfl⟩ := Prod.mk.inj (Except.ok.inj reads)
      refine ⟨1, rfl, by omega, whole_cons.2 (.inl ⟨rfl, Bool.eq_false_iff.2 more⟩), ?_⟩
      rw [add_groups_one, Nat.shiftLeft_eq]

/-- The rest of a whole number is decoded if it is short and small enough. -/
theorem decodeUnsignedFrom_of_whole (whole : Whole bs k) (within : i + k ≤ maxBytes bits)
    (fits : acc + groups (bs.take k) * 2 ^ (7 * i) < 2 ^ bits) :
    decodeUnsignedFrom bits i acc bs = .ok (acc + groups (bs.take k) * 2 ^ (7 * i), i + k) := by
  induction bs generalizing i acc k with
  | nil => exact absurd whole (not_whole_nil k)
  | cons b bs ih =>
    have some_ := whole.some_
    have room : ¬ maxBytes bits ≤ i := by omega
    rw [decodeUnsignedFrom, if_neg room]
    obtain ⟨rfl, last⟩ | ⟨k, rfl, more, whole⟩ := whole_cons.1 whole
    · rw [add_groups_one] at *
      -- were the bits beyond the width not clear, the number would not fit it
      have clear : ¬ (i + 1 = maxBytes bits ∧ 1 <<< (bits - 7 * i) ≤ payload b) := by
        rintro ⟨isLast, large⟩
        unfold maxBytes at isLast
        have split : 2 ^ bits = 1 <<< (bits - 7 * i) * 2 ^ (7 * i) := by
          rw [Nat.one_shiftLeft, ← Nat.pow_add]
          congr 1
          omega
        have above := Nat.mul_le_mul_right (2 ^ (7 * i)) large
        omega
      rw [if_neg clear, last, Nat.shiftLeft_eq]
      rfl
    · have later : ¬ (i + 1 = maxBytes bits ∧ 1 <<< (bits - 7 * i) ≤ payload b) := by
        have := whole.some_
        omega
      have place : i + (k + 1) = i + 1 + k := by omega
      rw [add_groups_succ] at fits ⊢
      rw [place, if_neg later, more, Nat.shiftLeft_eq]
      exact ih whole (by omega) fits

/-- **An unsigned number is read from just the bytes that denote it**, if they are no more than its
width allows. -/
theorem decodeUnsigned_eq_ok_iff : decodeUnsigned bits bs = .ok (v, n) ↔
    n ≤ maxBytes bits ∧ Whole bs n ∧ v = groups (bs.take n) ∧ v < 2 ^ bits := by
  constructor
  · intro reads
    obtain ⟨k, rfl, within, whole, rfl⟩ := whole_of_decodeUnsignedFrom reads
    have fits := (fits_of_decodeUnsignedFrom (by simp) reads).1
    rw [Nat.zero_add, Nat.zero_add, Nat.mul_zero, Nat.pow_zero, Nat.mul_one] at *
    exact ⟨within, whole, rfl, fits⟩
  · rintro ⟨within, whole, rfl, fits⟩
    have reads : decodeUnsignedFrom bits 0 0 bs = _ :=
      decodeUnsignedFrom_of_whole whole (by rwa [Nat.zero_add]) (by simpa using fits)
    simpa [decodeUnsigned] using reads

end Unsigned

/-! ## Signed numbers -/

section Signed

variable {bits i acc n k : Nat} {v : Int} {bs : List UInt8}

/-- The sign of a number is bit six of its last group. -/
theorem bmod_of_last {p x : Nat} (below : acc < x) (small : p < 128) :
    Int.bmod (acc + p * x : Nat) (128 * x) =
      if 64 ≤ p then ((acc + p * x : Nat) : Int) - (128 * x : Nat) else (acc + p * x : Nat) := by
  have whole := add_mul_lt below small
  have half : ((128 * x : Nat) + 1 : Int) / 2 = (64 * x : Nat) := by omega
  rw [Int.bmod_def, Int.emod_eq_of_lt (Int.natCast_nonneg _) (Int.ofNat_lt.2 whole), half]
  by_cases negative : 64 ≤ p
  · have high : 64 * x ≤ p * x := Nat.mul_le_mul_right x negative
    rw [if_pos negative, if_neg (by omega)]
  · have low := add_mul_lt below (Nat.not_le.1 negative)
    rw [if_neg negative, if_pos (by omega)]

/-- Decoding from the `i`-th group on finds the rest of a whole number and gives the sign of the last group to
all of it. -/
theorem whole_of_decodeSignedFrom (below : acc < 2 ^ (7 * i))
    (reads : decodeSignedFrom bits i acc bs = .ok (v, n)) :
    ∃ k, n = i + k ∧ n ≤ maxBytes bits ∧ Whole bs k ∧
      v = Int.bmod (acc + groups (bs.take k) * 2 ^ (7 * i) : Nat) (2 ^ (7 * n)) := by
  induction bs generalizing i acc with
  | nil => cases reads
  | cons b bs ih =>
    have small := payload_lt b
    have final := bmod_of_last below small
    unfold decodeSignedFrom at reads
    simp only [Nat.shiftLeft_eq, Nat.one_mul] at reads
    split_ifs at reads with long large more negative
    · have value : acc + payload b * 2 ^ (7 * i) < 2 ^ (7 * (i + 1)) := by
        rw [shift_succ]
        exact add_mul_lt below small
      obtain ⟨k, rfl, within, whole, rfl⟩ := ih value reads
      refine ⟨k + 1, by omega, within, whole_cons.2 (.inr ⟨k, rfl, more, whole⟩), ?_⟩
      rw [add_groups_succ]
    · obtain ⟨value, rfl⟩ := Prod.mk.inj (Except.ok.inj reads)
      refine ⟨1, rfl, by omega, whole_cons.2 (.inl ⟨rfl, Bool.eq_false_iff.2 more⟩), ?_⟩
      rw [add_groups_one, ← value, shift_succ, final, if_pos negative]
    · obtain ⟨value, rfl⟩ := Prod.mk.inj (Except.ok.inj reads)
      refine ⟨1, rfl, by omega, whole_cons.2 (.inl ⟨rfl, Bool.eq_false_iff.2 more⟩), ?_⟩
      rw [add_groups_one, ← value, shift_succ, final, if_neg negative]

/-- The sign bit and the bits above it agree in the last byte of a number of the width. -/
theorem signFits_of_last {p x y : Nat} (below : acc < x) (small : p < 128)
    (fits : -(y * x : Nat) ≤ Int.bmod (acc + p * x : Nat) (128 * x) ∧
      Int.bmod (acc + p * x : Nat) (128 * x) < (y * x : Nat)) : p < y ∨ 128 ≤ p + y := by
  rw [bmod_of_last below small] at fits
  obtain ⟨lower, upper⟩ := fits
  by_cases negative : 64 ≤ p
  · rw [if_pos negative] at lower
    refine .inr (Nat.le_of_lt_succ (Nat.lt_of_mul_lt_mul_right (a := x) ?_))
    calc 128 * x ≤ acc + p * x + y * x := by omega
      _ < x + p * x + y * x := by omega
      _ = (p + y + 1) * x := by ring
  · rw [if_neg negative] at upper
    exact .inl (Nat.lt_of_mul_lt_mul_right (a := x) (by omega))

/-- The rest of a whole signed number is decoded if it is short and small enough. -/
theorem decodeSignedFrom_of_whole (some_ : 0 < bits) (below : acc < 2 ^ (7 * i)) (whole : Whole bs k)
    (within : i + k ≤ maxBytes bits)
    (fits : Fits (bits - 1)
      (Int.bmod (acc + groups (bs.take k) * 2 ^ (7 * i) : Nat) (2 ^ (7 * (i + k))))) :
    decodeSignedFrom bits i acc bs =
      .ok (Int.bmod (acc + groups (bs.take k) * 2 ^ (7 * i) : Nat) (2 ^ (7 * (i + k))), i + k) := by
  induction bs generalizing i acc k with
  | nil => exact absurd whole (not_whole_nil k)
  | cons b bs ih =>
    have small := payload_lt b
    have first := whole.some_
    have room : ¬ maxBytes bits ≤ i := by omega
    rw [decodeSignedFrom, if_neg room]
    obtain ⟨rfl, last⟩ | ⟨k, rfl, more, whole⟩ := whole_cons.1 whole
    · rw [add_groups_one, shift_succ] at *
      have clear : ¬ (i + 1 = maxBytes bits ∧ ¬ signFits (bits - 7 * i) (payload b) = true) := by
        rintro ⟨isLast, fails⟩
        unfold maxBytes at isLast
        have split : 2 ^ (bits - 1) = 2 ^ (bits - 7 * i - 1) * 2 ^ (7 * i) := by
          rw [← Nat.pow_add]
          congr 1
          omega
        rw [Fits, split] at fits
        exact fails ((signFits_iff (by omega) (by omega) small).2 (signFits_of_last below small fits))
      rw [if_neg clear, last, bmod_of_last below small]
      simp only [Bool.false_eq_true, if_false, Nat.shiftLeft_eq, Nat.one_mul, shift_succ]
      split_ifs <;> rfl
    · have later : ¬ (i + 1 = maxBytes bits ∧ ¬ signFits (bits - 7 * i) (payload b) = true) := by
        have := whole.some_
        omega
      have value : acc + payload b * 2 ^ (7 * i) < 2 ^ (7 * (i + 1)) := by
        rw [shift_succ]
        exact add_mul_lt below small
      have place : i + (k + 1) = i + 1 + k := by omega
      rw [add_groups_succ, place] at fits ⊢
      rw [if_neg later, more, Nat.shiftLeft_eq]
      exact ih value whole (by omega) fits

/-- **A signed number is read from just the bytes that denote it** in two's complement, if they are no
more than its width allows. -/
theorem decodeSigned_eq_ok_iff (some_ : 0 < bits) : decodeSigned bits bs = .ok (v, n) ↔
    n ≤ maxBytes bits ∧ Whole bs n ∧ v = signedGroups (bs.take n) ∧ Fits (bits - 1) v := by
  constructor
  · intro reads
    obtain ⟨k, rfl, within, whole, rfl⟩ := whole_of_decodeSignedFrom (by simp) reads
    have fits := (fits_of_decodeSignedFrom (by simp) reads).1
    have all : (bs.take k).length = k := List.length_take_of_le whole.le_length
    simp only [Nat.zero_add, Nat.mul_zero, Nat.pow_zero, Nat.mul_one] at *
    exact ⟨within, whole, by rw [signedGroups, all], fits⟩
  · rintro ⟨within, whole, rfl, fits⟩
    have all : (bs.take n).length = n := List.length_take_of_le whole.le_length
    rw [signedGroups, all] at fits ⊢
    have sum : 0 + groups (bs.take n) * 2 ^ (7 * 0) = groups (bs.take n) := by simp
    have reads : decodeSignedFrom bits 0 0 bs = _ :=
      decodeSignedFrom_of_whole some_ (by simp) whole (by rwa [Nat.zero_add]) (by rwa [sum, Nat.zero_add])
    rwa [sum, Nat.zero_add] at reads

/-- The groups of the shortest spelling hold the number. -/
theorem fits_of_length_encodeSigned (v : Int) : Fits (7 * (encodeSigned v).length - 1) v := by
  have inside : Fits (v.natAbs + 1 - 1) v := by
    have large : v.natAbs < 2 ^ v.natAbs := Nat.lt_two_pow_self
    rw [Fits, Nat.add_sub_cancel]
    omega
  have reads := decodeSigned_encodeSigned inside (Nat.succ_pos _) []
  exact (fits_of_decodeSignedFrom (by simp) reads).2.1

end Signed

/-! ## Spellings of any length -/

/-- A number in one byte more than given, cut to the groups of these. -/
def spelling : Nat → Nat → List UInt8
  | 0, x => [UInt8.ofNat (x % 128)]
  | n + 1, x => UInt8.ofNat (x % 128 + 128) :: spelling n (x / 128)

theorem length_spelling (n x : Nat) : (spelling n x).length = n + 1 := by
  induction n generalizing x with
  | zero => rfl
  | succ n ih => rw [spelling, List.length_cons, ih]

/-- Spelled in `n + 1` bytes a number is whole. -/
theorem whole_spelling (n x : Nat) : Whole (spelling n x) (n + 1) := by
  have group : x % 128 < 128 := Nat.mod_lt x (by omega)
  induction n generalizing x with
  | zero => exact whole_cons.2 (.inl ⟨rfl, continues_last group⟩)
  | succ n ih =>
    exact whole_cons.2 (.inr ⟨n + 1, rfl, continues_group group, ih _ (Nat.mod_lt _ (by omega))⟩)

/-- Spelled in `n + 1` bytes a number keeps its low groups. -/
theorem groups_spelling (n x : Nat) : groups (spelling n x) = x % 2 ^ (7 * (n + 1)) := by
  have group : x % 128 < 128 := Nat.mod_lt x (by omega)
  induction n generalizing x with
  | zero => exact payload_last group
  | succ n ih =>
    rw [spelling, groups, payload_group group, ih _ (Nat.mod_lt _ (by omega)), shift_succ (n + 1),
      Nat.mod_mul]

/-- A number is read from every number of bytes that holds its groups. -/
theorem decodeUnsigned_spelling {bits v n : Nat} (within : n + 1 ≤ maxBytes bits) (fits : v < 2 ^ bits)
    (enough : v < 2 ^ (7 * (n + 1))) : decodeUnsigned bits (spelling n v) = .ok (v, n + 1) := by
  have all : (spelling n v).take (n + 1) = spelling n v :=
    List.take_of_length_le (Nat.le_of_eq (length_spelling n v))
  refine decodeUnsigned_eq_ok_iff.2 ⟨within, whole_spelling n v, ?_, fits⟩
  rw [all, groups_spelling, Nat.mod_eq_of_lt enough]

/-- A signed number is read from every number of bytes that holds its groups. -/
theorem decodeSigned_spelling {bits n : Nat} {v : Int} (some_ : 0 < bits)
    (within : n + 1 ≤ maxBytes bits) (fits : Fits (bits - 1) v) (enough : Fits (7 * (n + 1) - 1) v) :
    decodeSigned bits (spelling n (v % (2 ^ (7 * (n + 1)) : Nat)).toNat) = .ok (v, n + 1) := by
  generalize written : (v % (2 ^ (7 * (n + 1)) : Nat)).toNat = x
  have length := length_spelling n x
  have all : (spelling n x).take (n + 1) = spelling n x := List.take_of_length_le (Nat.le_of_eq length)
  have place : 2 ^ (7 * (n + 1)) = 2 * 2 ^ (7 * (n + 1) - 1) := by
    rw [← Nat.pow_succ']
    congr 1
  have positive : 0 < 2 ^ (7 * (n + 1)) := Nat.two_pow_pos _
  have value : (x : Int) = v % (2 ^ (7 * (n + 1)) : Nat) := by
    rw [← written]
    exact Int.toNat_of_nonneg (Int.emod_nonneg v (by omega))
  refine (decodeSigned_eq_ok_iff some_).2 ⟨within, whole_spelling n x, ?_, fits⟩
  obtain ⟨lower, upper⟩ := enough
  rw [all, signedGroups, length, groups_spelling, Int.natCast_emod, value, Int.emod_emod,
    Int.emod_bmod, place]
  exact (Int.bmod_eq_of_le (by omega) (by omega)).symm

end WasmEngine.Leb128

/-! ## Machine integers

Every integer of 32 or 64 bits is read back from the bytes that are written for it, and from no shorter ones.
-/

namespace WasmEngine

/-- The halves of a 64-bit integer are an upper one with a sign and a lower one without. -/
theorem LongNumber.halves_ofInt {v : Int} (fits : Leb128.Fits 63 v) :
    Leb128.Fits 31 (LongNumber.ofInt v).high ∧ (LongNumber.ofInt v).low < UInt32.size := by
  obtain ⟨lower, upper⟩ := fits
  simp only [Leb128.Fits, LongNumber.ofInt, UInt32.size] at *
  omega

/-- The halves of an integer make it up. -/
theorem LongNumber.toInt_ofInt (v : Int) : (LongNumber.ofInt v).toInt = v := by
  have some_ : (0 : Int) < UInt32.size := by decide
  rw [LongNumber.toInt, LongNumber.ofInt, Int.toNat_of_nonneg (Int.emod_nonneg v some_.ne')]
  exact Int.ediv_mul_add_emod v UInt32.size

namespace Leb128

/-- Bytes that spell a value: it is read from them whatever follows, they are few, and the value is not
read from fewer. -/
structure Shortest {α : Type} (decode : List UInt8 → Except Error (α × Nat)) (most : Nat)
    (written : List UInt8) (a : α) : Prop where
  reads : ∀ rest, decode (written ++ rest) = .ok (a, written.length)
  few : written.length ≤ most
  least : ∀ bs n, decode bs = .ok (a, n) → written.length ≤ n ∧ n ≤ bs.length

/-- A signed 64-bit number in halves, and how many bytes it took. -/
def decodeLong (bytes : List UInt8) : Except Error (LongNumber × Nat) :=
  (decodeSigned 64 bytes).map fun (v, n) => (.ofInt v, n)

section Spellings

variable {bits : Nat}

/-- An unsigned number is written in the fewest bytes that are read back. -/
theorem shortest_unsigned {v : Nat} (some_ : 0 < bits) (fits : v < 2 ^ bits) :
    Shortest (decodeUnsigned bits) (maxBytes bits) (encodeUnsigned v) v where
  reads := decodeUnsigned_encodeUnsigned fits some_
  few := (decodeUnsigned_eq_ok_iff.1 (decodeUnsigned_encodeUnsigned fits some_ [])).1
  least := fun _ _ reads => (length_encodeUnsigned_le_of_decode reads).2

/-- A signed number is written in the fewest bytes that are read back. -/
theorem shortest_signed {v : Int} (some_ : 0 < bits) (fits : Fits (bits - 1) v) :
    Shortest (decodeSigned bits) (maxBytes bits) (encodeSigned v) v where
  reads := decodeSigned_encodeSigned fits some_
  few := ((decodeSigned_eq_ok_iff some_).1 (decodeSigned_encodeSigned fits some_ [])).1
  least := fun _ _ reads => (length_encodeSigned_le_of_decode reads).2

/-- The halves that are read make up the number that is read. -/
theorem decodeLong_toInt (bs : List UInt8) :
    (decodeLong bs).map (fun (long, n) => (long.toInt, n)) = decodeSigned 64 bs := by
  rw [decodeLong]
  cases decodeSigned 64 bs with
  | error e => rfl
  | ok r => exact congrArg (fun v => Except.ok (v, r.2)) (LongNumber.toInt_ofInt r.1)

/-- The halves of a long number take 32 bits each. -/
theorem halves_of_decodeLong {bs : List UInt8} {long : LongNumber} {n : Nat}
    (reads : decodeLong bs = .ok (long, n)) : Fits 31 long.high ∧ long.low < UInt32.size := by
  rw [decodeLong] at reads
  cases whole : decodeSigned 64 bs with
  | error e =>
    rw [whole] at reads
    cases reads
  | ok r =>
    rw [whole] at reads
    cases reads
    exact LongNumber.halves_ofInt (length_encodeSigned_le_of_decode whole).1

end Spellings

/-- **Integers survive their spelling**, which is the shortest one.  Every unsigned and every signed integer
of 32 bits takes at most five bytes, of 64 bits at most ten; a signed one of 64 bits also as two
halves, which are machine words. -/
theorem shortest_words :
    (∀ v : UInt32, Shortest (decodeUnsigned 32) 5 (encodeUnsigned v.toNat) v.toNat) ∧
    (∀ v : UInt64, Shortest (decodeUnsigned 64) 10 (encodeUnsigned v.toNat) v.toNat) ∧
    (∀ v : Int32, Shortest (decodeSigned 32) 5 (encodeSigned v.toInt) v.toInt) ∧
    (∀ v : Int64, Shortest (decodeSigned 64) 10 (encodeSigned v.toInt) v.toInt) ∧
    (∀ v : Int64, Shortest (fun bs => (decodeLong bs).map fun (long, n) => (long.toInt, n)) 10
      (encodeSigned v.toInt) v.toInt) ∧
    (∀ bs long n, decodeLong bs = .ok (long, n) →
      -2 ^ 31 ≤ long.high ∧ long.high < 2 ^ 31 ∧ long.low < 2 ^ 32) := by
  have signed32 (v : Int32) : Fits 31 v.toInt := ⟨v.le_toInt, v.toInt_lt⟩
  have signed64 (v : Int64) : Fits 63 v.toInt := ⟨v.le_toInt, v.toInt_lt⟩
  refine ⟨fun v => shortest_unsigned (by decide) v.toNat_lt, fun v => shortest_unsigned (by decide) v.toNat_lt,
    fun v => shortest_signed (by decide) (signed32 v), fun v => shortest_signed (by decide) (signed64 v),
    fun v => ?_, fun bs long n reads => ?_⟩
  · rw [funext decodeLong_toInt]
    exact shortest_signed (by decide) (signed64 v)
  · obtain ⟨⟨lower, upper⟩, low⟩ := halves_of_decodeLong reads
    exact ⟨lower, upper, low⟩

end Leb128

end WasmEngine
