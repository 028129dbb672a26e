import Mathlib.Tactic.IntervalCases
import Mathlib.Tactic.Ring
import Mathlib.Tactic.SplitIfs
import WasmEngine.Bytes.Integers

/-!
# Shortest spellings

What the encoders write is read back, and no spelling of the same number is shorter
(`length_encodeUnsigned_le_of_decode`, `length_encodeSigned_le_of_decode`).
-/

namespace WasmEngine.Leb128

/-! ## Bytes -/

theorem payload_last {n : Nat} (small : n < 128) : payload (UInt8.ofNat n) = n := by
  have byte : (UInt8.ofNat n).toNat = n := UInt8.toNat_ofNat_of_lt' (show _ < 256 by omega)
  rw [payload, byte]
  omega

theorem continues_last {n : Nat} (small : n < 128) : continues (UInt8.ofNat n) = false := by
  have byte : (UInt8.ofNat n).toNat = n := UInt8.toNat_ofNat_of_lt' (show _ < 256 by omega)
  rw [continues, byte]
  exact decide_eq_false (by omega)

theorem payload_group {n : Nat} (small : n < 128) : payload (UInt8.ofNat (n + 128)) = n := by
  have byte : (UInt8.ofNat (n + 128)).toNat = n + 128 := UInt8.toNat_ofNat_of_lt' (show _ < 256 by omega)
  rw [payload, byte]
  omega

theorem continues_group {n : Nat} (small : n < 128) : continues (UInt8.ofNat (n + 128)) = true := by
  have byte : (UInt8.ofNat (n + 128)).toNat = n + 128 := UInt8.toNat_ofNat_of_lt' (show _ < 256 by omega)
  rw [continues, byte]
  exact decide_eq_true (by omega)

theorem payload_lt (b : UInt8) : payload b < 128 := Nat.mod_lt _ (by omega)

/-- A place value in front of one more group. -/
theorem shift_succ (i : Nat) : 2 ^ (7 * (i + 1)) = 128 * 2 ^ (7 * i) := by
  rw [Nat.mul_succ, Nat.pow_add]
  omega

/-- A group in front of a number that is smaller than the place value of the group. -/
theorem add_mul_lt {acc p k x : Nat} (below : acc < x) (small : p < k) : acc + p * x < k * x :=
  calc acc + p * x < x + p * x := Nat.add_lt_add_right below _
    _ = (p + 1) * x := by ring
    _ ≤ k * x := Nat.mul_le_mul_right x small

/-! ## Unsigned numbers -/

section Unsigned

variable {bits i acc v n : Nat} {bs : List UInt8}

/-- What is read fits the width and the bytes that it took. -/
theorem fits_of_decodeUnsignedFrom (below : acc < 2 ^ (7 * i))
    (reads : decodeUnsignedFrom bits i acc bs = .ok (v, n)) :
    v < 2 ^ bits ∧ v < 2 ^ (7 * n) ∧ i < n ∧ n ≤ i + bs.length := by
  induction bs generalizing i acc with
  | nil => cases reads
  | cons b bs ih =>
    have value : acc + payload b <<< (7 * i) < 2 ^ (7 * (i + 1)) := by
      rw [Nat.shiftLeft_eq, shift_succ]
      exact add_mul_lt below (payload_lt b)
    unfold decodeUnsignedFrom at reads
    split_ifs at reads with long large more
    · obtain ⟨width, groups, later, within⟩ := ih value reads
      refine ⟨width, groups, by omega, ?_⟩
      rw [List.length_cons]
      omega
    · obtain ⟨rfl, rfl⟩ := Prod.mk.inj (Except.ok.inj reads)
      refine ⟨?_, value, by omega, by rw [List.length_cons]; omega⟩
      unfold maxBytes at long large
      by_cases last : i + 1 = (bits + 6) / 7
      · have clear : payload b < 2 ^ (bits - 7 * i) := by
          rw [← Nat.one_shiftLeft]
          exact Nat.lt_of_not_le fun le => large ⟨last, le⟩
        have split : 2 ^ bits = 2 ^ (bits - 7 * i) * 2 ^ (7 * i) := by
          rw [← Nat.pow_add]
          congr 1
          omega
        rw [Nat.shiftLeft_eq, split]
        exact add_mul_lt below clear
      · exact value.trans_le (Nat.pow_le_pow_right (by omega) (by omega))

/-- A number takes no more bytes than its width allows. -/
theorem le_maxBytes_of_decodeUnsignedFrom (within : i ≤ maxBytes bits)
    (reads : decodeUnsignedFrom bits i acc bs = .ok (v, n)) : n ≤ maxBytes bits := by
  induction bs generalizing i acc with
  | nil => cases reads
  | cons b bs ih =>
    unfold decodeUnsignedFrom at reads
    split_ifs at reads with long large more
    · exact ih (by omega) reads
    · obtain ⟨-, rfl⟩ := Prod.mk.inj (Except.ok.inj reads)
      omega

/-- A number takes a byte at least, and no more than its width allows. -/
theorem bytes_of_decodeUnsigned (reads : decodeUnsigned bits bs = .ok (v, n)) :
    1 ≤ n ∧ n ≤ maxBytes bits := by
  obtain ⟨-, -, some_, -⟩ := fits_of_decodeUnsignedFrom (by simp) reads
  exact ⟨some_, le_maxBytes_of_decodeUnsignedFrom (Nat.zero_le _) reads⟩

theorem length_encodeUnsigned_pos (v : Nat) : 0 < (encodeUnsigned v).length := by
  unfold encodeUnsigned
  split_ifs <;> simp

/-- A number needs no more bytes than it has groups. -/
theorem length_encodeUnsigned_le (fits : v < 2 ^ (7 * n)) (some_ : 0 < n) :
    (encodeUnsigned v).length ≤ n := by
  induction n generalizing v with
  | zero => omega
  | succ n ih =>
    unfold encodeUnsigned
    split_ifs with small
    · simp
    · have place := shift_succ n
      have rest : v / 128 < 2 ^ (7 * n) := by
        rw [Nat.div_lt_iff_lt_mul (by omega)]
        omega
      have more : 0 < n := by
        rcases Nat.eq_zero_or_pos n with rfl | pos
        · simp at fits
          omega
        · exact pos
      have shorter := ih rest more
      rw [List.length_cons]
      omega

/-- No spelling of a number is shorter than the one that is written. -/
theorem length_encodeUnsigned_le_of_decode (reads : decodeUnsigned bits bs = .ok (v, n)) :
    v < 2 ^ bits ∧ (encodeUnsigned v).length ≤ n ∧ n ≤ bs.length := by
  obtain ⟨width, groups, some_, within⟩ := fits_of_decodeUnsignedFrom (by simp) reads
  exact ⟨width, length_encodeUnsigned_le groups (by omega), by omega⟩

/-- What was written is read from the `i`-th group on, and added to the groups before. -/
theorem decodeUnsignedFrom_encodeUnsigned (rest : List UInt8) (within : 7 * i < bits)
    (fits : v < 2 ^ (bits - 7 * i)) :
    decodeUnsignedFrom bits i acc (encodeUnsigned v ++ rest) =
      .ok (acc + v * 2 ^ (7 * i), i + (encodeUnsigned v).length) := by
  induction v using Nat.strongRecOn generalizing i acc with
  | ind v ih =>
    have room : ¬ maxBytes bits ≤ i := by
      unfold maxBytes
      omega
    unfold encodeUnsigned
    split_ifs with small
    · have clear : ¬ (i + 1 = maxBytes bits ∧ 1 <<< (bits - 7 * i) ≤ v) := by
        rw [Nat.one_shiftLeft]
        omega
      simp only [List.singleton_append, decodeUnsignedFrom, room, if_false, payload_last small,
        if_neg clear, continues_last small, Bool.false_eq_true, List.length_singleton]
      rw [Nat.shiftLeft_eq]
    · have group : v % 128 < 128 := Nat.mod_lt _ (by omega)
      have wide : 7 < bits - 7 * i := by
        by_contra narrow
        have le : 2 ^ (bits - 7 * i) ≤ 2 ^ 7 := Nat.pow_le_pow_right (by omega) (by omega)
        omega
      have later : ¬ (i + 1 = maxBytes bits ∧ 1 <<< (bits - 7 * i) ≤ v % 128) := by
        unfold maxBytes
        omega
      have fits' : v / 128 < 2 ^ (bits - 7 * (i + 1)) := by
        have split : 2 ^ (bits - 7 * i) = 2 ^ (bits - 7 * (i + 1)) * 128 := by
          rw [show bits - 7 * i = bits - 7 * (i + 1) + 7 by omega, Nat.pow_add]
        rw [Nat.div_lt_iff_lt_mul (by omega), ← split]
        exact fits
      have shorter : decodeUnsignedFrom bits (i + 1) (acc + (v % 128) <<< (7 * i))
          (encodeUnsigned (v / 128) ++ rest) = _ := ih (v / 128) (by omega) (by omega) fits'
      simp only [List.cons_append, decodeUnsignedFrom, room, if_false, payload_group group,
        if_neg later, continues_group group, if_true, shorter, List.length_cons]
      have length : i + 1 + (encodeUnsigned (v / 128)).length =
          i + ((encodeUnsigned (v / 128)).length + 1) := by omega
      rw [length, Nat.shiftLeft_eq]
      congr 2
      calc acc + v % 128 * 2 ^ (7 * i) + v / 128 * 2 ^ (7 * (i + 1))
          = acc + (v % 128 + 128 * (v / 128)) * 2 ^ (7 * i) := by rw [shift_succ]; ring
        _ = acc + v * 2 ^ (7 * i) := by rw [Nat.mod_add_div]

/-- **What is written is read back**, whatever follows it. -/
theorem decodeUnsigned_encodeUnsigned (fits : v < 2 ^ bits) (some_ : 0 < bits) (rest : List UInt8) :
    decodeUnsigned bits (encodeUnsigned v ++ rest) = .ok (v, (encodeUnsigned v).length) := by
  have reads : decodeUnsignedFrom bits 0 0 (encodeUnsigned v ++ rest) = _ :=
    decodeUnsignedFrom_encodeUnsigned rest (by omega) fits
  simpa [decodeUnsigned] using reads

/-- A number has no more bits than its bytes have groups for. -/
theorem lt_of_length_encodeUnsigned (v : Nat) : v < 2 ^ (7 * (encodeUnsigned v).length) := by
  induction v using Nat.strongRecOn with
  | ind v ih =>
    unfold encodeUnsigned
    split_ifs with small
    · exact small
    · have shorter := ih (v / 128) (by omega)
      rw [List.length_cons, shift_succ]
      omega

/-- Larger numbers take no fewer bytes. -/
theorem length_encodeUnsigned_mono {w : Nat} (le : v ≤ w) :
    (encodeUnsigned v).length ≤ (encodeUnsigned w).length :=
  length_encodeUnsigned_le (le.trans_lt (lt_of_length_encodeUnsigned w))
    (length_encodeUnsigned_pos w)

/-- A sum needs no more bytes than its parts. -/
theorem length_encodeUnsigned_add (v w : Nat) :
    (encodeUnsigned (v + w)).length ≤ (encodeUnsigned v).length + (encodeUnsigned w).length := by
  have left := lt_of_length_encodeUnsigned v
  have right := lt_of_length_encodeUnsigned w
  have some_ := length_encodeUnsigned_pos v
  have other := length_encodeUnsigned_pos w
  refine length_encodeUnsigned_le ?_ (by omega)
  generalize (encodeUnsigned v).length = m at *
  generalize (encodeUnsigned w).length = n at *
  have two : 2 ≤ 2 ^ (7 * m) := Nat.le_self_pow (by omega) 2
  have two' : 2 ≤ 2 ^ (7 * n) := Nat.le_self_pow (by omega) 2
  have parts : 2 ^ (7 * m) + 2 ^ (7 * n) ≤ 2 ^ (7 * m) * 2 ^ (7 * n) := Nat.add_le_mul two two'
  rw [Nat.mul_add, Nat.pow_add]
  omega

end Unsigned

/-! ## Signed numbers -/

/-- An integer of some bits besides its sign. -/
def Fits (bits : Nat) (v : Int) : Prop := -(2 ^ bits : Nat) ≤ v ∧ v < (2 ^ bits : Nat)

theorem Fits.mono {k l : Nat} {v : Int} (fits : Fits k v) (le : k ≤ l) : Fits l v := by
  have wider : 2 ^ k ≤ 2 ^ l := Nat.pow_le_pow_right (by omega) le
  obtain ⟨lower, upper⟩ := fits
  exact ⟨by omega, by omega⟩

/-- Half a place value. -/
theorem half_succ (i : Nat) : 2 ^ (7 * (i + 1) - 1) = 64 * 2 ^ (7 * i) := by
  rw [show 7 * (i + 1) - 1 = 6 + 7 * i by omega, Nat.pow_add]

/-- The bits above the sign agree with it. -/
theorem signFits_iff {used p : Nat} (some_ : 0 < used) (most : used ≤ 7) (small : p < 128) :
    signFits used p = true ↔ p < 2 ^ (used - 1) ∨ 128 ≤ p + 2 ^ (used - 1) := by
  simp only [signFits, Nat.shiftRight_eq_div_pow, Bool.or_eq_true, decide_eq_true_eq]
  interval_cases used <;> omega

section Signed

variable {bits i acc n : Nat} {v : Int} {bs : List UInt8}

/-- The value of the last byte, with the sign that its group has. -/
theorem fits_of_last {p x y : Nat} (below : acc < x) (half : y ≤ 64)
    (fits : p < y ∨ 128 ≤ p + y) (small : p < 128)
    (value : v = if 64 ≤ p then ((acc + p * x : Nat) : Int) - (128 * x : Nat)
      else (acc + p * x : Nat)) :
    -(y * x : Nat) ≤ v ∧ v < (y * x : Nat) := by
  have whole := add_mul_lt below small
  rcases fits with low | high
  · have upper := add_mul_lt below low
    rw [if_neg (by omega)] at value
    omega
  · have lower : 128 * x ≤ p * x + y * x := by
      rw [← Nat.add_mul]
      exact Nat.mul_le_mul_right x high
    rw [if_pos (by omega)] at value
    omega

/-- The last byte leaves a number of the width and of the bytes that were read. -/
theorem fits_of_final {p : Nat} (below : acc < 2 ^ (7 * i)) (small : p < 128)
    (room : i < maxBytes bits) (clear : i + 1 = maxBytes bits → signFits (bits - 7 * i) p = true)
    (value : v = if 64 ≤ p then ((acc + p * 2 ^ (7 * i) : Nat) : Int) - (128 * 2 ^ (7 * i) : Nat)
      else (acc + p * 2 ^ (7 * i) : Nat)) :
    Fits (bits - 1) v ∧ Fits (7 * (i + 1) - 1) v := by
  have groups : Fits (7 * (i + 1) - 1) v := by
    rw [Fits, half_succ]
    exact fits_of_last below (Nat.le_refl 64) (by omega) small value
  refine ⟨?_, groups⟩
  unfold maxBytes at room clear
  by_cases last : i + 1 = (bits + 6) / 7
  · have fits := (signFits_iff (by omega) (by omega) small).1 (clear last)
    have half : 2 ^ (bits - 7 * i - 1) ≤ 64 :=
      Nat.pow_le_pow_right (n := 2) (by omega) (show bits - 7 * i - 1 ≤ 6 by omega)
    have split : 2 ^ (bits - 1) = 2 ^ (bits - 7 * i - 1) * 2 ^ (7 * i) := by
      rw [← Nat.pow_add]
      congr 1
      omega
    rw [Fits, split]
    exact fits_of_last below half fits small value
  · exact groups.mono (by omega)

/-- What is read fits the width and the bytes that it took. -/
theorem fits_of_decodeSignedFrom (below : acc < 2 ^ (7 * i))
    (reads : decodeSignedFrom bits i acc bs = .ok (v, n)) :
    Fits (bits - 1) v ∧ Fits (7 * n - 1) v ∧ i < n ∧ n ≤ i + bs.length := by
  induction bs generalizing i acc with
  | nil => cases reads
  | cons b bs ih =>
    have small := payload_lt b
    unfold decodeSignedFrom at reads
    simp only [Nat.shiftLeft_eq, Nat.one_mul, shift_succ] at reads
    have clear (large : ¬ (i + 1 = maxBytes bits ∧ ¬ signFits (bits - 7 * i) (payload b) = true))
        (last : i + 1 = maxBytes bits) : signFits (bits - 7 * i) (payload b) = true :=
      not_not.1 fun fits => large ⟨last, fits⟩
    split_ifs at reads with long large more negative
    · have value : acc + payload b * 2 ^ (7 * i) < 2 ^ (7 * (i + 1)) := by
        rw [shift_succ]
        exact add_mul_lt below small
      obtain ⟨width, groups, later, within⟩ := ih value reads
      refine ⟨width, groups, by omega, ?_⟩
      rw [List.length_cons]
      omega
    · obtain ⟨value, rfl⟩ := Prod.mk.inj (Except.ok.inj reads)
      have final := fits_of_final below small (by omega) (clear large)
        (v := v) (by rw [if_pos negative]; exact value.symm)
      exact ⟨final.1, final.2, by omega, by rw [List.length_cons]; omega⟩
    · obtain ⟨value, rfl⟩ := Prod.mk.inj (Except.ok.inj reads)
      have final := fits_of_final below small (by omega) (clear large)
        (v := v) (by rw [if_neg negative]; exact value.symm)
      exact ⟨final.1, final.2, by omega, by rw [List.length_cons]; omega⟩

theorem length_encodeSigned_pos (v : Int) : 0 < (encodeSigned v).length := by
  unfold encodeSigned
  dsimp only
  split_ifs <;> simp

/-- A number needs no more bytes than it has groups. -/
theorem length_encodeSigned_le (fits : Fits (7 * n - 1) v) (some_ : 0 < n) :
    (encodeSigned v).length ≤ n := by
  induction n generalizing v with
  | zero => omega
  | succ n ih =>
    unfold encodeSigned
    dsimp only
    split_ifs with final
    · simp
    · obtain ⟨lower, upper⟩ := fits
      rw [half_succ] at lower upper
      have more : 0 < n := by
        rcases Nat.eq_zero_or_pos n with rfl | pos
        · simp at lower upper
          omega
        · exact pos
      have place : 2 ^ (7 * n) = 2 * 2 ^ (7 * n - 1) := by
        rw [← Nat.pow_succ']
        congr 1
        omega
      have rest : Fits (7 * n - 1) (v / 128) := ⟨by omega, by omega⟩
      have shorter := ih rest more
      rw [List.length_cons]
      omega

/-- No spelling of a number is shorter than the one that is written. -/
theorem length_encodeSigned_le_of_decode (reads : decodeSigned bits bs = .ok (v, n)) :
    Fits (bits - 1) v ∧ (encodeSigned v).length ≤ n ∧ n ≤ bs.length := by
  obtain ⟨width, groups, some_, within⟩ := fits_of_decodeSignedFrom (by simp) reads
  exact ⟨width, length_encodeSigned_le groups (by omega), by omega⟩

/-- The group of the last byte has the sign of the number. -/
theorem signFits_of_fits {used : Nat} (fits : Fits (used - 1) v) (some_ : 0 < used)
    (most : used ≤ 7) : signFits used (v % 128).toNat = true := by
  obtain ⟨lower, upper⟩ := fits
  have half : 2 ^ (used - 1) ≤ 64 :=
    Nat.pow_le_pow_right (n := 2) (by omega) (show used - 1 ≤ 6 by omega)
  rw [signFits_iff some_ most (by omega)]
  omega

/-- What was written of a signed number is read from the `i`-th group on. -/
theorem decodeSignedFrom_encodeSigned (rest : List UInt8) (within : 7 * i < bits)
    (fits : Fits (bits - 7 * i - 1) v) :
    decodeSignedFrom bits i acc (encodeSigned v ++ rest) =
      .ok (acc + v * (2 ^ (7 * i) : Nat), i + (encodeSigned v).length) := by
  generalize size : v.natAbs = k
  induction k using Nat.strongRecOn generalizing i acc v with
  | ind k ih =>
    have room : ¬ maxBytes bits ≤ i := by
      unfold maxBytes
      omega
    have group : (v % 128).toNat < 128 := by omega
    unfold encodeSigned
    dsimp only
    split_ifs with final
    · have clear : ¬ (i + 1 = maxBytes bits ∧ ¬ signFits (bits - 7 * i) (v % 128).toNat = true) := by
        rintro ⟨last, fails⟩
        unfold maxBytes at last
        exact fails (signFits_of_fits fits (by omega) (by omega))
      simp only [List.singleton_append, decodeSignedFrom, room, if_false, payload_last group,
        if_neg clear, continues_last group, Bool.false_eq_true, List.length_singleton,
        Nat.shiftLeft_eq, Nat.one_mul, shift_succ]
      split_ifs with negative
      · have value : ((v % 128).toNat : Int) = v + 128 := by omega
        congr 2
        rw [Nat.cast_add, Nat.cast_mul, value, Nat.cast_mul]
        ring
      · have value : ((v % 128).toNat : Int) = v := by omega
        congr 2
        rw [Nat.cast_add, Nat.cast_mul, value]
    · have wide : 7 < bits - 7 * i := by
        by_contra narrow
        have half : 2 ^ (bits - 7 * i - 1) ≤ 64 :=
          Nat.pow_le_pow_right (n := 2) (by omega) (show bits - 7 * i - 1 ≤ 6 by omega)
        obtain ⟨lower, upper⟩ := fits
        omega
      have later : ¬ (i + 1 = maxBytes bits ∧ ¬ signFits (bits - 7 * i) (v % 128).toNat = true) := by
        unfold maxBytes
        omega
      have fits' : Fits (bits - 7 * (i + 1) - 1) (v / 128) := by
        have split : 2 ^ (bits - 7 * i - 1) = 2 ^ (bits - 7 * (i + 1) - 1) * 128 := by
          rw [show bits - 7 * i - 1 = bits - 7 * (i + 1) - 1 + 7 by omega, Nat.pow_add]
        obtain ⟨lower, upper⟩ := fits
        rw [split] at lower upper
        exact ⟨by omega, by omega⟩
      have shorter : decodeSignedFrom bits (i + 1) (acc + (v % 128).toNat <<< (7 * i))
          (encodeSigned (v / 128) ++ rest) = _ := ih (v / 128).natAbs (by omega) (by omega) fits' rfl
      simp only [List.cons_append, decodeSignedFrom, room, if_false, payload_group group,
        if_neg later, continues_group group, if_true, shorter, List.length_cons]
      have length : i + 1 + (encodeSigned (v / 128)).length =
          i + ((encodeSigned (v / 128)).length + 1) := by omega
      have value : ((v % 128).toNat : Int) + v / 128 * 128 = v := by omega
      rw [length, Nat.shiftLeft_eq, shift_succ]
      congr 2
      calc ((acc + (v % 128).toNat * 2 ^ (7 * i) : Nat) : Int) + v / 128 * (128 * 2 ^ (7 * i) : Nat)
          = acc + ((v % 128).toNat + v / 128 * 128) * (2 ^ (7 * i) : Nat) := by
            rw [Nat.cast_add, Nat.cast_mul, Nat.cast_mul]
            ring
        _ = acc + v * (2 ^ (7 * i) : Nat) := by rw [value]

/-- **What is written is read back**, whatever follows it. -/
theorem decodeSigned_encodeSigned (fits : Fits (bits - 1) v) (some_ : 0 < bits)
    (rest : List UInt8) :
    decodeSigned bits (encodeSigned v ++ rest) = .ok (v, (encodeSigned v).length) := by
  have reads : decodeSignedFrom bits 0 0 (encodeSigned v ++ rest) = _ :=
    decodeSignedFrom_encodeSigned rest (by omega) fits
  simpa [decodeSigned] using reads

end Signed

end WasmEngine.Leb128
