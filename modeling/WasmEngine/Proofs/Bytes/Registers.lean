import Mathlib.Data.Nat.Bitwise
import WasmEngine.Proofs.Bytes.Denotation

/-!
# Decoding on machine words

The loops of the decoders with a 64-bit word that the groups are moved into, a 32-bit count of the bits read
so far, and steps that may overflow.  For numbers of 32 and 64 bits no step does, and the word that is
left holds the number that was read (`unsigned_carries`, `signed_carries`).
-/

namespace WasmEngine.Leb128.Registers

/-! ## The loops -/

/-- A sum of 32-bit counts, nothing if it overflows. -/
def add (a b : Nat) : Option Nat := if a + b < UInt32.size then some (a + b) else none

/-- A difference of counts, nothing if it overflows. -/
def sub (a b : Nat) : Option Nat := if b ≤ a then some (a - b) else none

/-- A word moved to the left, nothing if it is moved by its width or more. -/
def shiftLeft (x : BitVec 64) (k : Nat) : Option (BitVec 64) := if k < 64 then some (x <<< k) else none

/-- A byte moved to the right, nothing if it is moved by its width or more. -/
def shiftRight (x : UInt8) (k : Nat) : Option (BitVec 8) := if k < 8 then some (x.toBitVec >>> k) else none

/-- What a loop on words gives, nothing if a step overflows. -/
abbrev Checked := ExceptT Error Option

/-- Looks at the byte after `i` others: there may be so many, and the last one is checked. -/
def accept (bits i : Nat) (check : Checked Unit) : Checked Unit :=
  if maxBytes bits ≤ i then throw .tooLong else if i = maxBytes bits - 1 then check else return ()

/-- The seven low bits of a byte as a word. -/
def low (b : UInt8) : BitVec 64 := (b &&& 0x7f).toBitVec.setWidth 64

/-- Refuses the last byte that may be read if it has a bit beyond the width. -/
def checkUnsigned (bits shift : Nat) (b : UInt8) : Checked Unit := do
  let used ← sub bits shift
  if used < 7 ∧ low b >>> used ≠ 0 then throw .tooLarge

/-- Reads on after `i` bytes, whose groups are in the word. -/
def unsignedFrom (bits i shift : Nat) (word : BitVec 64) : List UInt8 → Checked (BitVec 64 × Nat)
  | [] => throw .unexpectedEnd
  | b :: bs => do
    accept bits i (checkUnsigned bits shift b)
    let group ← shiftLeft (low b) shift
    let next ← add i 1
    if b &&& 0x80 = 0 then return (word ||| group, next)
    let shift ← add shift 7
    unsignedFrom bits next shift (word ||| group) bs

/-- An unsigned number of the lower bits of a word, and how many bytes it took. -/
def unsigned (bits : Nat) (bytes : List UInt8) : Checked (BitVec bits × Nat) := do
  let (word, taken) ← unsignedFrom bits 0 0 0 bytes
  return (word.setWidth bits, taken)

/-- Refuses the last byte that may be read if the bits beyond the width are no copies of the sign. -/
def checkSigned (bits shift : Nat) (b : UInt8) : Checked Unit := do
  let used ← sub bits shift
  if used < 7 then
    let top ← sub used 1
    let signs ← shiftRight (b &&& 0x7f) top
    let ones ← shiftRight 0x7f top
    if signs ≠ 0 ∧ signs ≠ ones then throw .tooLarge

/-- The word with copies of the sign above the bits read, if there is room for any. -/
def extend (shift : Nat) (b : UInt8) (word : BitVec 64) : Option (BitVec 64) :=
  if shift < 64 ∧ b &&& 0x40 ≠ 0 then (shiftLeft (-1) shift).map (word ||| ·) else some word

/-- Reads on after `i` bytes, whose groups are in the word. -/
def signedFrom (bits i shift : Nat) (word : BitVec 64) : List UInt8 → Checked (BitVec 64 × Nat)
  | [] => throw .unexpectedEnd
  | b :: bs => do
    accept bits i (checkSigned bits shift b)
    let group ← shiftLeft (low b) shift
    let next ← add i 1
    let shift ← add shift 7
    if b &&& 0x80 = 0 then
      let word ← extend shift b (word ||| group)
      return (word, next)
    signedFrom bits next shift (word ||| group) bs

/-- A signed number of the lower bits of a word, and how many bytes it took. -/
def signed (bits : Nat) (bytes : List UInt8) : Checked (BitVec bits × Nat) := do
  let (word, taken) ← signedFrom bits 0 0 0 bytes
  return (word.setWidth bits, taken)

/-! ## Bytes as words -/

theorem toNat_payload (b : UInt8) : (b &&& 0x7f).toNat = payload b :=
  Nat.and_two_pow_sub_one_eq_mod b.toNat 7

theorem low_eq (b : UInt8) : low b = BitVec.ofNat 64 (payload b) := by
  refine BitVec.eq_of_toNat_eq ?_
  rw [low, BitVec.toNat_setWidth, BitVec.toNat_ofNat, ← toNat_payload]
  rfl

/-- A bit of a byte is a bit of its number. -/
theorem and_bit_eq_zero_iff {b bit : UInt8} {i : Nat} (single : bit.toNat = 2 ^ i) :
    b &&& bit = 0 ↔ b.toNat.testBit i = false := by
  have number : b &&& bit = 0 ↔ b.toNat &&& 2 ^ i = 0 := by
    rw [← UInt8.toNat_inj, UInt8.toNat_and, single]
    rfl
  have place : 2 ^ i ≠ 0 := by positivity
  rw [number, Nat.and_two_pow, Nat.mul_eq_zero, or_iff_left place, Bool.toNat_eq_zero]

theorem last_iff (b : UInt8) : b &&& 0x80 = 0 ↔ continues b = false := by
  have bit : b &&& 0x80 = 0 ↔ b.toNat.testBit 7 = false := and_bit_eq_zero_iff rfl
  have small := b.toNat_lt
  rw [bit, continues, Nat.testBit_eq_decide_div_mod_eq, decide_eq_false_iff_not, decide_eq_false_iff_not]
  omega

theorem negative_iff (b : UInt8) : b &&& 0x40 ≠ 0 ↔ 64 ≤ payload b := by
  have bit : b &&& 0x40 = 0 ↔ b.toNat.testBit 6 = false := and_bit_eq_zero_iff rfl
  rw [Ne, bit, payload, Nat.testBit_eq_decide_div_mod_eq, decide_eq_false_iff_not]
  omega

/-! ## Steps that do not overflow -/

section Steps

variable {α β : Type} {bits i acc : Nat}

theorem lift_bind (a : α) (f : α → Checked β) : ((liftM (some a) : Checked α) >>= f) = f a := rfl

theorem throw_bind (e : Error) (f : α → Checked β) : ((throw e : Checked α) >>= f) = throw e := rfl

theorem add_eq {a b : Nat} (small : a + b < UInt32.size) : add a b = some (a + b) := if_pos small

theorem sub_eq {a b : Nat} (le : b ≤ a) : sub a b = some (a - b) := if_pos le

theorem shiftLeft_eq {k : Nat} (inside : k < 64) (x : BitVec 64) : shiftLeft x k = some (x <<< k) :=
  if_pos inside

theorem shiftRight_eq {k : Nat} (inside : k < 8) (x : UInt8) :
    shiftRight x k = some (x.toBitVec >>> k) := if_pos inside

/-- The next group goes above those that are in the word. -/
theorem or_shiftLeft_low (below : acc < 2 ^ (7 * i)) (b : UInt8) :
    BitVec.ofNat 64 acc ||| low b <<< (7 * i) = BitVec.ofNat 64 (acc + payload b <<< (7 * i)) := by
  have moved : low b <<< (7 * i) = BitVec.ofNat 64 (payload b <<< (7 * i)) := by
    have small : payload b % 2 ^ 64 = payload b :=
      Nat.mod_eq_of_lt ((payload_lt b).trans (by decide))
    refine BitVec.eq_of_toNat_eq ?_
    rw [low_eq, BitVec.toNat_shiftLeft, BitVec.toNat_ofNat, BitVec.toNat_ofNat, small]
  rw [moved, ← BitVec.ofNat_or, Nat.or_comm, ← Nat.shiftLeft_add_eq_or_of_lt below, Nat.add_comm]

/-- The bits of the last group that go beyond the width are clear. -/
theorem checkUnsigned_eq (room : i < maxBytes bits) (last : i = maxBytes bits - 1) (b : UInt8) :
    checkUnsigned bits (7 * i) b =
      if 1 <<< (bits - 7 * i) ≤ payload b then throw .tooLarge else pure () := by
  unfold maxBytes at room last
  have small := payload_lt b
  have cut : payload b % 2 ^ 64 = payload b := Nat.mod_eq_of_lt (small.trans (by decide))
  have beyond : bits - 7 * i < 7 ∧ low b >>> (bits - 7 * i) ≠ 0 ↔ 1 <<< (bits - 7 * i) ≤ payload b := by
    have clear : low b >>> (bits - 7 * i) = 0 ↔ payload b < 2 ^ (bits - 7 * i) := by
      rw [← BitVec.toNat_inj, low_eq, BitVec.toNat_ushiftRight, BitVec.toNat_ofNat, cut,
        Nat.shiftRight_eq_div_pow]
      exact Nat.div_eq_zero_iff_lt (Nat.two_pow_pos _)
    rw [Ne, clear, Nat.one_shiftLeft, Nat.not_lt, and_iff_right_iff_imp]
    intro large
    by_contra wide
    have : 2 ^ 7 ≤ 2 ^ (bits - 7 * i) := Nat.pow_le_pow_right (by decide) (Nat.not_lt.1 wide)
    omega
  rw [checkUnsigned, sub_eq (by omega), lift_bind]
  exact if_congr beyond rfl rfl

/-- The bits of the last group that go beyond the width are copies of the sign. -/
theorem checkSigned_eq (room : i < maxBytes bits) (last : i = maxBytes bits - 1) (b : UInt8) :
    checkSigned bits (7 * i) b =
      if ¬ signFits (bits - 7 * i) (payload b) = true then throw .tooLarge else pure () := by
  unfold maxBytes at room last
  have small := payload_lt b
  have used : bits - 7 * i ≤ 7 := by omega
  rw [checkSigned, sub_eq (by omega), lift_bind]
  by_cases narrow : bits - 7 * i < 7
  · have moved (x : UInt8) : (x.toBitVec >>> (bits - 7 * i - 1)).toNat = x.toNat >>> (bits - 7 * i - 1) :=
      BitVec.toNat_ushiftRight ..
    rw [if_pos narrow, sub_eq (by omega), lift_bind, shiftRight_eq (by omega), lift_bind,
      shiftRight_eq (by omega), lift_bind]
    refine if_congr ?_ rfl rfl
    rw [signFits, Ne, Ne, ← BitVec.toNat_inj, ← BitVec.toNat_inj, moved, moved, toNat_payload,
      Bool.or_eq_true, decide_eq_true_eq, decide_eq_true_eq, not_or]
    rfl
  · have fits : signFits (bits - 7 * i) (payload b) = true :=
      (signFits_iff (by omega) used small).2 (by
        rw [show bits - 7 * i - 1 = 6 by omega]
        omega)
    rw [if_neg narrow, if_neg (not_not.2 fits)]

/-- Above a number of `k` bits stand copies of the sign: the place value of bit `k` is taken away. -/
theorem or_signs {value k : Nat} (below : value < 2 ^ k) :
    BitVec.ofNat 64 value ||| (-1 : BitVec 64) <<< k =
      BitVec.ofInt 64 ((value : Int) - (2 ^ k : Nat)) := by
  have ones : (-1 : BitVec 64) = BitVec.allOnes 64 := BitVec.neg_one_eq_allOnes
  have apart : BitVec.ofNat 64 value &&& (-1 : BitVec 64) <<< k = 0#64 := by
    refine BitVec.eq_of_getLsbD_eq fun j inside => ?_
    rw [ones]
    by_cases low : j < k
    · simp [low]
    · have clear : value.testBit j = false :=
        Nat.testBit_lt_two_pow (below.trans_le (Nat.pow_le_pow_right (by decide) (Nat.not_lt.1 low)))
      rw [BitVec.getLsbD_and, BitVec.getLsbD_ofNat, clear, Bool.and_false, Bool.false_and,
        BitVec.getLsbD_zero]
  have place : BitVec.twoPow 64 k = BitVec.ofNat 64 (2 ^ k) := by
    refine BitVec.eq_of_toNat_eq ?_
    rw [BitVec.toNat_twoPow, BitVec.toNat_ofNat]
  have signs : (-1 : BitVec 64) <<< k = BitVec.ofInt 64 (-(2 ^ k : Nat)) := by
    rw [BitVec.shiftLeft_eq_mul_twoPow, BitVec.neg_mul, BitVec.ofInt_neg, BitVec.ofInt_natCast, ← place]
    exact congrArg Neg.neg (BitVec.one_mul _)
  rw [← BitVec.add_eq_or_of_and_eq_zero _ _ apart, signs, Int.sub_eq_add_neg, BitVec.ofInt_add,
    BitVec.ofInt_natCast]

/-- On a 64-bit word the sign is extended as it is on integers. -/
theorem extend_eq {value : Nat} (k : Nat) (b : UInt8) (below : value < 2 ^ k) :
    extend k b (BitVec.ofNat 64 value) = some (BitVec.ofInt 64
      (if 64 ≤ payload b then (value : Int) - (2 ^ k : Nat) else value)) := by
  rw [extend]
  by_cases negative : b &&& 0x40 ≠ 0
  · rw [if_pos ((negative_iff b).1 negative), ← or_signs below]
    by_cases room : k < 64
    · rw [if_pos ⟨room, negative⟩, shiftLeft_eq room, Option.map_some]
    · have gone : (-1 : BitVec 64) <<< k = 0#64 := BitVec.shiftLeft_eq_zero (Nat.not_lt.1 room)
      rw [if_neg fun both => room both.1, gone, BitVec.or_zero]
  · rw [if_neg fun signed => negative ((negative_iff b).2 signed), if_neg fun both => negative both.2,
      BitVec.ofInt_natCast]

end Steps

/-! ## Whole loops -/

section Loops

variable {bits i acc : Nat}

/-- The bits that are read before the last byte are fewer than those of a word. -/
theorem shift_lt (most : bits ≤ 64) (room : i < maxBytes bits) : 7 * i < 64 := by
  unfold maxBytes at room
  omega

/-- Only the last byte that may be read is checked. -/
theorem accept_eq {refused : Prop} [Decidable refused] {check : Checked Unit} (room : i < maxBytes bits)
    (checks : i = maxBytes bits - 1 → check = if refused then throw .tooLarge else pure ()) :
    accept bits i check = if i + 1 = maxBytes bits ∧ refused then throw .tooLarge else pure () := by
  rw [accept, if_neg (Nat.not_le.2 room)]
  by_cases last : i = maxBytes bits - 1
  · have isLast : i + 1 = maxBytes bits := by omega
    rw [if_pos last, checks last]
    exact if_congr (iff_and_self.2 fun _ => isLast) rfl rfl
  · rw [if_neg last, if_neg fun both => last (by omega)]

/-- The groups of one more byte stay below the next place value. -/
theorem add_payload_lt (below : acc < 2 ^ (7 * i)) (b : UInt8) :
    acc + payload b <<< (7 * i) < 2 ^ (7 * (i + 1)) := by
  rw [Nat.shiftLeft_eq, shift_succ]
  exact add_mul_lt below (payload_lt b)

/-- From the `i`-th group on the unsigned loop on words does what the decoder on numbers does, and no step
overflows. -/
theorem unsignedFrom_eq (most : bits ≤ 64) (below : acc < 2 ^ (7 * i)) (bs : List UInt8) :
    (unsignedFrom bits i (7 * i) (.ofNat 64 acc) bs).run =
      some ((decodeUnsignedFrom bits i acc bs).map fun (v, n) => (BitVec.ofNat 64 v, n)) := by
  induction bs generalizing i acc with
  | nil => rfl
  | cons b bs ih =>
    rw [unsignedFrom, decodeUnsignedFrom]
    by_cases long : maxBytes bits ≤ i
    · rw [accept, if_pos long, if_pos long, throw_bind]
      rfl
    have room : i < maxBytes bits := Nat.not_le.1 long
    have inside := shift_lt most room
    have size : UInt32.size = 4294967296 := rfl
    rw [if_neg long, accept_eq room (checkUnsigned_eq room · b)]
    by_cases large : i + 1 = maxBytes bits ∧ 1 <<< (bits - 7 * i) ≤ payload b
    · rw [if_pos large, if_pos large, throw_bind]
      rfl
    rw [if_neg large, if_neg large, pure_bind, shiftLeft_eq inside, lift_bind, add_eq (by omega), lift_bind,
      or_shiftLeft_low below]
    by_cases more : continues b = true
    · have next : ¬ b &&& 0x80 = 0 := fun last => by
        rw [(last_iff b).1 last] at more
        cases more
      rw [if_neg next, add_eq (by omega), lift_bind]
      dsimp only
      rw [if_pos more]
      exact ih (add_payload_lt below b)
    · rw [if_pos ((last_iff b).2 (Bool.eq_false_iff.2 more))]
      dsimp only
      rw [if_neg more]
      rfl

/-- From the `i`-th group on the signed loop on words does what the decoder on integers does, and no step
overflows. -/
theorem signedFrom_eq (most : bits ≤ 64) (below : acc < 2 ^ (7 * i)) (bs : List UInt8) :
    (signedFrom bits i (7 * i) (.ofNat 64 acc) bs).run =
      some ((decodeSignedFrom bits i acc bs).map fun (v, n) => (BitVec.ofInt 64 v, n)) := by
  induction bs generalizing i acc with
  | nil => rfl
  | cons b bs ih =>
    rw [signedFrom, decodeSignedFrom]
    by_cases long : maxBytes bits ≤ i
    · rw [accept, if_pos long, if_pos long, throw_bind]
      rfl
    have room : i < maxBytes bits := Nat.not_le.1 long
    have inside := shift_lt most room
    have size : UInt32.size = 4294967296 := rfl
    rw [if_neg long, accept_eq room (checkSigned_eq room · b)]
    by_cases large : i + 1 = maxBytes bits ∧ ¬ signFits (bits - 7 * i) (payload b) = true
    · rw [if_pos large, if_pos large, throw_bind]
      rfl
    rw [if_neg large, if_neg large, pure_bind, shiftLeft_eq inside, lift_bind, add_eq (by omega), lift_bind,
      add_eq (by omega), lift_bind, or_shiftLeft_low below]
    have value := add_payload_lt below b
    by_cases more : continues b = true
    · have next : ¬ b &&& 0x80 = 0 := fun last => by
        rw [(last_iff b).1 last] at more
        cases more
      rw [if_neg next]
      dsimp only
      rw [if_pos more]
      exact ih value
    · rw [if_pos ((last_iff b).2 (Bool.eq_false_iff.2 more)), ← Nat.mul_succ, extend_eq _ b value, lift_bind]
      dsimp only
      rw [if_neg more, Nat.one_shiftLeft]
      split_ifs <;> rfl

/-- A loop on words overflows nowhere, and its word stands for what a decoder gives. -/
def Carries {w : Nat} {α : Type} (number : BitVec w → α) (loop : Checked (BitVec w × Nat))
    (given : Except Error (α × Nat)) : Prop :=
  ∃ words : Except Error (BitVec w × Nat), loop.run = some words ∧
    words.map (fun (word, taken) => (number word, taken)) = given

/-- The lower bits of the word are enough, since the number has their width. -/
theorem carries_of_loop {α : Type} {loop : Checked (BitVec 64 × Nat)} {given : Except Error (α × Nat)}
    {word : α → BitVec 64} {number : BitVec bits → α}
    (runs : loop.run = some (given.map fun (a, n) => (word a, n)))
    (lower : ∀ a n, given = .ok (a, n) → number ((word a).setWidth bits) = a) :
    Carries number (do let (word, n) ← loop; return (word.setWidth bits, n)) given := by
  have runs : loop = ExceptT.mk (some (given.map fun (a, n) => (word a, n))) := runs
  subst runs
  cases given with
  | error e => exact ⟨.error e, rfl, rfl⟩
  | ok r =>
    obtain ⟨a, n⟩ := r
    exact ⟨.ok ((word a).setWidth bits, n), rfl, congrArg (fun a => Except.ok (a, n)) (lower a n rfl)⟩

/-- The unsigned loop on words is the decoder of unsigned numbers. -/
theorem unsigned_carries (most : bits ≤ 64) (bs : List UInt8) :
    Carries BitVec.toNat (unsigned bits bs) (decodeUnsigned bits bs) := by
  have runs : (unsignedFrom bits 0 (7 * 0) (.ofNat 64 0) bs).run = _ := unsignedFrom_eq most Nat.one_pos bs
  refine carries_of_loop runs fun v n reads => ?_
  have fits : v < 2 ^ bits := (decodeUnsigned_eq_ok_iff.1 reads).2.2.2
  rw [BitVec.setWidth_ofNat_of_le most, BitVec.toNat_ofNat, Nat.mod_eq_of_lt fits]

/-- The signed loop on words is the decoder of signed numbers. -/
theorem signed_carries (some_ : 0 < bits) (most : bits ≤ 64) (bs : List UInt8) :
    Carries BitVec.toInt (signed bits bs) (decodeSigned bits bs) := by
  have runs : (signedFrom bits 0 (7 * 0) (.ofNat 64 0) bs).run = _ := signedFrom_eq most Nat.one_pos bs
  refine carries_of_loop runs fun v n reads => ?_
  obtain ⟨lower, upper⟩ : Fits (bits - 1) v := ((decodeSigned_eq_ok_iff some_).1 reads).2.2.2
  have narrow : (BitVec.ofInt 64 v).setWidth bits = BitVec.ofInt bits v := by
    have divides : (2 ^ bits : Int) ∣ 2 ^ 64 := pow_dvd_pow 2 most
    have kept : 0 ≤ v % (2 ^ 64 : Nat) := Int.emod_nonneg v (by decide)
    have rest : 0 ≤ v % (2 ^ bits : Nat) := Int.emod_nonneg v (by positivity)
    refine BitVec.eq_of_toNat_eq (Int.ofNat_inj.1 ?_)
    rw [BitVec.toNat_setWidth, BitVec.toNat_ofInt, BitVec.toNat_ofInt, Int.natCast_emod,
      Int.toNat_of_nonneg kept, Int.toNat_of_nonneg rest]
    exact Int.emod_emod_of_dvd v (by exact_mod_cast divides)
  rw [narrow]
  exact BitVec.toInt_ofInt_eq_self some_ (by exact_mod_cast lower) (by exact_mod_cast upper)

end Loops

end WasmEngine.Leb128.Registers

namespace WasmEngine.Leb128

/-- **Exactly the numbers in range are accepted.**  A decoder of 32 or 64 bits gives a number and a count of
bytes just if the bytes are no more than the width has groups, they are a whole number, and what they
denote lies in the range of the width.  Of every number there is a spelling in each count of bytes from the
shortest one to that limit.  On a 64-bit word no step of the decoders overflows. -/
theorem decodes_iff_denotes {bits : Nat} (width : bits = 32 ∨ bits = 64) (bs : List UInt8) :
    (∀ v n, decodeUnsigned bits bs = .ok (v, n) ↔
      n ≤ (bits + 6) / 7 ∧ Whole bs n ∧ v = groups (bs.take n) ∧ v < 2 ^ bits) ∧
    (∀ v n, decodeSigned bits bs = .ok (v, n) ↔
      n ≤ (bits + 6) / 7 ∧ Whole bs n ∧ v = signedGroups (bs.take n) ∧
        -2 ^ (bits - 1) ≤ v ∧ v < 2 ^ (bits - 1)) ∧
    (∀ v n, v < 2 ^ bits → (encodeUnsigned v).length ≤ n → n ≤ (bits + 6) / 7 →
      ∃ longer : List UInt8, longer.length = n ∧ decodeUnsigned bits longer = .ok (v, n)) ∧
    (∀ v n, -2 ^ (bits - 1) ≤ v → v < 2 ^ (bits - 1) → (encodeSigned v).length ≤ n → n ≤ (bits + 6) / 7 →
      ∃ longer : List UInt8, longer.length = n ∧ decodeSigned bits longer = .ok (v, n)) ∧
    Registers.Carries BitVec.toNat (Registers.unsigned bits bs) (decodeUnsigned bits bs) ∧
    Registers.Carries BitVec.toInt (Registers.signed bits bs) (decodeSigned bits bs) := by
  have some_ : 0 < bits := by omega
  have most : bits ≤ 64 := by omega
  have fits_iff (v : Int) : Fits (bits - 1) v ↔ -2 ^ (bits - 1) ≤ v ∧ v < 2 ^ (bits - 1) := by
    rw [Fits]
    norm_cast
  refine ⟨fun v n => decodeUnsigned_eq_ok_iff, fun v n => ?_, fun v n fits enough within => ?_,
    fun v n lower upper enough within => ?_, Registers.unsigned_carries most bs,
    Registers.signed_carries some_ most bs⟩
  · rw [← fits_iff]
    exact decodeSigned_eq_ok_iff some_
  · have first := length_encodeUnsigned_pos v
    have groups : v < 2 ^ (7 * n) :=
      (lt_of_length_encodeUnsigned v).trans_le (Nat.pow_le_pow_right (by decide) (by omega))
    obtain ⟨k, rfl⟩ : ∃ k, n = k + 1 := ⟨n - 1, by omega⟩
    exact ⟨spelling k v, length_spelling k v, decodeUnsigned_spelling within fits groups⟩
  · have first := length_encodeSigned_pos v
    have groups : Fits (7 * n - 1) v := (fits_of_length_encodeSigned v).mono (by omega)
    obtain ⟨k, rfl⟩ : ∃ k, n = k + 1 := ⟨n - 1, by omega⟩
    exact ⟨_, length_spelling k _,
      decodeSigned_spelling some_ within ((fits_iff v).2 ⟨lower, upper⟩) groups⟩

/-- A two-byte spelling of a small number before another byte. -/
theorem decodes_padded :
    (32 = 32 ∨ 32 = 64) ∧ decodeUnsigned 32 [0x85, 0x00, 0x07] = .ok (5, 2) ∧
      ∃ longer : List UInt8, longer.length = 5 ∧ decodeSigned 32 longer = .ok (-1, 5) := by
  have width : 32 = 32 ∨ 32 = 64 := .inl rfl
  obtain ⟨unsigned, -, -, signed, -⟩ := decodes_iff_denotes width [0x85, 0x00, 0x07]
  refine ⟨width, (unsigned 5 2).2 ⟨by decide, ⟨by decide, fun i below => ?_, 0, rfl, by decide⟩, rfl,
    by decide⟩, signed (-1) 5 (by decide) (by decide) ?_ (by decide)⟩
  · obtain rfl : i = 0 := by omega
    exact ⟨0x85, rfl, by decide⟩
  · exact length_encodeSigned_le ⟨by decide, by decide⟩ (by decide)

end WasmEngine.Leb128
