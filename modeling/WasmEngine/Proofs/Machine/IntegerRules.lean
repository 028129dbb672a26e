import Mathlib.Data.Finset.Card
import Mathlib.Data.Int.ModEq
import WasmEngine.Machine.Integer

/-!
# The rules of the integer operators

What each operator gives is said in terms of the integers that words stand for, with a sign or without, and
of their bits.  What is computed agrees with the rules (`IntOperator.Rule.of_unary`,
`IntOperator.Rule.of_binary`, `IntOperator.Rule.of_compare`), and no other result does
(`IntOperator.Rule.unique`).
-/

namespace WasmEngine

/-- An operator on integers: the test for zero, one of one operand, one of two or a comparison. -/
inductive IntOperator where
  | eqz
  | unary (op : IntUnary)
  | binary (op : IntBinary)
  | compare (op : IntCompare)
  deriving DecidableEq, Repr

/-- What an operator gives on words of a width. -/
inductive IntResult (w : Nat) where
  | word (r : BitVec w)
  | truth (holds : Bool)
  | trap (kind : Trap)

/-- A run of `n` clear bits goes on up to the width, or to a bit that is set. -/
structure ClearRun (bit : Nat → Bool) (w n : Nat) : Prop where
  clear : ∀ i < n, bit i = false
  stops : n = w ∨ n < w ∧ bit n = true

/-- **The rules of the integer operators.**  Sums, differences and products are exact modulo the number of
words.  Quotients are cut towards zero, and remainders have the sign of the dividend.  A count of
places is taken modulo the width. -/
inductive IntOperator.Rule {w : Nat} : IntOperator → List (BitVec w) → IntResult w → Prop
  | eqz {a : BitVec w} : Rule .eqz [a] (.truth (a.toNat = 0))
  | clz {a r : BitVec w} (run : ClearRun a.getMsbD w r.toNat) : Rule (.unary .clz) [a] (.word r)
  | ctz {a r : BitVec w} (run : ClearRun a.getLsbD w r.toNat) : Rule (.unary .ctz) [a] (.word r)
  | popcnt {a r : BitVec w} (count : r.toNat = ((Finset.range w).filter fun i => a.getLsbD i).card) :
      Rule (.unary .popcnt) [a] (.word r)
  | add {a b r : BitVec w} (sum : r.toInt ≡ a.toInt + b.toInt [ZMOD 2 ^ w]) :
      Rule (.binary .add) [a, b] (.word r)
  | sub {a b r : BitVec w} (difference : r.toInt ≡ a.toInt - b.toInt [ZMOD 2 ^ w]) :
      Rule (.binary .sub) [a, b] (.word r)
  | mul {a b r : BitVec w} (product : r.toInt ≡ a.toInt * b.toInt [ZMOD 2 ^ w]) :
      Rule (.binary .mul) [a, b] (.word r)
  | divS {a b r : BitVec w} (nonzero : b.toInt ≠ 0) (inside : ¬ (a.toInt = -2 ^ (w - 1) ∧ b.toInt = -1))
      (quotient : r.toInt = a.toInt.tdiv b.toInt) : Rule (.binary .divS) [a, b] (.word r)
  | divS_zero {a b : BitVec w} (zero : b.toInt = 0) : Rule (.binary .divS) [a, b] (.trap .divideByZero)
  | divS_overflow {a b : BitVec w} (least : a.toInt = -2 ^ (w - 1)) (minusOne : b.toInt = -1) :
      Rule (.binary .divS) [a, b] (.trap .integerOverflow)
  | divU {a b r : BitVec w} (nonzero : b.toNat ≠ 0) (quotient : r.toNat = a.toNat / b.toNat) :
      Rule (.binary .divU) [a, b] (.word r)
  | divU_zero {a b : BitVec w} (zero : b.toNat = 0) : Rule (.binary .divU) [a, b] (.trap .divideByZero)
  | remS {a b r : BitVec w} (nonzero : b.toInt ≠ 0) (remainder : r.toInt = a.toInt.tmod b.toInt) :
      Rule (.binary .remS) [a, b] (.word r)
  | remS_zero {a b : BitVec w} (zero : b.toInt = 0) : Rule (.binary .remS) [a, b] (.trap .divideByZero)
  | remU {a b r : BitVec w} (nonzero : b.toNat ≠ 0) (remainder : r.toNat = a.toNat % b.toNat) :
      Rule (.binary .remU) [a, b] (.word r)
  | remU_zero {a b : BitVec w} (zero : b.toNat = 0) : Rule (.binary .remU) [a, b] (.trap .divideByZero)
  | and {a b r : BitVec w} (bits : ∀ i < w, r.getLsbD i = (a.getLsbD i && b.getLsbD i)) :
      Rule (.binary .and) [a, b] (.word r)
  | or {a b r : BitVec w} (bits : ∀ i < w, r.getLsbD i = (a.getLsbD i || b.getLsbD i)) :
      Rule (.binary .or) [a, b] (.word r)
  | xor {a b r : BitVec w} (bits : ∀ i < w, r.getLsbD i = (a.getLsbD i ^^ b.getLsbD i)) :
      Rule (.binary .xor) [a, b] (.word r)
  | shl {a b r : BitVec w} (moved : r.toNat = a.toNat * 2 ^ (b.toNat % w) % 2 ^ w) :
      Rule (.binary .shl) [a, b] (.word r)
  | shrS {a b r : BitVec w} (moved : r.toInt = a.toInt / 2 ^ (b.toNat % w)) :
      Rule (.binary .shrS) [a, b] (.word r)
  | shrU {a b r : BitVec w} (moved : r.toNat = a.toNat / 2 ^ (b.toNat % w)) :
      Rule (.binary .shrU) [a, b] (.word r)
  | rotl {a b r : BitVec w} (turned : ∀ i < w, r.getLsbD ((i + b.toNat) % w) = a.getLsbD i) :
      Rule (.binary .rotl) [a, b] (.word r)
  | rotr {a b r : BitVec w} (turned : ∀ i < w, r.getLsbD i = a.getLsbD ((i + b.toNat) % w)) :
      Rule (.binary .rotr) [a, b] (.word r)
  | eq {a b : BitVec w} : Rule (.compare .eq) [a, b] (.truth (a.toInt = b.toInt))
  | ne {a b : BitVec w} : Rule (.compare .ne) [a, b] (.truth (a.toInt ≠ b.toInt))
  | ltS {a b : BitVec w} : Rule (.compare .ltS) [a, b] (.truth (a.toInt < b.toInt))
  | ltU {a b : BitVec w} : Rule (.compare .ltU) [a, b] (.truth (a.toNat < b.toNat))
  | gtS {a b : BitVec w} : Rule (.compare .gtS) [a, b] (.truth (a.toInt > b.toInt))
  | gtU {a b : BitVec w} : Rule (.compare .gtU) [a, b] (.truth (a.toNat > b.toNat))
  | leS {a b : BitVec w} : Rule (.compare .leS) [a, b] (.truth (a.toInt ≤ b.toInt))
  | leU {a b : BitVec w} : Rule (.compare .leU) [a, b] (.truth (a.toNat ≤ b.toNat))
  | geS {a b : BitVec w} : Rule (.compare .geS) [a, b] (.truth (a.toInt ≥ b.toInt))
  | geU {a b : BitVec w} : Rule (.compare .geU) [a, b] (.truth (a.toNat ≥ b.toNat))

section Counts

variable {bit : Nat → Bool} {w m n : Nat}

/-- A run of clear bits is within the word. -/
theorem ClearRun.le (run : ClearRun bit w n) : n ≤ w := by
  obtain whole | ⟨short, -⟩ := run.stops
  · exact whole.le
  · exact short.le

/-- A run of clear bits is not shorter than another. -/
theorem ClearRun.not_lt (first : ClearRun bit w m) (second : ClearRun bit w n) : ¬ m < n := by
  intro shorter
  have clear := second.clear m shorter
  obtain rfl | ⟨-, set⟩ := first.stops
  · exact absurd second.le (Nat.not_le.2 shorter)
  · rw [clear] at set
    cases set

/-- The length of a run of clear bits is determined. -/
theorem ClearRun.unique (first : ClearRun bit w m) (second : ClearRun bit w n) : m = n :=
  Nat.le_antisymm (Nat.not_lt.1 (second.not_lt first)) (Nat.not_lt.1 (first.not_lt second))

/-- The clear bits before the first set one are a run. -/
theorem clearRun_takeWhile (bit : Nat → Bool) (w : Nat) :
    ClearRun bit w ((List.range w).takeWhile fun i => !bit i).length := by
  have most : (List.range w).findIdx bit ≤ w := List.findIdx_le_length.trans_eq List.length_range
  have first : ((List.range w).takeWhile fun i => !bit i).length = (List.range w).findIdx bit := by
    rw [List.takeWhile_eq_take_findIdx_not, List.length_take_of_le List.findIdx_le_length]
    simp only [Bool.not_not]
  rw [first]
  refine ⟨fun i below => ?_, most.eq_or_lt.imp_right fun short => ⟨short, ?_⟩⟩
  · simpa using List.not_of_lt_findIdx below
  · have inside : (List.range w).findIdx bit < (List.range w).length := by rwa [List.length_range]
    simpa using List.findIdx_getElem (w := inside)

/-- Set bits are counted as the cardinality of a set of positions. -/
theorem setBits_eq_card (a : BitVec w) :
    IntUnary.setBits a = ((Finset.range w).filter fun i => a.getLsbD i).card := by
  rw [IntUnary.setBits, List.countP_eq_length_filter]
  simp [Finset.card, Multiset.range]

/-- A count of bits is a word. -/
theorem toNat_ofNat_of_le (most : n ≤ w) : (BitVec.ofNat w n).toNat = n := by
  rw [BitVec.toNat_ofNat, Nat.mod_eq_of_lt (most.trans_lt Nat.lt_two_pow_self)]

end Counts

namespace IntOperator.Rule

variable {w : Nat} (a b : BitVec w)

/-- The unary operators keep their rule. -/
theorem of_unary (op : IntUnary) : Rule (.unary op) [a] (.word (op.apply a)) := by
  cases op with
  | clz =>
    have run : ClearRun a.getMsbD w (IntUnary.leadingZeros a) := clearRun_takeWhile a.getMsbD w
    exact clz (by rwa [IntUnary.apply, toNat_ofNat_of_le run.le])
  | ctz =>
    have run : ClearRun a.getLsbD w (IntUnary.trailingZeros a) := clearRun_takeWhile a.getLsbD w
    exact ctz (by rwa [IntUnary.apply, toNat_ofNat_of_le run.le])
  | popcnt =>
    have most : IntUnary.setBits a ≤ w := List.countP_le_length.trans_eq List.length_range
    exact popcnt (by rw [IntUnary.apply, toNat_ofNat_of_le most, setBits_eq_card])

/-- The comparisons keep their rule. -/
theorem of_compare (op : IntCompare) : Rule (.compare op) [a, b] (.truth (op.apply a b)) := by
  have signed : (a == b) = decide (a.toInt = b.toInt) := by
    rw [Bool.eq_iff_iff, beq_iff_eq, decide_eq_true_iff, BitVec.toInt_inj]
  cases op with
  | eq =>
    rw [IntCompare.apply, signed]
    exact eq
  | ne =>
    have other : (a != b) = decide (a.toInt ≠ b.toInt) := by rw [bne, signed, decide_not]
    rw [IntCompare.apply, other]
    exact ne
  | ltS => exact ltS
  | ltU => exact ltU
  | gtS => exact gtS
  | gtU => exact gtU
  | leS => exact leS
  | leU => exact leU
  | geS => exact geS
  | geU => exact geU

end IntOperator.Rule

/-! ## Arithmetic -/

/-- The integer that a word stands for, modulo the number of words. -/
theorem bmod_modEq (x : Int) (w : Nat) : Int.bmod x (2 ^ w) ≡ x [ZMOD 2 ^ w] := by
  have same := Int.bmod_emod (x := x) (m := 2 ^ w)
  rw [Nat.cast_pow] at same
  exact same

section Turns

variable {w i : Nat}

/-- The place of a bit after a turn. -/
theorem add_mod_eq_ite (count : Nat) (inside : i < w) :
    (i + count) % w = if i + count % w < w then i + count % w else i + count % w - w := by
  have small : count % w < w := Nat.mod_lt count (Nat.zero_lt_of_lt inside)
  rw [← Nat.add_mod_mod]
  split_ifs with short
  · exact Nat.mod_eq_of_lt short
  · rw [Nat.mod_eq_sub_mod (by omega), Nat.mod_eq_of_lt (by omega)]

/-- Rotating left moves bit `i` to `i + count`, around the word. -/
theorem getLsbD_rotateLeft_add (a : BitVec w) (count : Nat) (inside : i < w) :
    (a.rotateLeft (count % w)).getLsbD ((i + count) % w) = a.getLsbD i := by
  have small : count % w < w := Nat.mod_lt count (Nat.zero_lt_of_lt inside)
  rw [BitVec.getLsbD_rotateLeft, Nat.mod_mod, add_mod_eq_ite count inside]
  generalize count % w = k at small
  split_ifs with short
  · rw [decide_eq_false (by omega), decide_eq_true short, Nat.add_sub_cancel]
    rfl
  · rw [decide_eq_true (by omega), show w - k + (i + k - w) = i by omega]
    rfl

/-- Rotating right moves bit `i + count` to `i`, around the word. -/
theorem getLsbD_rotateRight_of_lt (a : BitVec w) (count : Nat) (inside : i < w) :
    (a.rotateRight (count % w)).getLsbD i = a.getLsbD ((i + count) % w) := by
  have small : count % w < w := Nat.mod_lt count (Nat.zero_lt_of_lt inside)
  rw [BitVec.getLsbD_rotateRight, Nat.mod_mod, add_mod_eq_ite count inside]
  generalize count % w = k at small
  split_ifs with short
  · rw [decide_eq_true (by omega), Nat.add_comm]
    rfl
  · rw [decide_eq_false (by omega), decide_eq_true inside, show i - (w - k) = i + k - w by omega]
    rfl

end Turns

/-- The result of an operator that may trap. -/
def IntResult.ofExcept {w : Nat} : Except Trap (BitVec w) → IntResult w
  | .ok r => .word r
  | .error kind => .trap kind

namespace IntOperator.Rule

/-- The binary operators keep their rule. -/
theorem of_binary {w : Nat} (some_ : 0 < w) (a b : BitVec w) (op : IntBinary) :
    Rule (.binary op) [a, b] (.ofExcept (op.apply a b)) := by
  have zero : b = 0#w ↔ b.toInt = 0 := by rw [← BitVec.toInt_inj, BitVec.toInt_zero]
  have zero' : b = 0#w ↔ b.toNat = 0 := by rw [← BitVec.toNat_inj, BitVec.toNat_zero]
  have least : a = .intMin w ↔ a.toInt = -2 ^ (w - 1) := by
    rw [← BitVec.toInt_inj, BitVec.toInt_intMin_of_pos some_]
  have minusOne : b = .allOnes w ↔ b.toInt = -1 := by
    rw [← BitVec.toInt_inj, BitVec.toInt_allOnes, if_pos some_]
  cases op with
  | add => exact add (by rw [BitVec.toInt_add]; exact bmod_modEq _ w)
  | sub => exact sub (by rw [BitVec.toInt_sub]; exact bmod_modEq _ w)
  | mul => exact mul (by rw [BitVec.toInt_mul]; exact bmod_modEq _ w)
  | divS =>
    rw [IntBinary.apply]
    split_ifs with none_ overflow
    · exact divS_zero (zero.1 none_)
    · exact divS_overflow (least.1 overflow.1) (minusOne.1 overflow.2)
    · refine divS (mt zero.2 none_) ?_ (BitVec.toInt_sdiv_of_ne_or_ne a b ?_)
      · rwa [← least, ← minusOne]
      · rwa [BitVec.neg_one_eq_allOnes, ← not_and_or]
  | divU =>
    rw [IntBinary.apply]
    split_ifs with none_
    · exact divU_zero (zero'.1 none_)
    · exact divU (mt zero'.2 none_) BitVec.toNat_udiv
  | remS =>
    rw [IntBinary.apply]
    split_ifs with none_
    · exact remS_zero (zero.1 none_)
    · exact remS (mt zero.2 none_) (BitVec.toInt_srem a b)
  | remU =>
    rw [IntBinary.apply]
    split_ifs with none_
    · exact remU_zero (zero'.1 none_)
    · exact remU (mt zero'.2 none_) BitVec.toNat_umod
  | and => exact and fun i _ => BitVec.getLsbD_and
  | or => exact or fun i _ => BitVec.getLsbD_or
  | xor => exact xor fun i _ => BitVec.getLsbD_xor
  | shl => exact shl (by rw [BitVec.toNat_shiftLeft, Nat.shiftLeft_eq])
  | shrS => exact shrS (by rw [BitVec.toInt_sshiftRight, Int.shiftRight_eq_div_pow, Nat.cast_pow]; rfl)
  | shrU => exact shrU (by rw [BitVec.toNat_ushiftRight, Nat.shiftRight_eq_div_pow])
  | rotl => exact rotl fun i inside => getLsbD_rotateLeft_add a b.toNat inside
  | rotr => exact rotr fun i inside => getLsbD_rotateRight_of_lt a b.toNat inside

section Unique

variable {w : Nat} {r s : BitVec w}

/-- A word is determined by its signed value modulo `2 ^ w`. -/
theorem eq_of_modEq {x : Int} (first : r.toInt ≡ x [ZMOD 2 ^ w]) (second : s.toInt ≡ x [ZMOD 2 ^ w]) :
    r = s := by
  have same : r.toInt % (2 ^ w : Nat) = s.toInt % (2 ^ w : Nat) := by
    rw [Nat.cast_pow]
    exact first.trans second.symm
  refine BitVec.eq_of_toInt_eq ?_
  rw [← BitVec.toInt_bmod_cancel r, ← BitVec.toInt_bmod_cancel s, ← Int.emod_bmod, same, Int.emod_bmod]

/-- A word is determined by its bits. -/
theorem eq_of_bits {bit : Nat → Bool} (first : ∀ i < w, r.getLsbD i = bit i)
    (second : ∀ i < w, s.getLsbD i = bit i) : r = s :=
  BitVec.eq_of_getLsbD_eq fun i inside => (first i inside).trans (second i inside).symm

/-- Every place of a word is that of some bit after a turn. -/
theorem eq_of_turned {bit : Nat → Bool} {count : Nat}
    (first : ∀ i < w, r.getLsbD ((i + count) % w) = bit i)
    (second : ∀ i < w, s.getLsbD ((i + count) % w) = bit i) : r = s := by
  refine BitVec.eq_of_getLsbD_eq fun j inside => ?_
  have some_ : 0 < w := Nat.zero_lt_of_lt inside
  have small : count % w < w := Nat.mod_lt count some_
  have place : ((j + (w - count % w)) % w + count) % w = j := by
    rw [Nat.mod_add_mod, ← Nat.add_mod_mod, show j + (w - count % w) + count % w = j + w by omega,
      Nat.add_mod_right, Nat.mod_eq_of_lt inside]
  rw [← place, first _ (Nat.mod_lt _ some_), second _ (Nat.mod_lt _ some_)]

/-- Operands have one result that agrees with the rules. -/
theorem unique {op : IntOperator} {operands : List (BitVec w)} {r s : IntResult w}
    (first : op.Rule operands r) (second : op.Rule operands s) : r = s := by
  cases first <;> cases second
  -- one rule against itself: what it says of the word leaves no choice
  case clz.clz first _ second | ctz.ctz first _ second =>
    exact congrArg IntResult.word (BitVec.eq_of_toNat_eq (first.unique second))
  case add.add first _ second | sub.sub first _ second | mul.mul first _ second =>
    exact congrArg IntResult.word (eq_of_modEq first second)
  case popcnt.popcnt first _ second | divU.divU first _ _ second | remU.remU first _ _ second |
      shl.shl first _ second | shrU.shrU first _ second =>
    exact congrArg IntResult.word (BitVec.eq_of_toNat_eq (first.trans second.symm))
  case divS.divS first _ _ _ second | remS.remS first _ _ second | shrS.shrS first _ second =>
    exact congrArg IntResult.word (BitVec.eq_of_toInt_eq (first.trans second.symm))
  case and.and first _ second | or.or first _ second | xor.xor first _ second | rotr.rotr first _ second =>
    exact congrArg IntResult.word (eq_of_bits first second)
  case rotl.rotl first _ second => exact congrArg IntResult.word (eq_of_turned first second)
  -- a trap against a word, or against the other trap: the conditions exclude each other
  case divS.divS_zero nonzero _ _ zero | divU.divU_zero nonzero _ zero | remS.remS_zero nonzero _ zero |
      remU.remU_zero nonzero _ zero => exact absurd zero nonzero
  case divS_zero.divS zero _ nonzero _ _ | divU_zero.divU zero _ nonzero _ |
      remS_zero.remS zero _ nonzero _ | remU_zero.remU zero _ nonzero _ => exact absurd zero nonzero
  case divS.divS_overflow inside _ least minusOne => exact absurd ⟨least, minusOne⟩ inside
  case divS_overflow.divS least minusOne _ _ inside _ => exact absurd ⟨least, minusOne⟩ inside
  case divS_zero.divS_overflow zero _ minusOne => exact absurd (zero.symm.trans minusOne) (by decide)
  case divS_overflow.divS_zero minusOne zero => exact absurd (zero.symm.trans minusOne) (by decide)
  all_goals rfl

end Unique

end IntOperator.Rule

end WasmEngine
