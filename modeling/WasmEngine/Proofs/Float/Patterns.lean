import Mathlib.Algebra.Ring.Nat
import Mathlib.Data.Nat.Log
import WasmEngine.Wat.Number

/-!
# Patterns that are read from texts

Every float literal is read as a pattern that fits the width of its format (`parseFloat?_lt`).
-/

namespace WasmEngine

namespace FloatFormat

variable {f : FloatFormat}

/-- A format has at least one bit in each of its fields. -/
structure Proper (f : FloatFormat) : Prop where
  exponent : 1 ≤ f.exponentBits
  fraction : 1 ≤ f.fractionBits

theorem proper_binary32 : binary32.Proper := ⟨by decide, by decide⟩

theorem proper_binary64 : binary64.Proper := ⟨by decide, by decide⟩

/-- The hidden bit is the lowest one above the fraction. -/
theorem hidden_eq (f : FloatFormat) : f.hidden = 2 ^ f.fractionBits := Nat.one_shiftLeft _

theorem hidden_pos (f : FloatFormat) : 0 < f.hidden := by
  rw [hidden_eq]
  exact Nat.two_pow_pos _

/-- The sign bit is the lowest one above the exponent field. -/
theorem signBit_eq (f : FloatFormat) : f.signBit = (f.topField + 1) * f.hidden := by
  have some_ := Nat.two_pow_pos f.exponentBits
  rw [signBit, topField, hidden, Nat.one_shiftLeft, Nat.one_shiftLeft, Nat.one_shiftLeft, Nat.pow_add,
    Nat.sub_add_cancel some_]

/-- Infinity and the NaNs above it lie below the sign bit. -/
theorem infinity_add_lt {n : Nat} (small : n < f.hidden) : f.infinity + n < f.signBit := by
  rw [signBit_eq, infinity, Nat.add_mul, Nat.one_mul]
  exact Nat.add_lt_add_left small _

theorem infinity_lt : f.infinity < f.signBit := infinity_add_lt f.hidden_pos

/-- A pattern with its sign takes no more bits than its format has. -/
theorem withSign_lt (negative : Bool) {magnitude : Nat} (small : magnitude < f.signBit) :
    f.withSign negative magnitude < 2 ^ f.width := by
  have whole : 2 ^ f.width = f.signBit + f.signBit := by
    rw [width, signBit, Nat.one_shiftLeft, Nat.add_assoc, Nat.add_comm, Nat.pow_succ, Nat.mul_two]
  rw [whole, withSign]
  split
  · exact Nat.add_lt_add_left small _
  · exact Nat.lt_add_left _ small

/-- Rounding reaches infinity at most. -/
theorem roundMagnitude_lt (m : Nat) (e : Int) (inexact : Bool) :
    f.roundMagnitude m e inexact < f.signBit := by
  rw [roundMagnitude]
  split
  · exact Nat.lt_of_le_of_lt (Nat.zero_le _) infinity_lt
  · exact Nat.lt_of_le_of_lt (Nat.min_le_left _ _) infinity_lt

/-- A number that was rounded fits its format. -/
theorem round_lt (negative : Bool) (m : Nat) (e : Int) (inexact : Bool) :
    f.round negative m e inexact < 2 ^ f.width := withSign_lt negative (roundMagnitude_lt ..)

/-- The quiet NaN lies below the sign bit. -/
theorem quietNan_lt (proper : f.Proper) : f.quietNan < f.signBit := by
  refine infinity_add_lt ?_
  rw [quietBit, hidden_eq, Nat.one_shiftLeft]
  exact Nat.pow_lt_pow_right (by decide) (Nat.sub_lt proper.fraction (by decide))

/-! ## Decimal spellings -/

/-- A decimal literal is rounded to a bit pattern of the format. -/
theorem ofDecimal_lt (negative : Bool) (digits : Nat) (exponent : Int) :
    f.ofDecimal negative digits exponent < 2 ^ f.width := by
  have zero : f.withSign negative 0 < 2 ^ f.width :=
    withSign_lt negative (Nat.lt_of_le_of_lt (Nat.zero_le _) infinity_lt)
  unfold ofDecimal
  split
  · exact zero
  · dsimp only
    split
    · exact withSign_lt negative infinity_lt
    · split
      · exact zero
      · split
        · exact round_lt ..
        · exact round_lt ..

/-! ## Hexadecimal spellings -/

/-- Rounding to some bits gives no more than one bit beyond. -/
theorem roundShift_le {m shift precision : Nat} (small : m < 2 ^ (precision + shift)) (inexact : Bool) :
    roundShift m shift inexact ≤ 2 ^ precision := by
  have quotient : m / 2 ^ shift < 2 ^ precision := by
    rw [Nat.div_lt_iff_lt_mul (Nat.two_pow_pos shift), ← Nat.pow_add]
    exact small
  unfold roundShift
  simp only [Nat.one_shiftLeft]
  split
  · exact quotient
  · exact Nat.le_of_lt quotient

/-- Rounded digits have as many bits as asked for; a carry leaves the leading one. -/
theorem roundDigits_eq (h : HexDigits) (precision : Nat) :
    (∃ rounded < 2 ^ precision, roundDigits h precision = (rounded, false)) ∨
      roundDigits h precision = (2 ^ (precision - 1), true) := by
  have size : h.significand < 2 ^ (h.significand.log2 + 1) := Nat.lt_log2_self
  by_cases fits : h.significand.log2 + 1 ≤ precision
  · refine .inl ⟨_, ?_, by rw [roundDigits, if_pos fits]⟩
    rw [Nat.shiftLeft_eq]
    calc h.significand * 2 ^ (precision - (h.significand.log2 + 1))
        < 2 ^ (h.significand.log2 + 1) * 2 ^ (precision - (h.significand.log2 + 1)) :=
          Nat.mul_lt_mul_of_pos_right size (Nat.two_pow_pos _)
      _ = 2 ^ precision := by rw [← Nat.pow_add, Nat.add_sub_cancel' fits]
  · have parts : precision + (h.significand.log2 + 1 - precision) = h.significand.log2 + 1 := by omega
    have rounded : roundShift h.significand (h.significand.log2 + 1 - precision) h.sticky ≤
        2 ^ precision := roundShift_le (by rwa [parts]) h.sticky
    by_cases carries : roundShift h.significand (h.significand.log2 + 1 - precision) h.sticky =
        1 <<< precision
    · exact .inr (by rw [roundDigits, if_neg fits, if_pos carries, Nat.one_shiftLeft])
    · refine .inl ⟨_, ?_, by rw [roundDigits, if_neg fits, if_neg carries]⟩
      rw [Nat.one_shiftLeft] at carries
      exact Nat.lt_of_le_of_ne rounded carries

/-- The largest exponent field is that of infinity, twice the bias and one. -/
theorem topField_eq (proper : f.Proper) : f.topField = 2 * f.bias + 1 := by
  have some_ := Nat.two_pow_pos (f.exponentBits - 1)
  have double : 2 ^ f.exponentBits = 2 * 2 ^ (f.exponentBits - 1) := by
    conv_lhs => rw [← Nat.sub_add_cancel proper.exponent]
    exact Nat.pow_succ'
  rw [topField, bias, Nat.one_shiftLeft, Nat.one_shiftLeft, double]
  omega

/-- A number whose exponent is not too great lies below infinity. -/
theorem normal_lt (proper : f.Proper) {field fraction : Nat} (small : field ≤ 2 * f.bias)
    (within : fraction < f.hidden) : field * f.hidden + fraction < f.signBit := by
  refine Nat.lt_trans ?_ infinity_lt
  rw [infinity, topField_eq proper, Nat.add_mul, Nat.one_mul]
  exact Nat.add_lt_add_of_le_of_lt (Nat.mul_le_mul_right _ small) within

/-- A number of few bits has no exponent. -/
theorem subnormal_lt (proper : f.Proper) (precision : Nat) {magnitude : Nat}
    (small : magnitude ≤ 2 ^ precision) (few : precision ≤ f.fractionBits) :
    magnitude < f.signBit := by
  have unit : magnitude ≤ f.hidden := by
    rw [hidden_eq]
    exact Nat.le_trans small (Nat.pow_le_pow_right (by decide) few)
  refine Nat.lt_of_le_of_lt unit (Nat.lt_of_le_of_lt ?_ infinity_lt)
  rw [infinity, topField_eq proper]
  exact Nat.le_mul_of_pos_left _ (Nat.succ_pos _)

/-- The magnitude that digits and an exponent stand for stays below the sign bit. -/
theorem ofHexDigits_lt (proper : f.Proper) (h : HexDigits) (exponent : Int) :
    f.ofHexDigits h exponent < f.signBit := by
  have least : f.minExponent = f.minNormal - f.fractionBits := rfl
  have normal : f.minNormal = 1 - (f.bias : Int) := rfl
  have least_lt (bit : Nat) (small : bit ≤ 1) : bit < f.signBit :=
    subnormal_lt proper 0 small (Nat.zero_le _)
  unfold ofHexDigits
  generalize exponent + h.overflow + h.significand.log2 = top
  dsimp only
  split
  · exact least_lt 0 (by decide)
  split
  · exact least_lt 0 (by decide)
  split
  · split
    · exact least_lt 0 (by decide)
    · exact least_lt 1 (by decide)
  by_cases isNormal : f.minNormal ≤ top
  · simp only [if_pos isNormal]
    have regular (top' : Int) (rounded : Nat) (after : f.minNormal ≤ top') :
        (if (f.bias : Int) < top' then f.infinity
          else (top' + f.bias).toNat * f.hidden + rounded % f.hidden) < f.signBit := by
      split
      · exact infinity_lt
      · exact normal_lt proper (by omega) (Nat.mod_lt _ f.hidden_pos)
    obtain ⟨rounded, -, same⟩ | same := roundDigits_eq h (f.fractionBits + 1)
    · simp only [same, Bool.false_eq_true, if_false, if_pos isNormal]
      exact regular top rounded isNormal
    · have after : f.minNormal ≤ top + 1 := by omega
      simp only [same, if_true, if_pos after]
      exact regular (top + 1) _ after
  · simp only [if_neg isNormal]
    have few : (top - f.minExponent + 1).toNat ≤ f.fractionBits := by omega
    obtain ⟨rounded, small, same⟩ | same := roundDigits_eq h (top - f.minExponent + 1).toNat
    · simp only [same, Bool.false_eq_true, if_false]
      split
      · exact infinity_lt
      · exact subnormal_lt proper _ (Nat.le_of_lt small) few
    · simp only [same, if_true]
      split
      · exact infinity_lt
      · split
        · exact normal_lt proper (by omega) (Nat.mod_lt _ f.hidden_pos)
        · refine subnormal_lt proper (top - f.minExponent + 1).toNat ?_ few
          rw [← Nat.pow_succ, Nat.succ_eq_add_one, Nat.sub_add_cancel (by omega)]

/-- A magnitude that is read from a hexadecimal spelling stays below the sign bit.  Of the library that reads these
spellings nothing else is assumed anywhere. -/
theorem readHex?_lt (proper : f.Proper) {cs : List Char} {magnitude : Nat}
    (read : f.readHex? cs = some magnitude) : magnitude < f.signBit := by
  unfold readHex? at read
  dsimp only at read
  split at read
  · cases read
  · split at read
    · cases read
    · obtain ⟨h, -, rfl⟩ := Option.map_eq_some_iff.1 read
      exact ofHexDigits_lt proper h _

end FloatFormat

namespace Wat

open FloatFormat

/-- Every float that is read fits its format. -/
theorem parseFloat?_lt {f : FloatFormat} (proper : f.Proper) {s : String} {bits : Nat}
    (read : parseFloat? f s = some bits) : bits < 2 ^ f.width := by
  unfold parseFloat? at read
  dsimp only at read
  split at read
  · cases read
    exact withSign_lt _ infinity_lt
  · cases read
    exact withSign_lt _ (quietNan_lt proper)
  · split at read
    · cases read
    · next n payload =>
      cases read
      obtain ⟨-, small⟩ := Option.filter_eq_some_iff.1 payload
      exact withSign_lt _ (infinity_add_lt (of_decide_eq_true small))
    · cases read
  · cases read
    refine withSign_lt _ ?_
    cases magnitude : f.readHex? _ with
    | none => exact Nat.lt_of_le_of_lt (Nat.zero_le _) infinity_lt
    | some m => exact readHex?_lt proper magnitude
  · cases read
    exact ofDecimal_lt ..

end Wat

end WasmEngine
