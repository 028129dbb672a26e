import Mathlib.Data.Int.ModEq
import Mathlib.Data.Nat.Digits.Defs
import WasmEngine.Proofs.Float.Patterns
import WasmEngine.Proofs.Wat.NumberGrammar

/-!
# The values of literals

A number that is spelled without point and exponent is the sum of its digits, each with its weight
(`UnsignedInteger`, `IntegerLiteral`).  Literals are read at this value, at every width, and just if it fits
(`literals_read_exactly`).  The integer reader itself takes more spellings than the grammar has (`LooseInteger`):
it drops underscores wherever they stand, and takes a plus sign in front of the digits.
-/

namespace WasmEngine.Wat

/-! ## Values -/

/-- The number that digits spell, the last of them the units. -/
def positional (hex : Bool) (ds : List Char) : Nat := Nat.ofDigits (radix hex) (ds.map digitValue).reverse

/-- The number that digits with underscores between them spell. -/
def numeral (hex : Bool) (cs : List Char) : Nat := positional hex (cs.filter (· != '_'))

/-- A decimal or hexadecimal integer without a sign, and its value. -/
inductive UnsignedInteger : List Char → Nat → Prop
  | decimal {cs : List Char} (digits : Digits false cs) : UnsignedInteger cs (numeral false cs)
  | hexadecimal {cs : List Char} (digits : Digits true cs) : UnsignedInteger ('0' :: 'x' :: cs) (numeral true cs)

/-- An integer with a sign or none, and its value. -/
inductive IntegerLiteral : List Char → Int → Prop
  | unsigned {cs : List Char} {n : Nat} (integer : UnsignedInteger cs n) : IntegerLiteral cs n
  | plus {cs : List Char} {n : Nat} (integer : UnsignedInteger cs n) : IntegerLiteral ('+' :: cs) n
  | minus {cs : List Char} {n : Nat} (integer : UnsignedInteger cs n) : IntegerLiteral ('-' :: cs) (-n)

/-! ## What the reader of integers takes -/

/-- Digits without underscores, in front of which a plus sign may stand, and their value. -/
inductive LooseDigits (hex : Bool) : List Char → Nat → Prop
  | plain {ds : List Char} (some_ : ds ≠ []) (digits : ∀ d ∈ ds, DigitOf hex d) :
    LooseDigits hex ds (positional hex ds)
  | plus {ds : List Char} (some_ : ds ≠ []) (digits : ∀ d ∈ ds, DigitOf hex d) :
    LooseDigits hex ('+' :: ds) (positional hex ds)

/-- A decimal or hexadecimal integer with a plus sign in front of its digits or none, and its value. -/
inductive LooseInteger : List Char → Nat → Prop
  | decimal {cs : List Char} {n : Nat} (digits : LooseDigits false cs n) : LooseInteger cs n
  | hexadecimal {cs : List Char} {n : Nat} (digits : LooseDigits true cs n) : LooseInteger ('0' :: 'x' :: cs) n

section Reader

variable {hex : Bool} {c : Char} {cs : List Char} {n : Nat}

/-- A digit in front weighs as much as the digits behind it allow. -/
theorem ofDigits_cons_digit (r : Nat) (ds : List Char) :
    Nat.ofDigits r ((c :: ds).map digitValue).reverse =
      Nat.ofDigits r (ds.map digitValue).reverse + r ^ ds.length * digitValue c := by
  rw [List.map_cons, List.reverse_cons, Nat.ofDigits_append, Nat.ofDigits_singleton, List.length_reverse,
    List.length_map]

/-- Digits are read as the number that they denote behind those before them. -/
theorem foldDigits?_eq_some_iff {acc : Nat} : Text.foldDigits? (radix hex) acc cs = some n ↔
    (∀ d ∈ cs, DigitOf hex d) ∧ n = acc * radix hex ^ cs.length + positional hex cs := by
  induction cs generalizing acc with
  | nil =>
    have nothing : positional hex [] = 0 := Nat.ofDigits_nil
    simp [Text.foldDigits?, nothing, eq_comm]
  | cons c cs ih =>
    have weights (v : Nat) : (acc * radix hex + v) * radix hex ^ cs.length + positional hex cs =
        acc * radix hex ^ (c :: cs).length + (positional hex cs + radix hex ^ cs.length * v) := by
      rw [List.length_cons, Nat.pow_succ]
      ring
    rw [Text.foldDigits?, List.forall_mem_cons]
    have whole : positional hex (c :: cs) = positional hex cs + radix hex ^ cs.length * digitValue c :=
      ofDigits_cons_digit _ _
    rw [whole]
    cases read : Text.digit? (radix hex) c with
    | none =>
      refine ⟨nofun, fun ⟨⟨digit, _⟩, _⟩ => ?_⟩
      rw [digit?_eq_some_iff.2 ⟨digit, rfl⟩] at read
      cases read
    | some d =>
      obtain ⟨digit, rfl⟩ := digit?_eq_some_iff.1 read
      simp only [ih, weights, digit, true_and]

/-- A numeral is read as the number that it denotes, if all its characters are digits. -/
theorem digits?_eq_some_iff : Text.digits? (radix hex) cs = some n ↔
    cs ≠ [] ∧ (∀ d ∈ cs, DigitOf hex d) ∧ n = positional hex cs := by
  unfold Text.digits?
  cases cs with
  | nil => simp
  | cons c cs => simp [foldDigits?_eq_some_iff]

/-- An unsigned numeral is read below its bound. -/
theorem unsigned?_eq_some_iff {bound : Nat} :
    Text.unsigned? (radix hex) bound cs = some n ↔ LooseDigits hex cs n ∧ n < bound := by
  unfold Text.unsigned?
  rw [Option.filter_eq_some_iff, decide_eq_true_eq]
  refine and_congr_left fun _ => ⟨fun read => ?_, fun loose => ?_⟩
  · split at read
    · obtain ⟨some_, digits, rfl⟩ := digits?_eq_some_iff.1 read
      exact .plus some_ digits
    · obtain ⟨some_, digits, rfl⟩ := digits?_eq_some_iff.1 read
      exact .plain some_ digits
  · cases loose with
    | plus some_ digits => exact digits?_eq_some_iff.2 ⟨some_, digits, rfl⟩
    | plain some_ digits =>
      split
      · exact absurd rfl (digits '+' List.mem_cons_self).ne_sign.1
      · exact digits?_eq_some_iff.2 ⟨some_, digits, rfl⟩

/-- A loosely spelled number begins with a digit or a plus. -/
theorem LooseDigits.head (loose : LooseDigits hex (c :: cs) n) : DigitOf hex c ∨ c = '+' := by
  cases loose with
  | plain _ digits => exact .inl (digits c List.mem_cons_self)
  | plus => exact .inr rfl

theorem not_looseDigits_prefix : ¬LooseDigits false ('0' :: 'x' :: cs) n := by
  rintro (⟨-, digits⟩)
  exact absurd (isDigit_iff.2 (digits 'x' (List.mem_cons_of_mem _ List.mem_cons_self))) (by decide)

/-- The reader of integers drops underscores and reads what is left, up to 64 bits. -/
theorem magnitude?_eq_some_iff :
    magnitude? cs = some n ↔ LooseInteger (dropUnderscores cs) n ∧ n < UInt64.size := by
  unfold magnitude?
  generalize dropUnderscores cs = ds
  split
  · rw [show (16 : Nat) = radix true from rfl, unsigned?_eq_some_iff]
    refine and_congr_left fun _ => ⟨.hexadecimal, fun loose => ?_⟩
    cases loose with
    | decimal digits => exact absurd digits not_looseDigits_prefix
    | hexadecimal digits => exact digits
  · next notHex =>
    rw [show (10 : Nat) = radix false from rfl, unsigned?_eq_some_iff]
    refine and_congr_left fun _ => ⟨.decimal, fun loose => ?_⟩
    cases loose with
    | decimal digits => exact digits
    | hexadecimal => exact absurd rfl (notHex _)

end Reader

/-! ## Integers of the grammar -/

section Grammar

variable {hex : Bool} {c : Char} {cs : List Char} {n : Nat}

theorem DigitOf.ne_underscore (digit : DigitOf hex c) : c ≠ '_' := by
  rintro rfl
  exact absurd (isDigit_iff.2 digit) (by rw [isDigit_underscore]; exact Bool.false_ne_true)

theorem DigitOf.hexadecimal (digit : DigitOf hex c) : DigitOf true c := by
  obtain decimal | ⟨-, letter⟩ := digit
  · exact .inl decimal
  · exact .inr ⟨rfl, letter⟩

/-- Dropping underscores keeps digits. -/
theorem dropUnderscores_cons_digit (digit : DigitOf hex c) (cs : List Char) :
    dropUnderscores (c :: cs) = c :: dropUnderscores cs :=
  List.filter_cons_of_pos (bne_iff_ne.2 digit.ne_underscore)

theorem mem_dropUnderscores {c : Char} : c ∈ dropUnderscores cs ↔ c ∈ cs ∧ c ≠ '_' := by
  rw [dropUnderscores, List.mem_filter, bne_iff_ne]

theorem Digits.mem (digits : Digits hex cs) : ∀ c ∈ cs, DigitOf hex c ∨ c = '_' := by
  induction digits with
  | one digit => exact List.forall_mem_singleton.2 (.inl digit)
  | more digit _ ih => exact List.forall_mem_cons.2 ⟨.inl digit, ih⟩
  | underscore digit _ ih =>
    exact List.forall_mem_cons.2 ⟨.inl digit, List.forall_mem_cons.2 ⟨.inr rfl, ih⟩⟩

/-- Digits with underscores are loosely spelled, as their numeral. -/
theorem Digits.loose (digits : Digits hex cs) : LooseDigits hex (dropUnderscores cs) (numeral hex cs) := by
  refine .plain ?_ fun d inside => ?_
  · obtain ⟨d, rest, rfl, digit⟩ := digits.head
    rw [dropUnderscores_cons_digit digit]
    exact List.cons_ne_nil _ _
  · obtain ⟨inside, ne⟩ := mem_dropUnderscores.1 inside
    exact (digits.mem d inside).resolve_right ne

/-- Digits are read at their value. -/
theorem UnsignedInteger.loose (integer : UnsignedInteger cs n) : LooseInteger (dropUnderscores cs) n := by
  cases integer with
  | decimal digits => exact .decimal digits.loose
  | hexadecimal digits => exact .hexadecimal digits.loose

/-- A loosely spelled number that begins with a digit is made of digits. -/
theorem LooseDigits.forall_digit (loose : LooseDigits hex cs n) (digit : ∀ c ∈ cs.head?, DigitOf hex c) :
    (∀ c ∈ cs, DigitOf hex c) ∧ n = positional hex cs := by
  cases loose with
  | plain _ digits => exact ⟨digits, rfl⟩
  | plus => exact absurd rfl (digit '+' rfl).ne_sign.1

/-- A magnitude begins with a digit. -/
theorem Magnitude.head_digit (magnitude : Magnitude hex cs) : ∃ d rest, cs = d :: rest ∧ DigitOf hex d := by
  obtain ⟨digits, -, -⟩ := magnitude
  obtain ⟨d, rest, rfl, digit⟩ := digits.head
  exact ⟨d, _, rfl, digit⟩

/-- A number in which nothing but digits and underscores stands has no fraction and no exponent. -/
theorem Magnitude.digits_of_forall (magnitude : Magnitude hex cs) (all : ∀ c ∈ dropUnderscores cs, DigitOf hex c) :
    Digits hex cs := by
  obtain ⟨digits, isFraction, isExponent⟩ := magnitude
  have other {c : Char} (inside : c ∈ _ ++ (_ ++ _)) (ne : c ≠ '_') (no : ¬DigitOf hex c) : False :=
    no (all c (mem_dropUnderscores.2 ⟨inside, ne⟩))
  have noPoint : ¬DigitOf hex '.' := fun digit => absurd (isDigit_iff.2 digit) (by cases hex <;> decide)
  cases isFraction with
  | point => exact (other (by simp) (by decide) noPoint).elim
  | digits => exact (other (by simp) (by decide) noPoint).elim
  | absent =>
    cases isExponent with
    | absent => rwa [List.append_nil, List.append_nil]
    | present isMark =>
      refine (other (List.mem_append_right _ List.mem_cons_self) ?_ fun digit => ?_).elim
      · rcases isMark with ⟨-, rfl | rfl⟩ | ⟨-, rfl | rfl⟩ <;> decide
      · rcases isMark with ⟨rfl, rfl | rfl⟩ | ⟨rfl, rfl | rfl⟩ <;> exact absurd (isDigit_iff.2 digit) (by decide)

theorem head_dropUnderscores (digit : DigitOf hex c) (cs : List Char) :
    ∀ d ∈ (dropUnderscores (c :: cs)).head?, DigitOf hex d := by
  rw [dropUnderscores_cons_digit digit]
  exact fun d same => Option.some.inj same ▸ digit

/-- Digits are read at their value up to a bound. -/
theorem Digits.unsigned?_eq (digits : Digits hex cs) (bound : Nat) :
    Text.unsigned? (radix hex) bound (dropUnderscores cs) =
      if numeral hex cs < bound then some (numeral hex cs) else none := by
  split_ifs with fits
  · exact unsigned?_eq_some_iff.2 ⟨digits.loose, fits⟩
  · refine Option.eq_none_iff_forall_ne_some.2 fun n taken => ?_
    obtain ⟨loose, small⟩ := unsigned?_eq_some_iff.1 taken
    obtain ⟨d, rest, rfl, digit⟩ := digits.head
    obtain ⟨-, rfl⟩ := loose.forall_digit (head_dropUnderscores digit rest)
    exact fits small

/-- A magnitude that reads as an integer is made of digits. -/
theorem Magnitude.of_loose (magnitude : Magnitude hex cs) (loose : LooseDigits hex (dropUnderscores cs) n) :
    Digits hex cs ∧ n = numeral hex cs := by
  obtain ⟨d, rest, rfl, digit⟩ := magnitude.head_digit
  obtain ⟨all, rfl⟩ := loose.forall_digit (head_dropUnderscores digit rest)
  exact ⟨magnitude.digits_of_forall all, rfl⟩

/-- No decimal number has the letter of the hexadecimal ones. -/
theorem Magnitude.not_mem_x (magnitude : Magnitude false cs) : 'x' ∉ cs := by
  have noDigit : ¬DigitOf false 'x' := fun digit => absurd (isDigit_iff.2 digit) (by decide)
  have digits {ds : List Char} (digits : Digits false ds) : 'x' ∉ ds := fun inside =>
    (digits.mem 'x' inside).elim noDigit (by decide)
  obtain ⟨whole, isFraction, isExponent⟩ := magnitude
  simp only [List.mem_append, not_or]
  refine ⟨digits whole, ?_, ?_⟩
  · cases isFraction with
    | absent => nofun
    | point => decide
    | digits fraction => exact List.not_mem_cons_of_ne_of_not_mem (by decide) (digits fraction)
  · cases isExponent with
    | absent => nofun
    | present isMark isSign places =>
      simp only [List.mem_cons, List.mem_append, not_or]
      refine ⟨?_, ?_, digits places⟩
      · rintro rfl
        revert isMark
        simp [ExponentMark]
      · cases isSign <;> decide

/-- Of the literals without a sign the reader takes the integers only. -/
theorem UnsignedLiteral.of_loose (unsigned : UnsignedLiteral cs) (loose : LooseInteger (dropUnderscores cs) n) :
    UnsignedInteger cs n := by
  have letter {c : Char} {cs : List Char} (loose : LooseInteger (c :: cs) n) (no : ¬DigitOf false c ∧ c ≠ '+') :
      False := by
    cases loose with
    | decimal digits => exact digits.head.elim no.1 no.2
    | hexadecimal => exact no.1 (.inl (by decide))
  have n_ : ¬DigitOf false 'n' ∧ 'n' ≠ '+' := ⟨fun digit => absurd (isDigit_iff.2 digit) (by decide), by decide⟩
  have i_ : ¬DigitOf false 'i' ∧ 'i' ≠ '+' := ⟨fun digit => absurd (isDigit_iff.2 digit) (by decide), by decide⟩
  cases unsigned with
  | inf => exact (letter loose i_).elim
  | nan => exact (letter loose n_).elim
  | payload => exact (letter loose n_).elim
  | decimal magnitude =>
    generalize spelled : dropUnderscores cs = ds at loose
    cases loose with
    | decimal loose =>
      obtain ⟨digits, rfl⟩ := magnitude.of_loose (spelled ▸ loose)
      exact .decimal digits
    | hexadecimal =>
      have inside : 'x' ∈ dropUnderscores cs := spelled ▸ List.mem_cons_of_mem _ List.mem_cons_self
      exact absurd (mem_dropUnderscores.1 inside).1 magnitude.not_mem_x
  | @hexadecimal cs magnitude =>
    have prefix_ : dropUnderscores ('0' :: 'x' :: cs) = '0' :: 'x' :: dropUnderscores cs := rfl
    rw [prefix_] at loose
    cases loose with
    | decimal digits => exact absurd digits not_looseDigits_prefix
    | hexadecimal loose =>
      obtain ⟨digits, rfl⟩ := magnitude.of_loose loose
      exact .hexadecimal digits

/-- The reader takes a literal without a sign just if it is an integer, at its value. -/
theorem UnsignedLiteral.magnitude?_eq_some_iff (unsigned : UnsignedLiteral cs) :
    magnitude? cs = some n ↔ UnsignedInteger cs n ∧ n < UInt64.size := by
  rw [Wat.magnitude?_eq_some_iff]
  exact and_congr_left fun _ => ⟨unsigned.of_loose, UnsignedInteger.loose⟩

end Grammar

/-! ## Signs -/

section Signs

variable {sign cs : List Char} {n : Nat}

/-- A sign in front is split off. -/
theorem splitSign_append (isSign : OptionalSign sign) (ends : ∀ c ∈ cs.head?, c ≠ '+' ∧ c ≠ '-') :
    splitSign (sign ++ cs) = (decide (sign = ['-']), cs) := by
  cases isSign with
  | plus => rfl
  | minus => rfl
  | absent =>
    rw [List.nil_append]
    unfold splitSign
    split
    · exact absurd rfl (ends '-' rfl).2
    · exact absurd rfl (ends '+' rfl).1
    · rfl

/-- An unsigned integer begins with no sign. -/
theorem UnsignedInteger.head (integer : UnsignedInteger cs n) : ∀ c ∈ cs.head?, c ≠ '+' ∧ c ≠ '-' := by
  intro c first
  cases integer with
  | decimal digits =>
    obtain ⟨d, rest, rfl, digit⟩ := digits.head
    cases first
    exact digit.ne_sign
  | hexadecimal => cases first; decide

/-- An integer is one behind its sign. -/
theorem integerLiteral_append_iff (isSign : OptionalSign sign) (ends : ∀ c ∈ cs.head?, c ≠ '+' ∧ c ≠ '-')
    {k : Int} : IntegerLiteral (sign ++ cs) k ↔
      ∃ n, UnsignedInteger cs n ∧ k = if sign = ['-'] then -(n : Int) else n := by
  constructor
  · intro literal
    cases isSign with
    | absent =>
      rw [List.nil_append] at literal
      cases literal with
      | unsigned integer => exact ⟨_, integer, rfl⟩
      | plus => exact absurd rfl (ends '+' rfl).1
      | minus => exact absurd rfl (ends '-' rfl).2
    | plus =>
      cases literal with
      | unsigned integer => exact absurd rfl (integer.head '+' rfl).1
      | plus integer => exact ⟨_, integer, rfl⟩
    | minus =>
      cases literal with
      | unsigned integer => exact absurd rfl (integer.head '-' rfl).2
      | minus integer => exact ⟨_, integer, rfl⟩
  · rintro ⟨n, integer, rfl⟩
    cases isSign with
    | absent => exact .unsigned integer
    | plus => exact .plus integer
    | minus => exact .minus integer

end Signs

/-! ## Numbers of a width -/

section Width

variable {t : String} {sign cs : List Char} {bits : Nat}

/-- Of the numbers that agree with another one in some bits, one is in the range of these bits. -/
theorem eq_bmod_iff (some_ : 0 < bits) {v k : Int} : v = Int.bmod k (2 ^ bits) ↔
    v ≡ k [ZMOD 2 ^ bits] ∧ -2 ^ (bits - 1) ≤ v ∧ v < 2 ^ (bits - 1) := by
  obtain ⟨w, rfl⟩ : ∃ w, bits = w + 1 := ⟨bits - 1, by omega⟩
  have double : (2 : Nat) ^ (w + 1) = 2 * 2 ^ w := Nat.pow_succ'
  have half : ((2 ^ w : Nat) : Int) = 2 ^ w := Nat.cast_pow 2 w
  have whole : ((2 ^ (w + 1) : Nat) : Int) = 2 ^ (w + 1) := Nat.cast_pow 2 (w + 1)
  rw [Nat.add_sub_cancel, ← half]
  constructor
  · rintro rfl
    have agree : Int.bmod k (2 ^ (w + 1)) % (2 ^ (w + 1) : Nat) = k % (2 ^ (w + 1) : Nat) := Int.bmod_emod
    have lower := Int.le_bmod (x := k) (m := 2 ^ (w + 1)) (by omega)
    have upper := Int.bmod_lt (x := k) (m := 2 ^ (w + 1)) (by omega)
    rw [whole] at agree
    exact ⟨agree, by omega, by omega⟩
  · rintro ⟨agree, lower, upper⟩
    rw [Int.ModEq, ← whole] at agree
    rw [← Int.emod_bmod, ← agree, Int.emod_bmod]
    exact (Int.bmod_eq_of_le (by omega) (by omega)).symm

/-- An integer is read at a width just if it fits, and the range without a sign goes up twice as far. -/
theorem parseInt?_eq_some_iff (isSign : OptionalSign sign) (unsigned : UnsignedLiteral cs)
    (spelled : t.toList = sign ++ cs) (some_ : 0 < bits) (most : bits ≤ 64) {v : Int} :
    parseInt? bits t = some v ↔ ∃ k, IntegerLiteral t.toList k ∧ -2 ^ (bits - 1) ≤ k ∧ k < 2 ^ bits ∧
      v ≡ k [ZMOD 2 ^ bits] ∧ -2 ^ (bits - 1) ≤ v ∧ v < 2 ^ (bits - 1) := by
  have half : ((2 ^ (bits - 1) : Nat) : Int) = 2 ^ (bits - 1) := Nat.cast_pow 2 (bits - 1)
  have whole : ((2 ^ bits : Nat) : Int) = 2 ^ bits := Nat.cast_pow 2 bits
  have double : (2 : Nat) ^ bits = 2 * 2 ^ (bits - 1) := by
    rw [← Nat.pow_succ', Nat.succ_eq_add_one, Nat.sub_add_cancel some_]
  have bound : 2 ^ bits ≤ UInt64.size := Nat.pow_le_pow_right (by decide) most
  have positive : 0 < 2 ^ (bits - 1) := Nat.two_pow_pos _
  simp only [← eq_bmod_iff some_]
  rw [← half, ← whole]
  rw [parseInt?, spelled, splitSign_append isSign unsigned.head]
  simp only [integerLiteral_append_iff isSign unsigned.head, Nat.one_shiftLeft]
  constructor
  · intro read
    cases taken : magnitude? cs with
    | none => simp only [taken] at read; cases read
    | some n =>
      obtain ⟨integer, -⟩ := unsigned.magnitude?_eq_some_iff.1 taken
      simp only [taken, decide_eq_true_eq] at read
      refine ⟨_, ⟨n, integer, rfl⟩, ?_⟩
      split at read
      · next negative =>
        split_ifs at read with fits
        cases read
        rw [if_pos negative]
        refine ⟨by omega, by omega, (Int.bmod_eq_of_le ?_ ?_).symm⟩ <;> omega
      · next positive_ =>
        split_ifs at read with fits
        cases read
        rw [if_neg positive_]
        exact ⟨by omega, by omega, rfl⟩
  · rintro ⟨_, ⟨n, integer, rfl⟩, lower, upper, rfl⟩
    by_cases negative : sign = ['-']
    · rw [if_pos negative] at lower upper ⊢
      rw [unsigned.magnitude?_eq_some_iff.2 ⟨integer, by omega⟩]
      simp only [negative, decide_true, if_true]
      rw [if_pos (by omega), Int.bmod_eq_of_le (by omega) (by omega)]
    · rw [if_neg negative] at lower upper ⊢
      rw [unsigned.magnitude?_eq_some_iff.2 ⟨integer, by omega⟩]
      simp only [negative, decide_false, Bool.false_eq_true, if_false]
      rw [if_pos (by omega)]

/-- A 32-bit number is read from an unsigned integer in range. -/
theorem parseU32?_eq_some_iff (isSign : OptionalSign sign) (unsigned : UnsignedLiteral cs)
    (spelled : t.toList = sign ++ cs) {n : Nat} :
    parseU32? t = some n ↔ UnsignedInteger t.toList n ∧ n < 2 ^ 32 := by
  have size : UInt32.size = 2 ^ 32 := rfl
  have smaller : UInt32.size ≤ UInt64.size := by decide
  unfold parseU32?
  rw [spelled]
  cases isSign with
  | plus => exact ⟨nofun, fun ⟨integer, _⟩ => absurd rfl (integer.head '+' rfl).1⟩
  | minus => exact ⟨nofun, fun ⟨integer, _⟩ => absurd rfl (integer.head '-' rfl).2⟩
  | absent =>
    rw [List.nil_append]
    split
    · exact absurd rfl (unsigned.head '+' rfl).1
    · exact absurd rfl (unsigned.head '-' rfl).2
    · rw [Option.filter_eq_some_iff, decide_eq_true_eq, unsigned.magnitude?_eq_some_iff, size]
      exact ⟨fun ⟨⟨integer, _⟩, fits⟩ => ⟨integer, fits⟩, fun ⟨integer, fits⟩ => ⟨⟨integer, by omega⟩, fits⟩⟩

end Width

/-! ## NaNs with a payload -/

/-- The characters in front of the payload of a NaN. -/
def nanMark : List Char := ['n', 'a', 'n', ':', '0', 'x']

/-- A NaN: a sign, all bits of the exponent, and a fraction. -/
def nanPattern (f : FloatFormat) (negative : Bool) (fraction : Nat) : Nat :=
  (if negative then 2 ^ (f.exponentBits + f.fractionBits) else 0) +
    (2 ^ f.exponentBits - 1) * 2 ^ f.fractionBits + fraction

theorem head_nanMark (payload : List Char) : ∀ c ∈ (nanMark ++ payload).head?, c ≠ '+' ∧ c ≠ '-' := by
  intro c first
  cases first
  decide

/-- The payload of a NaN is hexadecimal digits. -/
theorem UnsignedLiteral.payload_digits {payload : List Char} (unsigned : UnsignedLiteral (nanMark ++ payload)) :
    Digits true payload :=
  digits_eq_nil_iff.1 (beq_iff_eq.1 (isUnsignedNumber_iff.2 unsigned))

/-- A text has no more than one way to split off a sign. -/
theorem rest_unique {sign sign' cs cs' : List Char} (isSign : OptionalSign sign) (isSign' : OptionalSign sign')
    (ends : ∀ c ∈ cs.head?, c ≠ '+' ∧ c ≠ '-') (ends' : ∀ c ∈ cs'.head?, c ≠ '+' ∧ c ≠ '-')
    (same : sign ++ cs = sign' ++ cs') : cs = cs' := by
  rw [← dropSigns_append isSign.areSigns ends, same, dropSigns_append isSign'.areSigns ends']

/-- The payload of a NaN goes to the fraction field, if it fits and is not zero. -/
theorem parseFloat?_nan {t : String} {sign payload : List Char} (isSign : OptionalSign sign)
    (digits : Digits true payload) (spelled : t.toList = sign ++ (nanMark ++ payload)) (f : FloatFormat) :
    parseFloat? f t =
      if 0 < numeral true payload ∧ numeral true payload < 2 ^ f.fractionBits then
        some (nanPattern f (decide (sign = ['-'])) (numeral true payload))
      else none := by
  have read : Text.unsigned? 16 f.hidden (dropUnderscores payload) = _ := digits.unsigned?_eq f.hidden
  rw [parseFloat?, spelled, splitSign_append isSign (head_nanMark payload)]
  simp only [nanMark, List.cons_append, List.nil_append]
  rw [read, FloatFormat.hidden_eq]
  generalize numeral true payload = n
  by_cases fits : n < 2 ^ f.fractionBits
  · rw [if_pos fits]
    cases n with
    | zero =>
      rw [if_neg fun both => Nat.lt_irrefl 0 both.1]
      rfl
    | succ n =>
      rw [if_pos ⟨Nat.succ_pos n, fits⟩]
      simp only [nanPattern, FloatFormat.withSign, FloatFormat.infinity, FloatFormat.topField,
        FloatFormat.signBit, FloatFormat.hidden_eq, Nat.one_shiftLeft, decide_eq_true_eq]
      split_ifs
      · rw [Nat.add_assoc]
      · rw [Nat.zero_add]
  · rw [if_neg fits, if_neg fun both => fits both.2]

/-- **Literals are read at their exact value.**  An integer reader of up to 64 bits takes a number just if it is an
integer literal whose value is not below the least signed number and below the end of the unsigned range; it gives
the signed number that agrees with the value in these bits.  An index is an integer without a sign that fits 32 bits.
A NaN with a payload has its sign, all bits of the exponent and the payload as its fraction, if the payload fits and
is not zero. -/
theorem literals_read_exactly {t : String} (literal : NumberLiteral t.toList) :
    (∀ bits v, 0 < bits → bits ≤ 64 → (parseInt? bits t = some v ↔
      ∃ k, IntegerLiteral t.toList k ∧ -2 ^ (bits - 1) ≤ k ∧ k < 2 ^ bits ∧
        v ≡ k [ZMOD 2 ^ bits] ∧ -2 ^ (bits - 1) ≤ v ∧ v < 2 ^ (bits - 1))) ∧
    (∀ n, parseU32? t = some n ↔ UnsignedInteger t.toList n ∧ n < 2 ^ 32) ∧
    ∀ f sign payload, OptionalSign sign → t.toList = sign ++ (nanMark ++ payload) →
      parseFloat? f t =
        if 0 < numeral true payload ∧ numeral true payload < 2 ^ f.fractionBits then
          some (nanPattern f (decide (sign = ['-'])) (numeral true payload))
        else none := by
  generalize spelled : t.toList = word at literal
  obtain ⟨isSign, unsigned⟩ := literal
  refine ⟨fun bits v some_ most => ?_, fun n => ?_, fun f sign payload isSign' same => ?_⟩
  · rw [← spelled]
    exact parseInt?_eq_some_iff isSign unsigned spelled some_ most
  · rw [← spelled]
    exact parseU32?_eq_some_iff isSign unsigned spelled
  · obtain rfl := rest_unique isSign isSign' unsigned.head (head_nanMark payload) same
    exact parseFloat?_nan isSign' unsigned.payload_digits (spelled.trans same) f

/-- The least number of 32 bits, and the NaN with the greatest payload. -/
theorem literals_read_exactly_limits : parseInt? 32 "-0x8000_0000" = some (-2147483648) ∧
    parseU32? "-0x8000_0000" ≠ some 2147483648 ∧ parseFloat? binary32 "-nan:0x7f_ffff" = some 0xffffffff := by
  have least := literals_read_exactly (t := "-0x8000_0000") (isNumber_iff.1 (by decide))
  have nan := literals_read_exactly (t := "-nan:0x7f_ffff") (isNumber_iff.1 (by decide))
  have digits : Digits true "8000_0000".toList := digits_eq_nil_iff.1 (by decide)
  have value : numeral true "8000_0000".toList = 2147483648 := by decide
  have integer := UnsignedInteger.hexadecimal digits
  rw [value] at integer
  refine ⟨(least.1 32 _ (by decide) (by decide)).2 ⟨_, .minus integer, by decide, by decide, rfl, by decide, by decide⟩,
    fun read => ?_, ?_⟩
  · exact absurd rfl (((least.2.1 _).1 read).1.head '-' rfl).2
  · have fits : 0 < numeral true "7f_ffff".toList ∧ numeral true "7f_ffff".toList < 2 ^ binary32.fractionBits := by
      decide
    rw [nan.2.2 binary32 ['-'] "7f_ffff".toList .minus rfl, if_pos fits]
    decide

end WasmEngine.Wat
