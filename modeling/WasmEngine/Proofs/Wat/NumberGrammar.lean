import WasmEngine.Proofs.Wat.LexedTokens

/-!
# The grammar of number literals

Number literals are given by a grammar (`NumberLiteral`), and the words that are lexed as numbers are those
that it generates (`isNumber_iff`).
-/

namespace WasmEngine.Wat

/-! ## The grammar -/

/-- A decimal digit, or a hexadecimal one. -/
def DigitOf (hex : Bool) (c : Char) : Prop :=
  '0' ≤ c ∧ c ≤ '9' ∨ hex = true ∧ ('a' ≤ c ∧ c ≤ 'f' ∨ 'A' ≤ c ∧ c ≤ 'F')

/-- Digits with single underscores between them. -/
inductive Digits (hex : Bool) : List Char → Prop
  | one {d : Char} (digit : DigitOf hex d) : Digits hex [d]
  | more {d : Char} {cs : List Char} (digit : DigitOf hex d) (rest : Digits hex cs) : Digits hex (d :: cs)
  | underscore {d : Char} {cs : List Char} (digit : DigitOf hex d) (rest : Digits hex cs) :
    Digits hex (d :: '_' :: cs)

/-- No sign, or one. -/
inductive OptionalSign : List Char → Prop
  | absent : OptionalSign []
  | plus : OptionalSign ['+']
  | minus : OptionalSign ['-']

/-- No fraction, or a point with digits after it or none. -/
inductive Fraction (hex : Bool) : List Char → Prop
  | absent : Fraction hex []
  | point : Fraction hex ['.']
  | digits {cs : List Char} (digits : Digits hex cs) : Fraction hex ('.' :: cs)

/-- The letters in front of an exponent. -/
def ExponentMark (hex : Bool) (c : Char) : Prop :=
  hex = false ∧ (c = 'e' ∨ c = 'E') ∨ hex = true ∧ (c = 'p' ∨ c = 'P')

/-- No exponent, or a letter, a sign or none, and decimal digits. -/
inductive Exponent (hex : Bool) : List Char → Prop
  | absent : Exponent hex []
  | present {mark : Char} {sign cs : List Char} (isMark : ExponentMark hex mark) (isSign : OptionalSign sign)
    (digits : Digits false cs) : Exponent hex (mark :: (sign ++ cs))

/-- Digits, and a fraction and an exponent behind them. -/
inductive Magnitude (hex : Bool) : List Char → Prop
  | intro {cs fraction exponent : List Char} (digits : Digits hex cs) (isFraction : Fraction hex fraction)
    (isExponent : Exponent hex exponent) : Magnitude hex (cs ++ (fraction ++ exponent))

/-- An infinity, a NaN with a payload or without, a decimal number or a hexadecimal one. -/
inductive UnsignedLiteral : List Char → Prop
  | inf : UnsignedLiteral ['i', 'n', 'f']
  | nan : UnsignedLiteral ['n', 'a', 'n']
  | payload {cs : List Char} (digits : Digits true cs) :
    UnsignedLiteral ('n' :: 'a' :: 'n' :: ':' :: '0' :: 'x' :: cs)
  | decimal {cs : List Char} (magnitude : Magnitude false cs) : UnsignedLiteral cs
  | hexadecimal {cs : List Char} (magnitude : Magnitude true cs) : UnsignedLiteral ('0' :: 'x' :: cs)

/-- A number literal: a sign or none in front of an unsigned one. -/
inductive NumberLiteral : List Char → Prop
  | intro {sign cs : List Char} (isSign : OptionalSign sign) (unsigned : UnsignedLiteral cs) :
    NumberLiteral (sign ++ cs)

/-- A word that is meant to be a number: behind its signs, however many, it begins with a digit, is an infinity
or a NaN, or begins like a NaN with a payload. -/
inductive MeantAsNumber : List Char → Prop
  | digit {signs cs : List Char} {d : Char} (areSigns : ∀ c ∈ signs, c = '+' ∨ c = '-')
    (digit : DigitOf false d) : MeantAsNumber (signs ++ d :: cs)
  | inf {signs : List Char} (areSigns : ∀ c ∈ signs, c = '+' ∨ c = '-') : MeantAsNumber (signs ++ ['i', 'n', 'f'])
  | nan {signs : List Char} (areSigns : ∀ c ∈ signs, c = '+' ∨ c = '-') : MeantAsNumber (signs ++ ['n', 'a', 'n'])
  | payload {signs cs : List Char} (areSigns : ∀ c ∈ signs, c = '+' ∨ c = '-') :
    MeantAsNumber (signs ++ 'n' :: 'a' :: 'n' :: ':' :: cs)

/-! ## Digits -/

/-- What a digit is worth. -/
def digitValue (c : Char) : Nat :=
  if c ≤ '9' then c.toNat - '0'.toNat
  else if c ≤ 'F' then c.toNat - 'A'.toNat + 10
  else c.toNat - 'a'.toNat + 10

/-- The number of different digits. -/
def radix (hex : Bool) : Nat := if hex then 16 else 10

section Digits

variable {hex : Bool} {c : Char} {cs rest : List Char}

/-- A character is read as the digit that it is. -/
theorem digit?_eq_some_iff {d : Nat} :
    Text.digit? (radix hex) c = some d ↔ DigitOf hex c ∧ d = digitValue c := by
  have order (a b : Char) : a ≤ b ↔ a.toNat ≤ b.toNat := Iff.rfl
  unfold Text.digit? Text.hexDigit? DigitOf digitValue radix
  simp only [order]
  have values : '0'.toNat = 48 ∧ '9'.toNat = 57 ∧ 'a'.toNat = 97 ∧ 'f'.toNat = 102 ∧ 'A'.toNat = 65 ∧
    'F'.toNat = 70 := by decide
  obtain ⟨zero, nine, a, f, A, F⟩ := values
  rw [zero, nine, a, f, A, F]
  cases hex with
  | false =>
    simp only [Bool.false_eq_true, if_false, false_and, or_false]
    split_ifs <;> simp [Option.filter] <;> omega
  | true =>
    simp only [if_true, true_and]
    split_ifs <;> simp [Option.filter] <;> omega

theorem isDigit_iff : isDigit hex c = true ↔ DigitOf hex c := by
  show (Text.digit? (radix hex) c).isSome = true ↔ _
  simp only [Option.isSome_iff_exists, digit?_eq_some_iff, exists_and_left, exists_eq, and_true]

/-- A run of digits ends here. -/
def EndsDigits (hex : Bool) (cs : List Char) : Prop := ∀ c ∈ cs.head?, isDigit hex c = false ∧ c ≠ '_'

theorem digitRun_digit (digit : DigitOf hex c) (count : Nat) (after : Bool) (cs : List Char) :
    digitRun hex count after (c :: cs) = digitRun hex (count + 1) false cs := by
  rw [digitRun, if_pos (isDigit_iff.2 digit)]

theorem isDigit_underscore (hex : Bool) : isDigit hex '_' = false := by cases hex <;> rfl

/-- A run of digits ends where they do. -/
theorem digitRun_of_ends (ends : EndsDigits hex cs) (count : Nat) :
    digitRun hex count false cs = some (count, cs) := by
  cases cs with
  | nil => rfl
  | cons c cs =>
    obtain ⟨notDigit, notUnderscore⟩ := ends c rfl
    rw [digitRun, notDigit, if_neg Bool.false_ne_true, if_neg notUnderscore, if_neg Bool.false_ne_true]

/-- A run goes as far as the digits do. -/
theorem Digits.run (digits : Digits hex cs) (ends : EndsDigits hex rest) (count : Nat) (after : Bool) :
    ∃ n, digitRun hex count after (cs ++ rest) = some (n + 1, rest) := by
  induction digits generalizing count after with
  | one digit =>
    rw [List.singleton_append, digitRun_digit digit, digitRun_of_ends ends]
    exact ⟨count, rfl⟩
  | more digit _ ih =>
    rw [List.cons_append, digitRun_digit digit]
    exact ih _ _
  | @underscore d cs digit _ ih =>
    rw [List.cons_append, digitRun_digit digit, List.cons_append, digitRun, isDigit_underscore,
      if_neg Bool.false_ne_true, if_pos rfl, if_neg (by simp)]
    exact ih _ _

/-- What a run takes after a digit goes on with that digit, or begins anew behind an underscore. -/
theorem digits_of_digitRun {n count : Nat} : 
    (digitRun hex (count + 1) false cs = some (n, rest) →
      0 < n ∧ EndsDigits hex rest ∧ ∀ d, DigitOf hex d → ∃ ds, Digits hex ds ∧ d :: cs = ds ++ rest) ∧
    (digitRun hex (count + 1) true cs = some (n, rest) →
      0 < n ∧ EndsDigits hex rest ∧ ∃ ds, Digits hex ds ∧ cs = ds ++ rest) := by
  induction cs generalizing count with
  | nil =>
    refine ⟨fun run => ?_, fun run => ?_⟩
    · cases run
      exact ⟨Nat.succ_pos _, nofun, fun d digit => ⟨[d], .one digit, rfl⟩⟩
    · cases run
  | cons c cs ih =>
    by_cases digit : DigitOf hex c
    · rw [digitRun_digit digit, digitRun_digit digit]
      have rest := fun run => (@ih (count + 1)).1 run
      refine ⟨fun run => ?_, fun run => ?_⟩
      · obtain ⟨some_, ends, whole⟩ := rest run
        obtain ⟨ds, digits, split⟩ := whole c digit
        exact ⟨some_, ends, fun d digit' => ⟨d :: ds, .more digit' digits, by rw [split]; rfl⟩⟩
      · obtain ⟨some_, ends, whole⟩ := rest run
        exact ⟨some_, ends, whole c digit⟩
    · have notDigit : isDigit hex c = false := Bool.eq_false_iff.2 fun is => digit (isDigit_iff.1 is)
      by_cases underscore : c = '_'
      · subst underscore
        refine ⟨fun run => ?_, fun run => ?_⟩
        · rw [digitRun, notDigit, if_neg Bool.false_ne_true, if_pos rfl, if_neg (by simp)] at run
          obtain ⟨some_, ends, ds, digits, split⟩ := ih.2 run
          exact ⟨some_, ends, fun d digit' => ⟨d :: '_' :: ds, .underscore digit' digits, by rw [split]; rfl⟩⟩
        · rw [digitRun, notDigit, if_neg Bool.false_ne_true, if_pos rfl, if_pos (by simp)] at run
          cases run
      · refine ⟨fun run => ?_, fun run => ?_⟩
        · rw [digitRun, notDigit, if_neg Bool.false_ne_true, if_neg underscore, if_neg Bool.false_ne_true] at run
          cases run
          have ends : EndsDigits hex (c :: cs) := by
            intro d first
            cases first
            exact ⟨notDigit, underscore⟩
          exact ⟨Nat.succ_pos _, ends, fun d digit' => ⟨[d], .one digit', rfl⟩⟩
        · rw [digitRun, notDigit, if_neg Bool.false_ne_true, if_neg underscore, if_pos rfl] at run
          cases run

/-- A run from the start takes nothing, or digits as the grammar has them. -/
theorem digits_of_digitRun_zero {n : Nat} (run : digitRun hex 0 false cs = some (n, rest)) :
    n = 0 ∧ rest = cs ∨ 0 < n ∧ EndsDigits hex rest ∧ ∃ ds, Digits hex ds ∧ cs = ds ++ rest := by
  cases cs with
  | nil =>
    cases run
    exact .inl ⟨rfl, rfl⟩
  | cons c cs =>
    by_cases digit : DigitOf hex c
    · rw [digitRun_digit digit] at run
      obtain ⟨some_, ends, whole⟩ := digits_of_digitRun.1 run
      exact .inr ⟨some_, ends, whole c digit⟩
    · have notDigit : isDigit hex c = false := Bool.eq_false_iff.2 fun is => digit (isDigit_iff.1 is)
      by_cases underscore : c = '_'
      · rw [digitRun, notDigit, if_neg Bool.false_ne_true, if_pos underscore, if_pos (by simp)] at run
        cases run
      · rw [digitRun, notDigit, if_neg Bool.false_ne_true, if_neg underscore, if_neg Bool.false_ne_true] at run
        cases run
        exact .inl ⟨rfl, rfl⟩

/-- Digits are taken from where they stand, as many as there are. -/
theorem digits_eq_some_iff : digits hex cs = some rest ↔
    ∃ ds, Digits hex ds ∧ cs = ds ++ rest ∧ EndsDigits hex rest := by
  unfold digits
  constructor
  · intro gives
    split at gives
    · cases gives
    · next n rest' notZero run =>
      cases gives
      obtain ⟨zero, -⟩ | ⟨-, ends, ds, digits, split⟩ := digits_of_digitRun_zero run
      · exact (notZero zero).elim
      · exact ⟨ds, digits, split, ends⟩
    · cases gives
  · rintro ⟨ds, digits, rfl, ends⟩
    obtain ⟨n, run⟩ := digits.run ends 0 false
    rw [run]
    rfl

theorem digits_eq_nil_iff : digits hex cs = some [] ↔ Digits hex cs := by
  rw [digits_eq_some_iff]
  constructor
  · rintro ⟨ds, digits, rfl, -⟩
    rwa [List.append_nil]
  · exact fun digits => ⟨cs, digits, (List.append_nil cs).symm, nofun⟩

end Digits

/-! ## Numbers -/

section Numbers

variable {hex : Bool} {c : Char} {cs rest : List Char}

/-- A fraction that is taken stood there. -/
theorem fraction_eq_some {rest : List Char} (gives : fraction hex cs = some rest) :
    ∃ f, Fraction hex f ∧ cs = f ++ rest := by
  unfold fraction at gives
  split at gives
  · obtain ⟨⟨n, rest⟩, run, rfl⟩ := Option.map_eq_some_iff.1 gives
    obtain ⟨-, rfl⟩ | ⟨-, -, ds, digits, split⟩ := digits_of_digitRun_zero run
    · exact ⟨['.'], .point, rfl⟩
    · exact ⟨'.' :: ds, .digits digits, congrArg _ split⟩
  · cases gives
    exact ⟨[], .absent, rfl⟩

/-- A fraction is taken where it stands. -/
theorem Fraction.gives {f : List Char} (isFraction : Fraction hex f) (ends : EndsDigits hex rest)
    (notPoint : rest.head? ≠ some '.') : fraction hex (f ++ rest) = some rest := by
  cases isFraction with
  | absent =>
    rw [List.nil_append, fraction]
    exact fun cs same => notPoint (same ▸ rfl)
  | point =>
    rw [List.singleton_append, fraction, digitRun_of_ends ends]
    rfl
  | digits digits =>
    obtain ⟨n, run⟩ := digits.run ends 0 false
    rw [List.cons_append, fraction, run]
    rfl

theorem isExponentMark_iff : isExponentMark hex c = true ↔ ExponentMark hex c := by
  unfold isExponentMark ExponentMark
  cases hex <;> simp

theorem Digits.head (digits : Digits hex cs) : ∃ d rest, cs = d :: rest ∧ DigitOf hex d := by
  cases digits with
  | one digit => exact ⟨_, _, rfl, digit⟩
  | more digit => exact ⟨_, _, rfl, digit⟩
  | underscore digit => exact ⟨_, _, rfl, digit⟩

theorem DigitOf.ne_sign (digit : DigitOf hex c) : c ≠ '+' ∧ c ≠ '-' := by
  constructor
  · rintro rfl
    exact absurd (isDigit_iff.2 digit) (by cases hex <;> decide)
  · rintro rfl
    exact absurd (isDigit_iff.2 digit) (by cases hex <;> decide)

theorem dropSign_of_ne {d : Char} (ne : d ≠ '+' ∧ d ≠ '-') (cs : List Char) : dropSign (d :: cs) = d :: cs := by
  rw [dropSign]
  · exact fun cs same => ne.1 (List.cons.inj same).1
  · exact fun cs same => ne.2 (List.cons.inj same).1

theorem OptionalSign.dropSign {sign : List Char} (isSign : OptionalSign sign) (digits : Digits hex cs) :
    dropSign (sign ++ cs) = cs := by
  cases isSign with
  | absent =>
    obtain ⟨d, rest, rfl, digit⟩ := digits.head
    exact dropSign_of_ne digit.ne_sign rest
  | plus => rfl
  | minus => rfl

/-- A text is an optional sign and what is left without it. -/
theorem exists_optionalSign (cs : List Char) : ∃ sign, OptionalSign sign ∧ cs = sign ++ dropSign cs := by
  unfold dropSign
  split
  · exact ⟨_, .plus, rfl⟩
  · exact ⟨_, .minus, rfl⟩
  · exact ⟨_, .absent, rfl⟩

/-- An exponent is taken to the end exactly when it is one. -/
theorem exponent_eq_nil_iff : exponent hex cs = some [] ↔ Exponent hex cs := by
  constructor
  · intro gives
    unfold exponent at gives
    split at gives
    · next c cs =>
      split at gives
      · next mark =>
        obtain ⟨sign, isSign, split⟩ := exists_optionalSign cs
        rw [split]
        exact .present (isExponentMark_iff.1 mark) isSign (digits_eq_nil_iff.1 gives)
      · cases gives
    · exact .absent
  · intro isExponent
    cases isExponent with
    | absent => rfl
    | present isMark isSign digits =>
      rw [exponent, if_pos (isExponentMark_iff.2 isMark), isSign.dropSign digits]
      exact digits_eq_nil_iff.2 digits

/-- The letters of exponents are no digits. -/
theorem Exponent.ends (isExponent : Exponent hex cs) : EndsDigits hex cs ∧ cs.head? ≠ some '.' := by
  cases isExponent with
  | absent => exact ⟨nofun, nofun⟩
  | @present mark _ _ isMark =>
    have facts : isDigit hex mark = false ∧ mark ≠ '_' ∧ mark ≠ '.' := by
      rcases isMark with ⟨rfl, rfl | rfl⟩ | ⟨rfl, rfl | rfl⟩ <;> decide
    refine ⟨fun c first => ?_, fun same => facts.2.2 (Option.some.inj same)⟩
    cases first
    exact ⟨facts.1, facts.2.1⟩

/-- Digits in front of a fraction end there. -/
theorem Fraction.ends {f : List Char} (isFraction : Fraction hex f) (ends : EndsDigits hex rest) :
    EndsDigits hex (f ++ rest) := by
  have point : isDigit hex '.' = false ∧ '.' ≠ '_' := by cases hex <;> decide
  cases isFraction with
  | absent => exact ends
  | point =>
    intro c first
    cases first
    exact point
  | digits =>
    intro c first
    cases first
    exact point

/-- The magnitudes that are accepted are those of the grammar. -/
theorem isMagnitude_iff : isMagnitude hex cs = true ↔ Magnitude hex cs := by
  unfold isMagnitude
  constructor
  · intro gives
    split at gives
    · cases gives
    · next afterDigits isDigits =>
      split at gives
      · cases gives
      · next afterFraction isFraction =>
        obtain ⟨ds, digits, rfl, -⟩ := digits_eq_some_iff.1 isDigits
        obtain ⟨f, fraction, rfl⟩ := fraction_eq_some isFraction
        exact .intro digits fraction (exponent_eq_nil_iff.1 (beq_iff_eq.1 gives))
  · rintro ⟨digits, isFraction, isExponent⟩
    obtain ⟨ends, notPoint⟩ := isExponent.ends
    rw [digits_eq_some_iff.2 ⟨_, digits, rfl, isFraction.ends ends⟩]
    dsimp only
    rw [isFraction.gives ends notPoint]
    exact beq_iff_eq.2 (exponent_eq_nil_iff.2 isExponent)

/-- A decimal number begins with a digit, and never as a hexadecimal one does. -/
theorem Magnitude.head (magnitude : Magnitude false cs) :
    ∃ d rest, cs = d :: rest ∧ DigitOf false d ∧ rest.head? ≠ some 'x' := by
  obtain ⟨digits, isFraction, isExponent⟩ := magnitude
  cases digits with
  | one digit =>
    refine ⟨_, _, rfl, digit, ?_⟩
    cases isFraction with
    | absent =>
      cases isExponent with
      | absent => nofun
      | present isMark =>
        rintro same
        cases same
        revert isMark
        simp [ExponentMark]
    | point => nofun
    | digits => nofun
  | more digit rest =>
    obtain ⟨d, rest, rfl, isDigit⟩ := rest.head
    refine ⟨_, _, rfl, digit, ?_⟩
    rintro same
    cases same
    exact absurd (isDigit_iff.2 isDigit) (by decide)
  | underscore digit => exact ⟨_, _, rfl, digit, nofun⟩

/-- The unsigned numbers that are accepted are those of the grammar. -/
theorem isUnsignedNumber_iff : isUnsignedNumber cs = true ↔ UnsignedLiteral cs := by
  constructor
  · intro gives
    unfold isUnsignedNumber at gives
    split at gives
    · exact .inf
    · exact .nan
    · exact .payload (digits_eq_nil_iff.1 (beq_iff_eq.1 gives))
    · exact .hexadecimal (isMagnitude_iff.1 gives)
    · exact .decimal (isMagnitude_iff.1 gives)
  · intro unsigned
    cases unsigned with
    | inf => rfl
    | nan => rfl
    | payload digits => exact beq_iff_eq.2 (digits_eq_nil_iff.2 digits)
    | hexadecimal magnitude => exact isMagnitude_iff.2 magnitude
    | decimal magnitude =>
      obtain ⟨d, rest, rfl, digit, notX⟩ := magnitude.head
      have notLetter : d ≠ 'i' ∧ d ≠ 'n' := by
        constructor
        · rintro rfl
          exact absurd (isDigit_iff.2 digit) (by decide)
        · rintro rfl
          exact absurd (isDigit_iff.2 digit) (by decide)
      unfold isUnsignedNumber
      split
      · rfl
      · rfl
      · next same => exact absurd (List.cons.inj same).1 notLetter.2
      · next same => exact absurd (congrArg List.head? (List.cons.inj same).2) notX
      · exact isMagnitude_iff.2 magnitude

/-- Characters that are signs, in front of others. -/
theorem exists_signs (cs : List Char) :
    ∃ signs, (∀ c ∈ signs, c = '+' ∨ c = '-') ∧ cs = signs ++ dropSigns cs := by
  refine ⟨cs.takeWhile fun c => c == '+' || c == '-', fun c inside => ?_, List.takeWhile_append_dropWhile.symm⟩
  simpa using List.mem_takeWhile_imp inside

/-- The signs in front of a number are dropped. -/
theorem dropSigns_append {signs : List Char} (areSigns : ∀ c ∈ signs, c = '+' ∨ c = '-')
    (ends : ∀ c ∈ cs.head?, c ≠ '+' ∧ c ≠ '-') : dropSigns (signs ++ cs) = cs := by
  have dropped := (@run_append (fun c => c == '+' || c == '-') signs cs (by simpa using areSigns)
    (by simpa using ends) .origin).2
  exact congrArg Cursor.rest dropped

theorem OptionalSign.areSigns {sign : List Char} (isSign : OptionalSign sign) :
    ∀ c ∈ sign, c = '+' ∨ c = '-' := by
  cases isSign <;> simp

theorem UnsignedLiteral.head (unsigned : UnsignedLiteral cs) : ∀ c ∈ cs.head?, c ≠ '+' ∧ c ≠ '-' := by
  intro c first
  cases unsigned with
  | inf => cases first; decide
  | nan => cases first; decide
  | payload => cases first; decide
  | hexadecimal => cases first; decide
  | decimal magnitude =>
    obtain ⟨d, rest, rfl, digit, -⟩ := magnitude.head
    cases first
    exact digit.ne_sign

/-- The numbers that are accepted are those of the grammar. -/
theorem isNumber_iff : isNumber cs = true ↔ NumberLiteral cs := by
  unfold isNumber
  simp only [Bool.and_eq_true, decide_eq_true_eq, isUnsignedNumber_iff]
  constructor
  · rintro ⟨few, unsigned⟩
    obtain ⟨signs, areSigns, split⟩ := exists_signs cs
    have length := congrArg List.length split
    rw [List.length_append] at length
    rw [split]
    refine .intro ?_ unsigned
    match signs with
    | [] => exact .absent
    | [c] =>
      obtain rfl | rfl := areSigns c List.mem_cons_self
      · exact .plus
      · exact .minus
    | _ :: _ :: _ =>
      rw [List.length_cons, List.length_cons] at length
      omega
  · rintro ⟨isSign, unsigned⟩
    rw [dropSigns_append isSign.areSigns unsigned.head, List.length_append]
    refine ⟨?_, unsigned⟩
    cases isSign <;> simp

/-- The words that look numeric are those meant as numbers. -/
theorem looksNumeric_iff : looksNumeric cs = true ↔ MeantAsNumber cs := by
  constructor
  · intro gives
    obtain ⟨signs, areSigns, split⟩ := exists_signs cs
    unfold looksNumeric at gives
    generalize dropSigns cs = unsigned at gives split
    subst split
    split at gives
    · exact .inf areSigns
    · exact .nan areSigns
    · exact .payload areSigns
    · exact .digit areSigns (isDigit_iff.1 gives)
    · cases gives
  · intro meant
    cases meant with
    | inf areSigns =>
      rw [looksNumeric, dropSigns_append areSigns (by simp)]
      rfl
    | nan areSigns =>
      rw [looksNumeric, dropSigns_append areSigns (by simp)]
      rfl
    | payload areSigns =>
      rw [looksNumeric, dropSigns_append areSigns (by simp)]
      rfl
    | @digit signs cs d areSigns digit =>
      have ends : ∀ c ∈ (d :: cs).head?, c ≠ '+' ∧ c ≠ '-' := by
        intro c first
        cases first
        exact digit.ne_sign
      unfold looksNumeric
      rw [dropSigns_append areSigns ends]
      split
      · rfl
      · rfl
      · rfl
      · next same =>
        cases same
        exact isDigit_iff.2 digit
      · next same => cases same

end Numbers

/-- A word that is no name is lexed as a number exactly if it is a number literal; it is an error exactly if it is
none and meant as one; and any other word is a keyword. -/
theorem word_lexed_by_grammar {word tail : List Char} (some_ : word ≠ [])
    (chars : ∀ c ∈ word, isIdChar c = true) (notName : word.head? ≠ some '$') (boundary : AtBoundary tail)
    (pos : Position) :
    ∃ r, nextItem? ⟨pos, word ++ tail⟩ = some ⟨r, ⟨pos.steps word, tail⟩⟩ ∧
      (r = .ok ⟨.number (String.ofList word), pos.spanTo (pos.steps word)⟩ ↔ NumberLiteral word) ∧
      (r = .error ⟨.invalidNumber (String.ofList word), pos.spanTo (pos.steps word)⟩ ↔
        ¬NumberLiteral word ∧ MeantAsNumber word) ∧
      (r = .ok ⟨.keyword (String.ofList word), pos.spanTo (pos.steps word)⟩ ↔
        ¬NumberLiteral word ∧ ¬MeantAsNumber word) := by
  obtain ⟨d, cs, rfl⟩ := List.exists_cons_of_ne_nil some_
  have item := nextItem?_of_noGap (noGap_of_isIdChar (chars d List.mem_cons_self) (cs ++ tail)) pos
  rw [lexToken_of_word (fun same => notName (congrArg some same)) chars boundary] at item
  refine ⟨_, item, ?_⟩
  rw [← isNumber_iff, ← looksNumeric_iff]
  unfold classify
  cases isNumber (d :: cs) with
  | true => simp [Except.map, Except.mapError]
  | false => cases looksNumeric (d :: cs) <;> simp [Except.map, Except.mapError]

/-- Two underscores in a row. -/
theorem doubledUnderscore_invalid :
    nextItem? ⟨.origin, ['1', '_', '_', '0'] ++ [')']⟩ =
      some ⟨.error ⟨.invalidNumber "1__0", 0, 4, 1, 1⟩, ⟨⟨4, 1, 5, false⟩, [')']⟩⟩ := by
  have chars := List.all_eq_true.1 (by decide : ['1', '_', '_', '0'].all isIdChar = true)
  obtain ⟨r, item, -, invalid, -⟩ := @word_lexed_by_grammar ['1', '_', '_', '0'] [')'] (List.cons_ne_nil _ _)
    chars (by decide) (by simp [AtBoundary]) .origin
  rw [item, invalid.2 ⟨fun literal => absurd (isNumber_iff.2 literal) (by decide), looksNumeric_iff.1 rfl⟩]
  rfl

end WasmEngine.Wat
