import WasmEngine.Proofs.Outcome
import WasmEngine.Proofs.Wat.LiteralValues
import WasmEngine.Wat.Parse

/-!
# Memory arguments

The offset and the alignment of an access are spelled inside of words, behind `offset=` and `align=`.  No number
token is lexed there, so that the number is read without a check of its spelling: underscores may stand anywhere in it,
and a plus sign may stand in front of its digits unless it is the first character (`LooseNumber`).  An access takes the
parts that come next, each of which replaces what the parts before it set (`SetsAll`).
-/

namespace WasmEngine

open Wat

/-- A text has a fixed beginning and goes on behind it. -/
theorem Text.after?_eq_some_iff {start s t : String} : Text.after? start s = some t ↔ s = start ++ t := by
  unfold Text.after?
  rw [← String.toList_inj, String.toList_append]
  constructor
  · intro cut
    split_ifs at cut with begins
    obtain ⟨rest, whole⟩ := List.isPrefixOf_iff_prefix.1 begins
    obtain rfl := Option.some.inj cut
    rw [String.toList_ofList, ← whole, ← String.length_toList, List.drop_left]
  · intro whole
    rw [whole, if_pos (List.isPrefixOf_iff_prefix.2 (List.prefix_append _ _)), ← String.length_toList,
      List.drop_left, String.ofList_toList]

namespace Wat

open Outcome

/-! ## Numbers inside of words -/

/-- An unsigned number as it may be spelled inside of a word: an integer when all its underscores are dropped, with
a plus sign in front of the digits or none, but not as the first character. -/
structure LooseNumber (cs : List Char) (n : Nat) : Prop where
  unsigned : cs.head? ≠ some '+'
  integer : LooseInteger (dropUnderscores cs) n
  fits : n < 2 ^ 32

/-- Every underscore stands between two digits, where a character stands in front of the text or none. -/
def Separated : Option Char → List Char → Prop
  | _, [] => True
  | last, c :: cs =>
    (c = '_' → (∃ d ∈ last, DigitOf true d) ∧ ∃ d ∈ cs.head?, DigitOf true d) ∧ Separated (some c) cs

/-- A 32-bit number is read from what spells it loosely. -/
theorem parseU32?_eq_some_iff_loose {t : String} {n : Nat} : parseU32? t = some n ↔ LooseNumber t.toList n := by
  have size : UInt32.size = 2 ^ 32 := rfl
  have smaller : UInt32.size ≤ UInt64.size := by decide
  unfold parseU32?
  split
  · next spelled => exact ⟨nofun, fun number => absurd (by rw [spelled]; rfl) number.unsigned⟩
  · next spelled =>
    refine ⟨nofun, fun number => ?_⟩
    have loose := number.integer
    rw [spelled] at loose
    have noDigit : ¬DigitOf false '-' := fun digit => digit.ne_sign.2 rfl
    cases loose with
    | decimal digits => exact (digits.head.elim noDigit (by decide)).elim
  · next noPlus _ =>
    rw [Option.filter_eq_some_iff, decide_eq_true_eq, magnitude?_eq_some_iff, size]
    have unsigned : t.toList.head? ≠ some '+' := fun first => by
      obtain ⟨cs, spelled⟩ := List.head?_eq_some_iff.1 first
      exact noPlus cs spelled
    exact ⟨fun ⟨⟨integer, _⟩, fits⟩ => ⟨unsigned, integer, fits⟩,
      fun ⟨_, integer, fits⟩ => ⟨⟨integer, by omega⟩, fits⟩⟩

section Separated

variable {hex : Bool} {cs : List Char} {n : Nat}

/-- The underscores of digits stand between digits. -/
theorem Digits.separated (digits : Digits hex cs) (last : Option Char) : Separated last cs := by
  induction digits generalizing last with
  | one digit => exact ⟨fun same => absurd same digit.ne_underscore, trivial⟩
  | more digit _ ih => exact ⟨fun same => absurd same digit.ne_underscore, ih _⟩
  | underscore digit rest ih =>
    obtain ⟨d, _, rfl, first⟩ := rest.head
    exact ⟨fun same => absurd same digit.ne_underscore,
      fun _ => ⟨⟨_, rfl, digit.hexadecimal⟩, d, rfl, first.hexadecimal⟩, ih _⟩

/-- Characters that are digits or separated underscores are digits of the grammar. -/
theorem digits_of_separated : ∀ {cs : List Char} {last : Option Char}, cs ≠ [] → cs.head? ≠ some '_' →
    (∀ c ∈ dropUnderscores cs, DigitOf hex c) → Separated last cs → Digits hex cs
  | [c], _, _, noUnderscore, all, _ =>
    .one (all c (mem_dropUnderscores.2 ⟨List.mem_singleton_self c, fun same => noUnderscore (same ▸ rfl)⟩))
  | c :: d :: cs, last, _, noUnderscore, all, ⟨_, between, separated⟩ => by
    have first : DigitOf hex c :=
      all c (mem_dropUnderscores.2 ⟨List.mem_cons_self, fun same => noUnderscore (same ▸ rfl)⟩)
    have later {e : Char} (inside : e ∈ dropUnderscores (d :: cs)) : DigitOf hex e :=
      all e (dropUnderscores_cons_digit first _ ▸ List.mem_cons_of_mem _ inside)
    by_cases underscore : d = '_'
    · subst underscore
      obtain ⟨-, e, next, digit⟩ := between rfl
      obtain ⟨rest, rfl⟩ := List.head?_eq_some_iff.1 next
      exact .underscore first (digits_of_separated (List.cons_ne_nil _ _)
        (fun same => digit.ne_underscore (Option.some.inj same)) (fun e inside => later inside) separated)
    · exact .more first (digits_of_separated (List.cons_ne_nil _ _)
        (fun same => underscore (Option.some.inj same)) (fun e inside => later inside) ⟨between, separated⟩)

theorem Separated.head (separated : Separated none cs) : cs.head? ≠ some '_' := by
  intro first
  obtain ⟨rest, rfl⟩ := List.head?_eq_some_iff.1 first
  obtain ⟨⟨_, nothing, -⟩, -⟩ := separated.1 rfl
  cases nothing

theorem head_dropUnderscores_of_ne (noUnderscore : cs.head? ≠ some '_') {d : Char} {ds : List Char}
    (dropped : dropUnderscores cs = d :: ds) : ∃ rest, cs = d :: rest ∧ dropUnderscores rest = ds := by
  cases cs with
  | nil => cases dropped
  | cons c cs =>
    have plain : c ≠ '_' := fun same => noUnderscore (same ▸ rfl)
    have kept : dropUnderscores (c :: cs) = c :: dropUnderscores cs := List.filter_cons_of_pos (bne_iff_ne.2 plain)
    cases kept.symm.trans dropped
    exact ⟨cs, rfl, rfl⟩

theorem not_digitOf_x : ¬DigitOf true 'x' := fun digit => absurd (isDigit_iff.2 digit) (by decide)

/-- The prefix of a hexadecimal number is not broken up by separated underscores. -/
theorem Separated.hexadecimal {ds : List Char} (separated : Separated none cs)
    (dropped : dropUnderscores cs = '0' :: 'x' :: ds) :
    ∃ rest, cs = '0' :: 'x' :: rest ∧ dropUnderscores rest = ds ∧ rest.head? ≠ some '_' ∧ Separated (some 'x') rest := by
  obtain ⟨rest, rfl, afterZero⟩ := head_dropUnderscores_of_ne separated.head dropped
  have noUnderscore : rest.head? ≠ some '_' := by
    intro first
    obtain ⟨r, rfl⟩ := List.head?_eq_some_iff.1 first
    obtain ⟨-, d, next, digit⟩ := separated.2.1 rfl
    obtain ⟨r, rfl⟩ := List.head?_eq_some_iff.1 next
    have kept : dropUnderscores ('_' :: d :: r) = d :: dropUnderscores r := dropUnderscores_cons_digit digit r
    cases kept.symm.trans afterZero
    exact not_digitOf_x digit
  obtain ⟨rest, rfl, afterPrefix⟩ := head_dropUnderscores_of_ne noUnderscore afterZero
  refine ⟨rest, rfl, afterPrefix, fun first => ?_, separated.2.2⟩
  obtain ⟨r, rfl⟩ := List.head?_eq_some_iff.1 first
  obtain ⟨⟨_, last, digit⟩, -⟩ := separated.2.2.1 rfl
  cases last
  exact not_digitOf_x digit

/-- The integers of the grammar are those that are spelled without a sign and with their underscores between digits. -/
theorem unsignedInteger_iff_separated :
    UnsignedInteger cs n ↔ LooseInteger (dropUnderscores cs) n ∧ '+' ∉ cs ∧ Separated none cs := by
  have noPlus {hex : Bool} {cs : List Char} (digits : Digits hex cs) : '+' ∉ cs := fun plus =>
    (digits.mem '+' plus).elim (fun digit => digit.ne_sign.1 rfl) (by decide)
  constructor
  · intro integer
    refine ⟨integer.loose, ?_⟩
    cases integer with
    | decimal digits => exact ⟨noPlus digits, digits.separated _⟩
    | hexadecimal digits =>
      exact ⟨List.not_mem_cons_of_ne_of_not_mem (by decide) (List.not_mem_cons_of_ne_of_not_mem (by decide)
          (noPlus digits)),
        fun same => absurd same (by decide), fun same => absurd same (by decide), digits.separated _⟩
  · rintro ⟨loose, noPlus, separated⟩
    have absent : '+' ∉ dropUnderscores cs := fun plus => noPlus (mem_dropUnderscores.1 plus).1
    generalize dropped : dropUnderscores cs = ds at loose absent
    cases loose with
    | decimal loose =>
      cases loose with
      | plain some_ digits =>
        have ne : cs ≠ [] := fun nothing => some_ (by rw [← dropped, nothing]; rfl)
        have grammar : Digits false cs := digits_of_separated ne separated.head (dropped ▸ digits) separated
        exact dropped ▸ .decimal grammar
      | plus => exact absurd List.mem_cons_self absent
    | hexadecimal loose =>
      obtain ⟨rest, rfl, behind, noUnderscore, separated⟩ := separated.hexadecimal dropped
      cases loose with
      | plain some_ digits =>
        have ne : rest ≠ [] := fun nothing => some_ (by rw [← behind, nothing]; rfl)
        have grammar : Digits true rest := digits_of_separated ne noUnderscore (behind ▸ digits) separated
        exact behind ▸ .hexadecimal grammar
      | plus => exact absurd (List.mem_cons_of_mem _ (List.mem_cons_of_mem _ List.mem_cons_self)) absent

end Separated

/-! ## Parts of memory arguments -/

/-- A part of a memory argument. -/
inductive Part where
  | offset
  | align

namespace Part

/-- The beginning of the word of a part. -/
def mark : Part → String
  | .offset => "offset="
  | .align => "align="

/-- What is wrong with a word that begins as a part and does not go on as one. -/
def refusal : Part → ParseErrorKind
  | .offset => .invalidMemoryOffset
  | .align => .invalidAlignment

/-- What a part with a text behind its mark makes of a memory argument: an offset is the number itself, and an
alignment the logarithm of a power of two. -/
inductive Sets : Part → String → MemArg → MemArg → Prop
  | offset {t : String} {n : Nat} {m : MemArg} (number : LooseNumber t.toList n) :
    Sets .offset t m { m with offset := n }
  | align {t : String} {k : Nat} {m : MemArg} (number : LooseNumber t.toList (2 ^ k)) :
    Sets .align t m { m with align := k }

end Part

/-- What expressions that are all parts make of a memory argument, one after the other. -/
inductive SetsAll : List SExpr → MemArg → MemArg → Prop
  | nil {m : MemArg} : SetsAll [] m m
  | cons {e : SExpr} {es : List SExpr} {p : Part} {t : String} {m m' m'' : MemArg}
    (keyword : e.keyword? = some (p.mark ++ t)) (sets : p.Sets t m m') (rest : SetsAll es m' m'') :
    SetsAll (e :: es) m m''

/-- Expressions that do not begin with a part of a memory argument. -/
def Ends (es : List SExpr) : Prop := ∀ e ∈ es.head?, ∀ (p : Part) (t : String), e.keyword? ≠ some (p.mark ++ t)

section Parts

variable {p : Part} {e : SExpr} {es rest : List SExpr} {t : String} {m m' : MemArg}

/-- The alignments that are accepted are the powers of two. -/
theorem isPowerOfTwo_iff {n : Nat} : isPowerOfTwo n = true ↔ n = 2 ^ n.log2 := by
  rw [isPowerOfTwo, Bool.and_eq_true, bne_iff_ne, beq_iff_eq, Nat.one_shiftLeft]
  constructor
  · exact fun both => both.2.symm
  · exact fun power => ⟨fun zero => by simp [zero] at power, power.symm⟩

/-- The memory argument with a part read into it. -/
def Part.set? (p : Part) (t : String) (m : MemArg) : Option MemArg :=
  match p with
  | .offset => (parseU32? t).map fun offset => { m with offset }
  | .align => ((parseU32? t).filter isPowerOfTwo).map fun bytes => { m with align := bytes.log2 }

/-- A part sets its field exactly when its text is accepted. -/
theorem Part.set?_eq_some_iff : p.set? t m = some m' ↔ p.Sets t m m' := by
  cases p with
  | offset =>
    rw [Part.set?, Option.map_eq_some_iff]
    constructor
    · rintro ⟨n, number, rfl⟩
      exact .offset (parseU32?_eq_some_iff_loose.1 number)
    · intro sets
      cases sets with
      | offset number => exact ⟨_, parseU32?_eq_some_iff_loose.2 number, rfl⟩
  | align =>
    rw [Part.set?, Option.map_eq_some_iff]
    constructor
    · rintro ⟨n, read, rfl⟩
      obtain ⟨number, power⟩ := Option.filter_eq_some_iff.1 read
      rw [isPowerOfTwo_iff] at power
      exact .align (power ▸ parseU32?_eq_some_iff_loose.1 number)
    · intro sets
      cases sets with
      | align number =>
        refine ⟨_, Option.filter_eq_some_iff.2 ⟨parseU32?_eq_some_iff_loose.2 number, ?_⟩, ?_⟩
        · rw [isPowerOfTwo_iff, Nat.log2_two_pow]
        · rw [Nat.log2_two_pow]

/-- A part of a memory argument is taken or refused where it stands. -/
theorem takeMemArg_part (keyword : e.keyword? = some (p.mark ++ t)) : takeMemArg m (e :: es) =
    match p.set? t m with
    | some m' => takeMemArg m' es
    | none => .error ⟨p.refusal, e.span⟩ := by
  rw [takeMemArg, keyword]
  cases p with
  | offset =>
    have opens : Text.after? "offset=" ("offset=" ++ t) = some t := Text.after?_eq_some_iff.2 rfl
    simp only [Part.mark, opens, Part.set?]
    cases parseU32? t <;> rfl
  | align =>
    have other : Text.after? "offset=" ("align=" ++ t) = none := by
      rw [Option.eq_none_iff_forall_ne_some]
      intro u same
      have letters := congrArg (fun word => word.toList.head?) (Text.after?_eq_some_iff.1 same)
      simp [String.toList_append] at letters
    have opens : Text.after? "align=" ("align=" ++ t) = some t := Text.after?_eq_some_iff.2 rfl
    simp only [Part.mark, other, opens, Part.set?]
    cases (parseU32? t).filter isPowerOfTwo <;> rfl

/-- A memory argument ends where no part follows. -/
theorem takeMemArg_ends (ends : Ends es) : takeMemArg m es = .ok (m, es) := by
  cases es with
  | nil => rfl
  | cons e es =>
    have noPart := ends e rfl
    cases keyword : e.keyword? with
    | none => simp only [takeMemArg, keyword]
    | some word =>
      have absent (p : Part) : Text.after? p.mark word = none := by
        rw [Option.eq_none_iff_forall_ne_some]
        exact fun t opens => noPart p t (Text.after?_eq_some_iff.1 opens ▸ keyword)
      have offset := absent .offset
      have align := absent .align
      simp only [Part.mark] at offset align
      simp only [takeMemArg, keyword, offset, align]

/-- Expressions begin with a part or with none. -/
theorem part_or_ends (e : SExpr) (es : List SExpr) :
    (∃ (p : Part) (t : String), e.keyword? = some (p.mark ++ t)) ∨ Ends (e :: es) := by
  by_cases part : ∃ (p : Part) (t : String), e.keyword? = some (p.mark ++ t)
  · exact .inl part
  · refine .inr fun e' first p t keyword => part ⟨p, t, ?_⟩
    cases first
    exact keyword

/-- Parts that are set are taken, one after the other. -/
theorem SetsAll.takeMemArg {parts : List SExpr} (sets : SetsAll parts m m') (rest : List SExpr) :
    takeMemArg m (parts ++ rest) = takeMemArg m' rest := by
  induction sets with
  | nil => rfl
  | cons keyword sets _ ih => rw [List.cons_append, takeMemArg_part keyword, Part.set?_eq_some_iff.2 sets, ← ih]

/-- Expressions are parts up to the first one that is none or is refused. -/
theorem exists_setsAll (m : MemArg) (es : List SExpr) : ∃ parts rest m', es = parts ++ rest ∧ SetsAll parts m m' ∧
    (Ends rest ∨ ∃ e es' p t, rest = e :: es' ∧ e.keyword? = some (Part.mark p ++ t) ∧ p.set? t m' = none) := by
  induction es generalizing m with
  | nil => exact ⟨[], [], m, rfl, .nil, .inl nofun⟩
  | cons e es ih =>
    obtain ⟨p, t, keyword⟩ | ends := part_or_ends e es
    · cases set : p.set? t m with
      | some m' =>
        obtain ⟨parts, rest, m'', rfl, sets, stops⟩ := ih m'
        exact ⟨e :: parts, rest, m'', rfl, .cons keyword (Part.set?_eq_some_iff.1 set) sets, stops⟩
      | none => exact ⟨[], e :: es, m, rfl, .nil, .inr ⟨e, es, p, t, rfl, keyword, set⟩⟩
    · exact ⟨[], e :: es, m, rfl, .nil, .inl ends⟩

/-- What is taken of a memory argument is the parts in front, in any order, each accepted. -/
theorem takeMemArg_eq_ok_iff : takeMemArg m es = .ok (m', rest) ↔
    ∃ parts, es = parts ++ rest ∧ SetsAll parts m m' ∧ Ends rest := by
  constructor
  · intro taken
    obtain ⟨parts, rest', m'', rfl, sets, ends | ⟨e, es', p, t, rfl, keyword, refused⟩⟩ := exists_setsAll m es
    · rw [sets.takeMemArg, takeMemArg_ends ends] at taken
      cases taken
      exact ⟨parts, rfl, sets, ends⟩
    · rw [sets.takeMemArg, takeMemArg_part keyword, refused] at taken
      cases taken
  · rintro ⟨parts, rfl, sets, ends⟩
    rw [sets.takeMemArg, takeMemArg_ends ends]

/-- A memory argument is refused at the first part that is not accepted. -/
theorem takeMemArg_eq_error_iff {err : ParseError} : takeMemArg m es = .error err ↔
    ∃ parts e rest m' p t, es = parts ++ e :: rest ∧ SetsAll parts m m' ∧ e.keyword? = some (Part.mark p ++ t) ∧
      (∀ m'', ¬p.Sets t m' m'') ∧ err = ⟨p.refusal, e.span⟩ := by
  constructor
  · intro taken
    obtain ⟨parts, rest, m', rfl, sets, ends | ⟨e, es', p, t, rfl, keyword, refused⟩⟩ := exists_setsAll m es
    · rw [sets.takeMemArg, takeMemArg_ends ends] at taken
      cases taken
    · rw [sets.takeMemArg, takeMemArg_part keyword, refused] at taken
      cases taken
      refine ⟨parts, e, es', m', p, t, rfl, sets, keyword, fun m'' here => ?_, rfl⟩
      exact nomatch refused.symm.trans (Part.set?_eq_some_iff.2 here)
  · rintro ⟨parts, e, es', m', p, t, rfl, sets, keyword, never, rfl⟩
    have refused : p.set? t m' = none :=
      Option.eq_none_iff_forall_ne_some.2 fun m'' set => never m'' (Part.set?_eq_some_iff.1 set)
    rw [sets.takeMemArg, takeMemArg_part keyword, refused]

end Parts

/-- An access to memory is read if the words for its memory argument spell numbers, the last offset and alignment
among them being its own, and is refused at the first word that does not.  A number may be spelled there in all the
ways of other numbers, and in those with a plus sign or with underscores that do not separate digits besides. -/
theorem memory_arguments_read {word : String} {op : Opcode} (known : Opcode.ofMnemonic? word = some op)
    (access : op.immediate = .memArg) (site : SExpr) (i : Items) :
    (∀ node items, parseOp word site i = .ok (node, items) ↔
      ∃ parts rest m, i.rest = parts ++ rest ∧ SetsAll parts ⟨naturalAlignment op, 0⟩ m ∧ Ends rest ∧
        node = plainNode op [] (some m) ∧ items = { i with rest }) ∧
    (∀ err, parseOp word site i = .error err ↔
      ∃ parts e rest m p t, i.rest = parts ++ e :: rest ∧ SetsAll parts ⟨naturalAlignment op, 0⟩ m ∧
        e.keyword? = some (Part.mark p ++ t) ∧ (∀ m', ¬p.Sets t m m') ∧ err = ⟨p.refusal, e.span⟩) ∧
    ∀ (t : String) (n : Nat), UnsignedInteger t.toList n ∧ n < 2 ^ 32 ↔
      LooseNumber t.toList n ∧ '+' ∉ t.toList ∧ Separated none t.toList := by
  have opened : parseOp word site i = takeMemArg ⟨naturalAlignment op, 0⟩ i.rest >>= fun taken =>
      pure (plainNode op [] (some taken.1), { i with rest := taken.2 }) := by
    simp only [parseOp, known, access]
  refine ⟨fun node items => ?_, fun err => ?_, fun t n => ?_⟩
  · rw [opened, bind_eq_ok_iff]
    constructor
    · rintro ⟨⟨m, rest⟩, taken, given⟩
      obtain ⟨parts, here, sets, ends⟩ := takeMemArg_eq_ok_iff.1 taken
      cases given
      exact ⟨parts, rest, m, here, sets, ends, rfl, rfl⟩
    · rintro ⟨parts, rest, m, here, sets, ends, rfl, rfl⟩
      exact ⟨(m, rest), takeMemArg_eq_ok_iff.2 ⟨parts, here, sets, ends⟩, rfl⟩
  · rw [opened, bind_eq_error_iff, takeMemArg_eq_error_iff]
    exact or_iff_left fun ⟨_, _, given⟩ => nomatch given
  · rw [unsignedInteger_iff_separated]
    constructor
    · rintro ⟨⟨integer, noPlus, separated⟩, fits⟩
      exact ⟨⟨fun first => noPlus (List.mem_of_mem_head? first), integer, fits⟩, noPlus, separated⟩
    · rintro ⟨⟨-, integer, fits⟩, noPlus, separated⟩
      exact ⟨⟨integer, noPlus, separated⟩, fits⟩

/-- A load with an offset in hexadecimal and an alignment of a byte. -/
theorem memory_arguments_read_load :
    let word (w : String) : SExpr := .atom ⟨.keyword w, ⟨0, 0, 1, 1⟩⟩
    let load : Opcode := ⟨0x28, some .i32, "load"⟩
    parseOp "i32.load" (word "i32.load") ⟨[word "offset=0x1_0", word "align=1"], ⟨0, 0, 1, 1⟩⟩ =
      .ok (plainNode load [] (some ⟨0, 16⟩), ⟨[], ⟨0, 0, 1, 1⟩⟩) := by
  intro word load
  have known : Opcode.ofMnemonic? "i32.load" = some load := by decide +kernel
  obtain ⟨reads, -, spelled⟩ := memory_arguments_read known rfl (word "i32.load")
    ⟨[word "offset=0x1_0", word "align=1"], ⟨0, 0, 1, 1⟩⟩
  have offset : LooseNumber "0x1_0".toList 16 := by
    have digits : Digits true "1_0".toList := digits_eq_nil_iff.1 (by decide)
    have integer : UnsignedInteger "0x1_0".toList 16 := .hexadecimal digits
    exact ((spelled _ _).1 ⟨integer, by decide⟩).1
  have align : LooseNumber "1".toList (2 ^ 0) := by
    have digits : Digits false "1".toList := digits_eq_nil_iff.1 (by decide)
    have integer : UnsignedInteger "1".toList (2 ^ 0) := .decimal digits
    exact ((spelled _ _).1 ⟨integer, by decide⟩).1
  have sets : SetsAll [word "offset=0x1_0", word "align=1"] ⟨naturalAlignment load, 0⟩ ⟨0, 16⟩ :=
    .cons (p := .offset) (t := "0x1_0") rfl (.offset offset) (.cons (p := .align) (t := "1") rfl (.align align) .nil)
  exact (reads _ _).2 ⟨_, [], _, rfl, sets, nofun, rfl, rfl⟩

/-- A number that begins with an underscore is accepted as an offset. -/
theorem not_wellFormed_offset : ¬∀ t : String,
    (parse ("(module (memory 1) (func (drop (i32.load offset=" ++ t ++ " (i32.const 0)))))")).isOk = true →
      ∃ n, UnsignedInteger t.toList n := by
  intro wellFormed
  have accepted : (parse ("(module (memory 1) (func (drop (i32.load offset=" ++ String.ofList ['_', '5'] ++
      " (i32.const 0)))))")).isOk = true := by
    rw [parse_of_toList (toList_append_ofList (toList_append_ofList String.toList_ofList _) _)]
    decide +kernel
  obtain ⟨n, integer⟩ := wellFormed (String.ofList ['_', '5']) accepted
  rw [String.toList_ofList] at integer
  cases integer with
  | decimal digits =>
    obtain ⟨_, _, same, digit⟩ := digits.head
    cases same
    exact digit.ne_underscore rfl

end Wat

end WasmEngine
