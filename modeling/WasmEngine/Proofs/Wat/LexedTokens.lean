import WasmEngine.Proofs.Wat.Gaps

/-!
# Lexed tokens

Which token a text is lexed as depends on the text alone; of what comes after it, only the next character
counts, which must not go on with the token (`spells_of_lexToken`).  So a lexing step is a gap and a token
behind it (`lexes_of_nextItem?`, `nextItem?_of_lexes`), and it moves past a character even where it fails
(`past_nextItem?`).
-/

namespace WasmEngine.Wat

/-! ## Readers and what they take -/

/-- A reader takes characters as a value, whatever comes before and after them. -/
def Consumes {α : Type} (f : Cursor → Lexed α) (cs : List Char) (a : α) : Prop :=
  ∀ pos rest, f ⟨pos, cs ++ rest⟩ = ⟨.ok a, ⟨pos.steps cs, rest⟩⟩

/-- The longest run of characters in front of one that does not belong to it. -/
theorem run_append {p : Char → Bool} {cs rest : List Char} (all : ∀ c ∈ cs, p c = true)
    (stops : ∀ c ∈ rest.head?, p c = false) (pos : Position) :
    Cursor.run ⟨pos, cs ++ rest⟩ p = cs ∧ Cursor.afterRun ⟨pos, cs ++ rest⟩ p = ⟨pos.steps cs, rest⟩ := by
  have none_ : rest.takeWhile p = [] ∧ rest.dropWhile p = rest := by
    cases rest with
    | nil => exact ⟨rfl, rfl⟩
    | cons c rest =>
      rw [List.takeWhile_cons, List.dropWhile_cons, stops c rfl]
      exact ⟨rfl, rfl⟩
  unfold Cursor.afterRun Cursor.run
  rw [List.takeWhile_append_of_pos all, List.dropWhile_append_of_pos all, none_.1, none_.2, List.append_nil]
  exact ⟨rfl, rfl⟩

/-- A run stops where its characters do. -/
theorem stops_afterRun (c : Cursor) (p : Char → Bool) : ∀ d ∈ (c.afterRun p).rest.head?, p d = false := by
  intro d first
  have stops := List.head?_dropWhile_not p c.rest
  unfold Cursor.afterRun at first
  rw [Option.mem_def.1 first] at stops
  exact stops

/-! ## Strings -/

section Strings

/-- An escape by code point between braces. -/
theorem consumes_unicodeEscape {digits : List Char} {ch : Char}
    (hex : ∀ d ∈ digits, (Text.hexDigit? d).isSome = true)
    (value : (Text.unsigned? 16 UInt32.size digits).bind charOf? = some ch) :
    Consumes unicodeEscape ('\x7b' :: (digits ++ ['\x7d'])) (Text.utf8Bytes ch.toString) := by
  intro pos rest
  have stops : ∀ c ∈ ('\x7d' :: rest).head?, (Text.hexDigit? c).isSome = false := by
    intro c first
    cases first
    rfl
  obtain ⟨run, after⟩ := run_append hex stops (pos.step '\x7b')
  rw [List.cons_append, List.append_assoc, List.singleton_append]
  unfold unicodeEscape
  have advanced : Cursor.advance ⟨pos, '\x7b' :: (digits ++ '\x7d' :: rest)⟩ 1 =
    ⟨pos.step '\x7b', digits ++ '\x7d' :: rest⟩ := rfl
  simp only [advanced, run, after, value]
  rw [Position.steps_cons, Position.steps_append]
  rfl

/-- A Unicode escape that is read consumes its characters, and gives their bytes wherever they stand. -/
theorem consumes_of_unicodeEscape {c next : Cursor} {bytes : List UInt8}
    (gives : unicodeEscape c = ⟨.ok bytes, next⟩) :
    ∃ cs, c.Past cs next ∧ Consumes unicodeEscape cs bytes := by
  obtain ⟨pos, rest⟩ := c
  unfold unicodeEscape at gives
  dsimp only at gives
  split at gives
  · next inner =>
    split at gives
    · next rest' closes =>
      split at gives
      · next ch value =>
        cases gives
        have hex : ∀ d ∈ Cursor.run ⟨pos.step '\x7b', inner⟩ fun d => (Text.hexDigit? d).isSome,
            (Text.hexDigit? d).isSome = true :=
          fun d inside => List.mem_takeWhile_imp (p := fun d => (Text.hexDigit? d).isSome) inside
        refine ⟨_, ?_, consumes_unicodeEscape hex value⟩
        have moved := (Cursor.past_advance ⟨pos, '\x7b' :: inner⟩ 1).trans
          ((Cursor.past_afterRun _ fun d => (Text.hexDigit? d).isSome).trans (Cursor.past_advance _ 1))
        rwa [closes] at moved
      · cases gives
    · cases gives
  · cases gives

/-- An escape other than a Unicode one is a letter or two hexadecimal digits. -/
theorem escape_of_ne {d : Char} (notU : d ≠ 'u') (pos : Position) (rest : List Char) :
    escape ⟨pos, d :: rest⟩ = match letterEscape? d with
      | some b => ⟨.ok [b], ⟨pos.step d, rest⟩⟩
      | none =>
        match Text.hexDigit? d, rest.head?.bind Text.hexDigit? with
        | some high, some low =>
          ⟨.ok [UInt8.ofNat (high * 16 + low)], Cursor.advance ⟨pos, d :: rest⟩ 2⟩
        | _, _ => .fail (.invalidEscape d) pos (Cursor.advance ⟨pos, d :: rest⟩ 2) := by
  unfold escape
  dsimp only
  split
  · next same => cases same
  · next same => exact absurd (List.cons.inj same).1 notU
  · next same =>
    cases same
    rfl

/-- An escape is a letter, two hexadecimal digits, or a code point. -/
theorem consumes_of_escape {c next : Cursor} {bytes : List UInt8} (gives : escape c = ⟨.ok bytes, next⟩) :
    ∃ cs, c.Past cs next ∧ Consumes escape cs bytes := by
  obtain ⟨pos, rest⟩ := c
  cases rest with
  | nil => cases gives
  | cons d rest =>
    by_cases isU : d = 'u'
    · subst isU
      obtain ⟨cs, past, consumes⟩ := consumes_of_unicodeEscape gives
      exact ⟨'u' :: cs, (Cursor.past_advance ⟨pos, 'u' :: rest⟩ 1).trans past, fun pos rest => consumes _ rest⟩
    · rw [escape_of_ne isU] at gives
      split at gives
      · next b letter =>
        cases gives
        refine ⟨[d], Cursor.past_advance ⟨pos, d :: rest⟩ 1, fun pos rest => ?_⟩
        rw [List.singleton_append, escape_of_ne isU, letter]
        rfl
      · next noLetter =>
        split at gives
        · next high low isHigh digit =>
          cases gives
          obtain ⟨l, first, isLow⟩ := Option.bind_eq_some_iff.1 digit
          obtain ⟨rest, rfl⟩ := List.head?_eq_some_iff.1 first
          refine ⟨[d, l], Cursor.past_advance ⟨pos, d :: l :: rest⟩ 2, fun pos rest => ?_⟩
          rw [List.cons_append, List.singleton_append, escape_of_ne isU, noLetter, isHigh, List.head?_cons,
            Option.bind_some, isLow]
          rfl
        · cases gives

/-- What a string is made of after its opening quotation mark, the closing one included: it stands for bytes
wherever it stands, given fuel for each of its characters. -/
def StringTail (cs : List Char) (bytes : List UInt8) : Prop :=
  ∀ start fuel, cs.length ≤ fuel → Consumes (stringBody start fuel) cs bytes

theorem stringTail_quote : StringTail ['"'] [] := by
  intro start fuel enough pos rest
  obtain ⟨fuel, rfl⟩ : ∃ n, fuel = n + 1 := ⟨fuel - 1, by rw [List.length_singleton] at enough; omega⟩
  rfl

/-- After a backslash, the body of a string goes on past its escape. -/
theorem stringBody_backslash (start : Position) (fuel : Nat) (pos : Position) (rest : List Char) :
    stringBody start (fuel + 1) ⟨pos, '\\' :: rest⟩ =
      match (escape ⟨pos.step '\\', rest⟩).result with
      | .error e => ⟨.error e, (escape ⟨pos.step '\\', rest⟩).next⟩
      | .ok bytes => ⟨(stringBody start fuel (escape ⟨pos.step '\\', rest⟩).next).result.map (bytes ++ ·),
          (stringBody start fuel (escape ⟨pos.step '\\', rest⟩).next).next⟩ := rfl

/-- A plain character of a string adds its bytes. -/
theorem stringBody_of_ne {d : Char} (notQuote : d ≠ '"') (notBackslash : d ≠ '\\') (start : Position)
    (fuel : Nat) (pos : Position) (rest : List Char) :
    stringBody start (fuel + 1) ⟨pos, d :: rest⟩ =
      ⟨(stringBody start fuel ⟨pos.step d, rest⟩).result.map (Text.utf8Bytes d.toString ++ ·),
        (stringBody start fuel ⟨pos.step d, rest⟩).next⟩ := by
  rw [stringBody]
  dsimp only
  split
  · next same => cases same
  · next same => exact absurd (List.cons.inj same).1 notQuote
  · next same => exact absurd (List.cons.inj same).1 notBackslash
  · next same =>
    cases same
    rfl

/-- A plain character may stand before the rest of a string. -/
theorem StringTail.char {cs : List Char} {bytes : List UInt8} (tail : StringTail cs bytes) {d : Char}
    (notQuote : d ≠ '"') (notBackslash : d ≠ '\\') :
    StringTail (d :: cs) (Text.utf8Bytes d.toString ++ bytes) := by
  intro start fuel enough pos rest
  rw [List.length_cons] at enough
  obtain ⟨fuel, rfl⟩ : ∃ n, fuel = n + 1 := ⟨fuel - 1, by omega⟩
  rw [List.cons_append, stringBody_of_ne notQuote notBackslash, tail start fuel (by omega)]
  rfl

/-- An escape may stand before the rest of a string. -/
theorem StringTail.escape {cs es : List Char} {bytes escaped : List UInt8} (tail : StringTail cs bytes)
    (consumes : Consumes escape es escaped) : StringTail ('\\' :: (es ++ cs)) (escaped ++ bytes) := by
  intro start fuel enough pos rest
  rw [List.length_cons, List.length_append] at enough
  obtain ⟨fuel, rfl⟩ : ∃ n, fuel = n + 1 := ⟨fuel - 1, by omega⟩
  rw [List.cons_append, List.append_assoc, stringBody_backslash, consumes]
  dsimp only
  rw [tail start fuel (by omega), Position.steps_cons, Position.steps_append]
  rfl

/-- The body of a string that is read is its rest, whatever stands behind it. -/
theorem stringTail_of_stringBody {start : Position} {fuel : Nat} {c next : Cursor} {bytes : List UInt8}
    (gives : stringBody start fuel c = ⟨.ok bytes, next⟩) : ∃ cs, c.Past cs next ∧ StringTail cs bytes := by
  induction fuel generalizing c bytes with
  | zero => cases gives
  | succ fuel ih =>
    obtain ⟨pos, rest⟩ := c
    -- the rest of the string, once its first character or escape is known
    have later {c : Cursor} {first : List UInt8}
        (gives : (⟨(stringBody start fuel c).result.map (first ++ ·), (stringBody start fuel c).next⟩ : Lexed _) =
          ⟨.ok bytes, next⟩) :
        ∃ cs others, bytes = first ++ others ∧ c.Past cs next ∧ StringTail cs others := by
      cases body : stringBody start fuel c with
      | mk result next =>
        rw [body] at gives
        cases result with
        | error e => cases gives
        | ok others =>
          cases gives
          obtain ⟨cs, past, tail⟩ := ih body
          exact ⟨cs, others, rfl, past, tail⟩
    cases rest with
    | nil => cases gives
    | cons d rest =>
      by_cases isQuote : d = '"'
      · subst isQuote
        cases gives
        exact ⟨['"'], Cursor.past_advance ⟨pos, '"' :: rest⟩ 1, stringTail_quote⟩
      by_cases isBackslash : d = '\\'
      · subst isBackslash
        rw [stringBody_backslash] at gives
        cases escapes : escape ⟨pos.step '\\', rest⟩ with
        | mk result mid =>
          rw [escapes] at gives
          cases result with
          | error e => cases gives
          | ok escaped =>
            obtain ⟨cs, others, rfl, past, tail⟩ := later gives
            obtain ⟨es, past', consumes⟩ := consumes_of_escape escapes
            exact ⟨'\\' :: (es ++ cs), (Cursor.past_advance ⟨pos, '\\' :: rest⟩ 1).trans (past'.trans past),
              tail.escape consumes⟩
      · rw [stringBody_of_ne isQuote isBackslash] at gives
        obtain ⟨cs, others, rfl, past, tail⟩ := later gives
        exact ⟨d :: cs, (Cursor.past_advance ⟨pos, d :: rest⟩ 1).trans past, tail.char isQuote isBackslash⟩

/-! Readers of strings move on, also where they fail. -/

/-- Reading a Unicode escape goes forward. -/
theorem reaches_unicodeEscape (c : Cursor) : c.Reaches (unicodeEscape c).next := by
  unfold unicodeEscape
  split
  · have moved := (Cursor.reaches_advance c 1).trans
      ((Cursor.past_afterRun _ fun d => (Text.hexDigit? d).isSome).reaches.trans (Cursor.reaches_advance _ 1))
    dsimp only
    split
    · split
      · exact moved
      · exact moved
    · exact moved
  · exact Cursor.reaches_advance c 1

/-- Reading an escape goes forward. -/
theorem reaches_escape (c : Cursor) : c.Reaches (escape c).next := by
  unfold escape
  split
  · exact .refl c
  · exact (Cursor.reaches_advance c 1).trans (reaches_unicodeEscape _)
  · split
    · exact Cursor.reaches_advance c 1
    · split
      · exact Cursor.reaches_advance c 2
      · exact Cursor.reaches_advance c 2

/-- Reading the body of a string goes forward. -/
theorem reaches_stringBody (start : Position) (fuel : Nat) (c : Cursor) :
    c.Reaches (stringBody start fuel c).next := by
  induction fuel generalizing c with
  | zero => exact .refl c
  | succ fuel ih =>
    unfold stringBody
    split
    · exact .refl c
    · exact Cursor.reaches_advance c 1
    · have escaped := (Cursor.reaches_advance c 1).trans (reaches_escape _)
      dsimp only
      split
      · exact escaped
      · exact escaped.trans (ih _)
    · exact (Cursor.reaches_advance c 1).trans (ih _)

end Strings

/-! ## Tokens -/

/-- A word or string ends here: at the end of the source, a parenthesis, a semicolon or a blank. -/
def AtBoundary (cs : List Char) : Prop := ∀ c ∈ cs.head?, c = '(' ∨ c = ')' ∨ c = ';' ∨ isBlank c = true

/-- What may come right after a token. -/
def TokenKind.MayPrecede : TokenKind → List Char → Prop
  | leftParen, cs => cs.head? ≠ some ';'
  | rightParen, _ => True
  | id _, cs => ∀ c ∈ cs.head?, isIdChar c = false
  | keyword _, cs => AtBoundary cs
  | number _, cs => AtBoundary cs
  | string _, cs => AtBoundary cs

/-- Characters are lexed as a token wherever they stand, if what comes after them may do so. -/
def LexesAs (cs : List Char) (kind : TokenKind) : Prop :=
  ∀ pos rest, kind.MayPrecede rest → nextItem? ⟨pos, cs ++ rest⟩ =
    some ⟨.ok ⟨kind, pos.spanTo (pos.steps cs)⟩, ⟨pos.steps cs, rest⟩⟩

theorem TokenKind.mayPrecede_nil (kind : TokenKind) : kind.MayPrecede [] := by
  cases kind <;> first | exact trivial | nofun

theorem isIdChar_of_isBlank {c : Char} (blank : isBlank c = true) : isIdChar c = false := by
  unfold isBlank at blank
  simp only [Bool.or_eq_true, beq_iff_eq, or_assoc] at blank
  rcases blank with rfl | rfl | rfl | rfl | rfl <;> rfl

/-- A word ends where a token may end. -/
theorem AtBoundary.stops {cs : List Char} (boundary : AtBoundary cs) : ∀ c ∈ cs.head?, isIdChar c = false := by
  intro c first
  rcases boundary c first with rfl | rfl | rfl | blank
  · rfl
  · rfl
  · rfl
  · exact isIdChar_of_isBlank blank

/-- A blank may follow every token. -/
theorem mayPrecede_of_isBlank (kind : TokenKind) {c : Char} (blank : isBlank c = true) (cs : List Char) :
    kind.MayPrecede (c :: cs) := by
  have boundary : AtBoundary (c :: cs) := by
    intro d first
    cases first
    exact .inr (.inr (.inr blank))
  cases kind with
  | leftParen =>
    intro same
    cases same
    cases blank
  | rightParen => exact trivial
  | id name => exact boundary.stops
  | keyword word => exact boundary
  | number word => exact boundary
  | string bytes => exact boundary

section Boundaries

variable {start : Position} {c next : Cursor} {r : Except LexErrorKind TokenKind} {kind : TokenKind}

/-- Looking for a boundary takes nothing. -/
theorem next_atBoundary (start : Position) (r : Except LexErrorKind TokenKind) (c : Cursor) :
    (atBoundary start r c).next = c := by
  unfold atBoundary
  cases r <;> dsimp only <;> split <;> first | rfl | split <;> rfl

/-- What is read before the end of a token is the token. -/
theorem atBoundary_of_atBoundary (boundary : AtBoundary c.rest) : atBoundary start r c =
    match r with
    | .ok kind => ⟨.ok kind, c⟩
    | .error err => .fail err start c := by
  obtain ⟨pos, rest⟩ := c
  cases rest with
  | nil => rfl
  | cons d rest =>
    have ends : (d = '(' || d = ')' || d = ';' || isBlank d) = true := by
      simpa [or_assoc] using boundary d rfl
    exact if_pos ends

/-- A token at a boundary is what was read, if there is one. -/
theorem atBoundary_eq_ok_iff : atBoundary start r c = ⟨.ok kind, next⟩ ↔
    r = .ok kind ∧ AtBoundary c.rest ∧ next = c := by
  constructor
  · intro gives
    have boundary : AtBoundary c.rest := by
      obtain ⟨pos, rest⟩ := c
      intro d first
      obtain ⟨rest, rfl⟩ := List.head?_eq_some_iff.1 first
      by_cases ends : (d = '(' || d = ')' || d = ';' || isBlank d) = true
      · simpa [or_assoc] using ends
      · unfold atBoundary at gives
        dsimp only at gives
        rw [if_neg ends] at gives
        cases gives
    rw [atBoundary_of_atBoundary boundary] at gives
    cases r with
    | error err => cases gives
    | ok kind =>
      cases gives
      exact ⟨rfl, boundary, rfl⟩
  · rintro ⟨rfl, boundary, rfl⟩
    exact atBoundary_of_atBoundary boundary

end Boundaries

/-! ## From tokens to characters and back -/

section LexesAs

variable {kind : TokenKind}

/-- Where no gap stands, the next item is the token there. -/
theorem nextItem?_of_noGap {d : Char} {rest : List Char} (noGap : NoGap (d :: rest)) (pos : Position) :
    nextItem? ⟨pos, d :: rest⟩ = some
      ⟨(lexToken ⟨pos, d :: rest⟩ d).result.map fun kind =>
          ⟨kind, pos.spanTo (lexToken ⟨pos, d :: rest⟩ d).next.pos⟩,
        (lexToken ⟨pos, d :: rest⟩ d).next⟩ := by
  unfold nextItem?
  dsimp only
  rw [skipGap_of_noGap pos noGap]

/-- What is lexed as a token behind no gap is the next token. -/
theorem lexesAs_of_lexToken {d : Char} {cs : List Char}
    (noGap : ∀ rest, kind.MayPrecede rest → NoGap (d :: (cs ++ rest)))
    (lexed : ∀ pos rest, kind.MayPrecede rest →
      lexToken ⟨pos, d :: (cs ++ rest)⟩ d = ⟨.ok kind, ⟨pos.steps (d :: cs), rest⟩⟩) : LexesAs (d :: cs) kind := by
  intro pos rest precedes
  have next := nextItem?_of_noGap (noGap rest precedes) pos
  rw [lexed pos rest precedes] at next
  exact next

theorem noGap_of_ne {d : Char} (notBlank : isBlank d = false) (notSemicolon : d ≠ ';') (notParen : d ≠ '(')
    (cs : List Char) : NoGap (d :: cs) :=
  ⟨notBlank, fun same => (same.elim notSemicolon notParen).elim⟩

/-- No gap begins with a character of a word. -/
theorem noGap_of_isIdChar {d : Char} (idChar : isIdChar d = true) (cs : List Char) : NoGap (d :: cs) := by
  have other {c : Char} (not : isIdChar c = false) : d ≠ c := by
    rintro rfl
    exact Bool.false_ne_true (not.symm.trans idChar)
  refine noGap_of_ne ?_ (other rfl) (other rfl) cs
  cases blank : isBlank d with
  | false => rfl
  | true => exact absurd rfl (other (isIdChar_of_isBlank blank))

/-- An opening parenthesis is a token. -/
theorem lexesAs_leftParen : LexesAs ['('] .leftParen :=
  lexesAs_of_lexToken (fun _ precedes => ⟨rfl, fun _ => precedes⟩) fun _ _ _ => rfl

/-- A closing parenthesis is a token. -/
theorem lexesAs_rightParen : LexesAs [')'] .rightParen :=
  lexesAs_of_lexToken (fun _ _ => noGap_of_ne rfl (by decide) (by decide) _) fun _ _ _ => rfl

/-- A string is a token, whatever stands behind it. -/
theorem lexesAs_string {cs : List Char} {bytes : List UInt8} (tail : StringTail cs bytes) :
    LexesAs ('"' :: cs) (.string bytes) := by
  refine lexesAs_of_lexToken (fun _ _ => noGap_of_ne rfl (by decide) (by decide) _) fun pos rest precedes => ?_
  have body := tail pos (('"' :: (cs ++ rest)).length + 1)
    (by rw [List.length_cons, List.length_append]; omega) (pos.step '"') rest
  have closes : atBoundary pos (.ok (.string bytes)) ⟨(pos.step '"').steps cs, rest⟩ = _ :=
    atBoundary_of_atBoundary precedes
  have advanced : Cursor.advance ⟨pos, '"' :: (cs ++ rest)⟩ 1 = ⟨pos.step '"', cs ++ rest⟩ := rfl
  unfold lexToken
  rw [if_neg (by decide), if_neg (by decide), if_pos rfl]
  simp only [advanced, body, closes]
  rfl

/-- A name goes as far as the characters of names. -/
theorem lexesAs_id {name : List Char} (some_ : name ≠ []) (chars : ∀ c ∈ name, isIdChar c = true) :
    LexesAs ('$' :: name) (.id (String.ofList name)) := by
  refine lexesAs_of_lexToken (fun _ _ => noGap_of_isIdChar rfl _) fun pos rest precedes => ?_
  obtain ⟨run, after⟩ := run_append chars precedes (pos.step '$')
  have isSome : name.isEmpty = false := by
    cases name with
    | nil => exact absurd rfl some_
    | cons => rfl
  unfold lexToken
  have advanced : Cursor.advance ⟨pos, '$' :: (name ++ rest)⟩ 1 = ⟨pos.step '$', name ++ rest⟩ := rfl
  rw [if_neg (by decide), if_neg (by decide), if_neg (by decide), if_pos rfl]
  simp only [advanced, run, after, isSome, Bool.false_eq_true, if_false, Position.steps_cons]

/-- A word is classified, whatever it is. -/
theorem lexToken_of_word {d : Char} {cs rest : List Char} (notDollar : d ≠ '$')
    (chars : ∀ c ∈ d :: cs, isIdChar c = true) (boundary : AtBoundary rest) (pos : Position) :
    lexToken ⟨pos, d :: (cs ++ rest)⟩ d =
      ⟨(classify (d :: cs)).mapError (⟨·, pos.spanTo (pos.steps (d :: cs))⟩), ⟨pos.steps (d :: cs), rest⟩⟩ := by
  have idChar := chars d List.mem_cons_self
  have other {c : Char} (not : isIdChar c = false) : d ≠ c := by
    rintro rfl
    exact Bool.false_ne_true (not.symm.trans idChar)
  obtain ⟨run, after⟩ := run_append chars boundary.stops pos
  rw [List.cons_append] at run after
  unfold lexToken
  rw [if_neg (other rfl), if_neg (other rfl), if_neg (other rfl), if_neg notDollar, if_pos idChar, run, after]
  refine (atBoundary_of_atBoundary boundary).trans ?_
  cases classify (d :: cs) <;> rfl

/-- What may follow a word is at a boundary. -/
theorem atBoundary_of_classify {word cs : List Char} (classified : classify word = .ok kind)
    (precedes : kind.MayPrecede cs) : AtBoundary cs := by
  unfold classify at classified
  split at classified
  · cases classified
    exact precedes
  · split at classified
    · cases classified
    · cases classified
      exact precedes

/-- What is at a boundary may follow a word. -/
theorem mayPrecede_of_classify {word cs : List Char} (classified : classify word = .ok kind)
    (boundary : AtBoundary cs) : kind.MayPrecede cs := by
  unfold classify at classified
  split at classified
  · cases classified
    exact boundary
  · split at classified
    · cases classified
    · cases classified
      exact boundary

/-- A word is a token of its class, where no word character follows. -/
theorem lexesAs_word {d : Char} {cs : List Char} (notDollar : d ≠ '$')
    (chars : ∀ c ∈ d :: cs, isIdChar c = true) (classified : classify (d :: cs) = .ok kind) :
    LexesAs (d :: cs) kind := by
  refine lexesAs_of_lexToken (fun _ _ => noGap_of_isIdChar (chars d List.mem_cons_self) _)
    fun pos rest precedes => ?_
  rw [lexToken_of_word notDollar chars (atBoundary_of_classify classified precedes), classified]
  rfl

/-- What a token took is lexed as that token wherever it stands. -/
theorem spells_of_lexToken {c next : Cursor} {d : Char} {rest : List Char} (here : c.rest = d :: rest)
    (noGap : NoGap c.rest) (gives : lexToken c d = ⟨.ok kind, next⟩) :
    ∃ cs, cs ≠ [] ∧ c.Past cs next ∧ kind.MayPrecede next.rest ∧ LexesAs cs kind := by
  obtain ⟨pos, rest'⟩ := c
  obtain rfl : rest' = d :: rest := here
  have first := Cursor.past_advance ⟨pos, d :: rest⟩ 1
  unfold lexToken at gives
  split at gives
  · next isParen =>
    subst isParen
    cases gives
    exact ⟨['('], List.cons_ne_nil _ _, first, noGap.2 (.inr rfl), lexesAs_leftParen⟩
  split at gives
  · next isParen =>
    subst isParen
    cases gives
    exact ⟨[')'], List.cons_ne_nil _ _, first, trivial, lexesAs_rightParen⟩
  split at gives
  · next isQuote =>
    subst isQuote
    cases body : stringBody pos (('"' :: rest).length + 1) (Cursor.advance ⟨pos, '"' :: rest⟩ 1) with
    | mk result mid =>
      dsimp only at gives
      rw [body] at gives
      cases result with
      | error err => cases gives
      | ok bytes =>
        obtain ⟨same, boundary, rfl⟩ := atBoundary_eq_ok_iff.1 gives
        cases same
        obtain ⟨cs, past, tail⟩ := stringTail_of_stringBody body
        exact ⟨'"' :: cs, List.cons_ne_nil _ _, first.trans past, boundary, lexesAs_string tail⟩
  split at gives
  · next isDollar =>
    subst isDollar
    dsimp only at gives
    split at gives
    · cases gives
    · next some_ =>
      cases gives
      refine ⟨_, List.cons_ne_nil _ _, first.trans (Cursor.past_afterRun _ isIdChar), stops_afterRun _ _,
        lexesAs_id (fun none_ => some_ (congrArg List.isEmpty none_)) fun c inside =>
          List.mem_takeWhile_imp inside⟩
  split at gives
  · next notDollar idChar =>
    obtain ⟨classified, boundary, rfl⟩ := atBoundary_eq_ok_iff.1 gives
    have run : Cursor.run ⟨pos, d :: rest⟩ isIdChar = d :: rest.takeWhile isIdChar := by
      unfold Cursor.run
      rw [List.takeWhile_cons_of_pos idChar]
    have chars : ∀ c ∈ Cursor.run ⟨pos, d :: rest⟩ isIdChar, isIdChar c = true :=
      fun c inside => List.mem_takeWhile_imp inside
    have past := Cursor.past_afterRun ⟨pos, d :: rest⟩ isIdChar
    rw [run] at classified chars past
    exact ⟨_, List.cons_ne_nil _ _, past, mayPrecede_of_classify classified boundary,
      lexesAs_word notDollar chars classified⟩
  · cases gives

end LexesAs

/-! ## Items -/

/-- A token behind a gap, and where the lexer goes on after it. -/
inductive Lexes (c : Cursor) (t : Token) (next : Cursor) : Prop
  | intro (mid : Cursor) (gap text : List Char) (skipped : c.Past gap mid) (read : mid.Past text next)
    (layout : Layout gap) (some_ : text ≠ []) (lexes : LexesAs text t.kind)
    (precedes : t.kind.MayPrecede next.rest) (span : t.span = mid.pos.spanTo next.pos)

section Items

variable {c next : Cursor} {token : Token}

/-- Before the next token block comments are too deep to be counted. -/
def Cursor.Deep (c : Cursor) : Prop :=
  2 ^ 32 ≤ c.rest.length ∧ ∃ item, nextItem? c = some item ∧ item.overflows = true

/-- A comment nested too deep to be counted is found from where the gap begins. -/
theorem deep_of_tooDeep {pos : Position} {cs : List Char} (deep : TooDeep pos 0 cs (skipGap pos .blank cs)) :
    Cursor.Deep ⟨pos, cs⟩ := by
  refine ⟨deep.length_le, ?_⟩
  unfold nextItem?
  dsimp only
  generalize skipGap pos .blank cs = r at deep
  cases deep with
  | intro => exact ⟨_, rfl, Bool.or_true _⟩

/-- A gap in front makes no difference to what comes next. -/
theorem nextItem?_layout {gap : List Char} (layout : Layout gap) (pos : Position) (rest : List Char) :
    nextItem? ⟨pos, gap ++ rest⟩ = nextItem? ⟨pos.steps gap, rest⟩ ∨ Cursor.Deep ⟨pos, gap ++ rest⟩ := by
  refine (skipGap_layout pos layout rest).imp (fun same => ?_) deep_of_tooDeep
  unfold nextItem?
  dsimp only
  rw [same]

/-- The lexer ends only where nothing but a gap is left. -/
theorem lastLayout_of_nextItem? (none_ : nextItem? c = none) : LastLayout c.rest := by
  obtain ⟨pos, rest⟩ := c
  have skips := skipsTo pos rest
  unfold nextItem? at none_
  cases same : skipGap pos .blank rest with
  | mk result mid =>
    rw [same] at skips
    dsimp only at none_
    rw [same] at none_
    cases skips with
    | @stops gap rest layout noGap =>
      cases rest with
      | nil => exact .closed (by rwa [List.append_nil])
      | cons d rest => cases none_
    | ends last => exact last
    | fails => cases none_
    | deep deep =>
      cases deep
      cases none_

/-- Behind a layout that ends the source there is no token. -/
theorem nextItem?_of_lastLayout (last : LastLayout c.rest) : nextItem? c = none ∨ c.Deep := by
  obtain ⟨pos, rest⟩ := c
  refine (skipGap_lastLayout pos last).imp (fun same => ?_) deep_of_tooDeep
  unfold nextItem?
  dsimp only
  rw [same]

/-- The next token is found only where a token stands behind a gap. -/
theorem lexes_of_nextItem? (gives : nextItem? c = some ⟨.ok token, next⟩) : Lexes c token next := by
  obtain ⟨pos, rest⟩ := c
  have skips := skipsTo pos rest
  unfold nextItem? at gives
  cases same : skipGap pos .blank rest with
  | mk result mid =>
    rw [same] at skips
    dsimp only at gives
    rw [same] at gives
    cases skips with
    | ends => cases gives
    | fails => cases gives
    | deep deep =>
      cases deep
      cases gives
    | @stops gap rest layout noGap =>
      cases rest with
      | nil => cases gives
      | cons d rest =>
        dsimp only at gives
        cases lexed : lexToken ⟨pos.steps gap, d :: rest⟩ d with
        | mk result after =>
          rw [lexed] at gives
          cases result with
          | error err => cases gives
          | ok kind =>
            cases gives
            obtain ⟨text, some_, past, precedes, lexes⟩ := spells_of_lexToken rfl noGap lexed
            exact .intro _ gap text (Cursor.past_append pos gap (d :: rest)) past layout some_ lexes precedes rfl

/-- A token behind its layout is the next item, if the comments can be counted. -/
theorem nextItem?_of_lexes (lexes : Lexes c token next) : nextItem? c = some ⟨.ok token, next⟩ ∨ c.Deep := by
  obtain ⟨mid, gap, text, skipped, read, layout, some_, lexes, precedes, span⟩ := lexes
  have found := nextItem?_layout layout c.pos mid.rest
  rwa [← skipped.rest_eq, ← skipped.pos_eq, read.rest_eq, lexes mid.pos next.rest precedes, ← read.eq,
    ← read.pos_eq, ← span] at found

theorem afterRun_of_pos {p : Char → Bool} {d : Char} (first : p d = true) (pos : Position) (rest : List Char) :
    Cursor.afterRun ⟨pos, d :: rest⟩ p = Cursor.afterRun ⟨pos.step d, rest⟩ p := by
  unfold Cursor.afterRun Cursor.run
  rw [List.takeWhile_cons_of_pos first, List.dropWhile_cons_of_pos first]
  rfl

/-- Every token and every error takes a character. -/
theorem reaches_lexToken (pos : Position) (d : Char) (rest : List Char) :
    Cursor.Reaches ⟨pos.step d, rest⟩ (lexToken ⟨pos, d :: rest⟩ d).next := by
  have advanced : Cursor.advance ⟨pos, d :: rest⟩ 1 = ⟨pos.step d, rest⟩ := rfl
  unfold lexToken
  rw [advanced]
  split
  · exact .refl _
  split
  · exact .refl _
  split
  · dsimp only
    split
    · exact reaches_stringBody _ _ _
    · rw [next_atBoundary]
      exact reaches_stringBody _ _ _
  split
  · dsimp only
    split
    · exact (Cursor.past_afterRun _ _).reaches
    · exact (Cursor.past_afterRun _ _).reaches
  split
  · next idChar =>
    rw [next_atBoundary, afterRun_of_pos idChar]
    exact (Cursor.past_afterRun _ _).reaches
  · exact .refl _

/-- From one token or error to the next the lexer moves past a character. -/
theorem past_nextItem? {item : Lexed Token} (gives : nextItem? c = some item) :
    ∃ cs, cs ≠ [] ∧ c.Past cs item.next := by
  obtain ⟨pos, rest⟩ := c
  have skips := skipsTo pos rest
  unfold nextItem? at gives
  cases same : skipGap pos .blank rest with
  | mk result mid =>
    rw [same] at skips
    dsimp only at gives
    rw [same] at gives
    cases skips with
    | ends => cases gives
    | deep deep =>
      obtain @⟨gap, rest, deep⟩ := deep
      cases gives
      have some_ : gap ≠ [] := fun none_ => by
        rw [none_] at deep
        exact absurd deep (by decide)
      exact ⟨gap, some_, Cursor.past_append pos gap _⟩
    | @fails gap rest =>
      cases gives
      exact ⟨gap ++ '(' :: rest, List.append_ne_nil_of_right_ne_nil _ (List.cons_ne_nil _ _),
        (List.append_nil _).symm, rfl⟩
    | @stops gap rest =>
      cases rest with
      | nil => cases gives
      | cons d rest =>
        cases gives
        obtain ⟨cs, past⟩ := reaches_lexToken (pos.steps gap) d rest
        have first : Cursor.Past ⟨pos.steps gap, d :: rest⟩ [d] ⟨(pos.steps gap).step d, rest⟩ := ⟨rfl, rfl⟩
        exact ⟨gap ++ ([d] ++ cs), by simp, (Cursor.past_append pos gap (d :: rest)).trans (first.trans past)⟩

end Items

end WasmEngine.Wat
