import WasmEngine.Proofs.Wat.TokenTiling

/-!
# Spelling tokens

Every token that the lexer gives can be spelled again: tokens after blanks, with the bytes of strings as
escapes, are lexed to the same tokens (`exists_spelled`).
-/

namespace WasmEngine.Wat

open Outcome

/-! ## Spellings -/

/-- A byte as an escape of two hexadecimal digits. -/
def hexEscape (b : UInt8) : List Char :=
  ['\\', Nat.digitChar (b.toNat / 16), Nat.digitChar (b.toNat % 16)]

/-- The characters of a token. -/
def TokenKind.spelled : TokenKind → List Char
  | leftParen => ['(']
  | rightParen => [')']
  | keyword word => word.toList
  | id name => '$' :: name.toList
  | string bytes => '"' :: (bytes.flatMap hexEscape ++ ['"'])
  | number spelling => spelling.toList

/-- Tokens in a row, each after a blank. -/
def spelledAll (kinds : List TokenKind) : List Char := kinds.flatMap fun kind => ' ' :: kind.spelled

/-- A token other than a parenthesis that has a spelling. -/
inductive TokenKind.Spellable : TokenKind → Prop
  | word {d : Char} {rest : List Char} {kind : TokenKind} (first : d ≠ '$')
    (chars : ∀ c ∈ d :: rest, isIdChar c = true) (classified : classify (d :: rest) = .ok kind) :
    Spellable kind
  | id {name : String} (some_ : name.toList ≠ []) (chars : ∀ c ∈ name.toList, isIdChar c = true) :
    Spellable (.id name)
  | string (bytes : List UInt8) : Spellable (.string bytes)

/-- A token that has a spelling. -/
def TokenKind.Lexable (kind : TokenKind) : Prop :=
  kind = .leftParen ∨ kind = .rightParen ∨ kind.Spellable

/-- A word is spelled as it stands. -/
theorem spelled_of_classify {word : List Char} {kind : TokenKind} (classified : classify word = .ok kind) :
    kind.spelled = word ∧ kind ≠ .leftParen ∧ kind ≠ .rightParen := by
  unfold classify at classified
  split at classified
  · cases classified
    exact ⟨String.toList_ofList, nofun, nofun⟩
  · split at classified
    · cases classified
    · cases classified
      exact ⟨String.toList_ofList, nofun, nofun⟩

/-- No parenthesis has a spelling as a word, name or string. -/
theorem TokenKind.Spellable.proper {kind : TokenKind} (spellable : kind.Spellable) :
    kind ≠ .leftParen ∧ kind ≠ .rightParen := by
  cases spellable with
  | word _ _ classified => exact (spelled_of_classify classified).2
  | id => exact ⟨nofun, nofun⟩
  | string => exact ⟨nofun, nofun⟩

/-! ## What the lexer gives -/

/-- What is found at a boundary is what was read. -/
theorem result_of_atBoundary {start : Position} {r : Except LexErrorKind TokenKind} {c : Cursor}
    {kind : TokenKind} (gives : (atBoundary start r c).result = .ok kind) : r = .ok kind := by
  unfold atBoundary at gives
  cases r with
  | error e =>
    dsimp only at gives
    split at gives
    · cases gives
    · split at gives <;> cases gives
  | ok k =>
    dsimp only at gives
    split at gives
    · exact congrArg Except.ok (Except.ok.inj gives)
    · split at gives
      · exact congrArg Except.ok (Except.ok.inj gives)
      · cases gives

/-- A token that the lexer gives has a spelling. -/
theorem lexable_of_lexToken {c : Cursor} {d : Char} {rest : List Char} {kind : TokenKind}
    (here : c.rest = d :: rest) (gives : (lexToken c d).result = .ok kind) : kind.Lexable := by
  unfold lexToken at gives
  split at gives
  · cases gives
    exact .inl rfl
  split at gives
  · cases gives
    exact .inr (.inl rfl)
  refine .inr (.inr ?_)
  split at gives
  · dsimp only at gives
    split at gives
    · cases gives
    · cases result_of_atBoundary gives
      exact .string _
  split at gives
  · dsimp only at gives
    split at gives
    · cases gives
    · next some_ =>
      cases gives
      refine .id ?_ ?_
      · rw [String.toList_ofList]
        simpa using some_
      · rw [String.toList_ofList]
        exact fun ch inside => List.mem_takeWhile_imp inside
  next notDollar =>
  split at gives
  · next isId =>
    have classified := result_of_atBoundary gives
    have run : c.run isIdChar = d :: rest.takeWhile isIdChar := by
      unfold Cursor.run
      rw [here, List.takeWhile_cons, if_pos isId]
    rw [run] at classified
    refine .word notDollar (List.forall_mem_cons.2 ⟨isId, fun ch inside => ?_⟩) classified
    exact List.mem_takeWhile_imp inside
  · cases gives

/-- The tokens of a run can be read. -/
theorem lexable_of_runs {c : Cursor} {items : List (Except LexError Token)} (runs : Runs c items) {t : Token}
    (listed : .ok t ∈ items) : t.kind.Lexable := by
  induction runs with
  | done => cases listed
  | overflow => cases List.mem_singleton.1 listed
  | item next _ _ _ _ ih =>
    obtain here | there := List.mem_cons.1 listed
    · unfold nextItem? at next
      split at next
      · cases next
        cases here
      · split at next
        · cases next
        · next d rest split =>
          cases next
          dsimp only at here
          cases gives : (lexToken _ d).result with
          | error e =>
            rw [gives] at here
            cases here
          | ok kind =>
            rw [gives] at here
            cases here
            exact lexable_of_lexToken split gives
    · exact ih there

/-- All tokens of a source have spellings, and there is at most one more of them than characters. -/
theorem lexable_of_tokenise {source : String} {ts : List Token} (tokens : tokenise source = .ok ts) :
    (∀ t ∈ ts, t.kind.Lexable) ∧ ts.length ≤ source.length + 1 :=
  ⟨fun _ listed => lexable_of_runs (runs_of_tokenise tokens) (List.mem_map_of_mem listed),
    Nat.le_succ_of_le (length_le_of_tokenise tokens)⟩

/-! ## Lexing a spelling -/

theorem hexDigit?_digitChar : ∀ n : Fin 16, Text.hexDigit? (Nat.digitChar n) = some n.val ∧
    letterEscape? (Nat.digitChar n) = none ∧ Nat.digitChar n ≠ 'u' := by
  decide

/-- An escape gives the byte that it stands for. -/
theorem consumes_hexEscape (b : UInt8) :
    Consumes escape [Nat.digitChar (b.toNat / 16), Nat.digitChar (b.toNat % 16)] [b] := by
  intro pos rest
  have small := b.toNat_lt
  obtain ⟨high, letter, notU⟩ := hexDigit?_digitChar ⟨b.toNat / 16, by omega⟩
  obtain ⟨low, -, -⟩ := hexDigit?_digitChar ⟨b.toNat % 16, by omega⟩
  dsimp only at high letter notU low
  have byte : UInt8.ofNat (b.toNat / 16 * 16 + b.toNat % 16) = b := by
    rw [Nat.div_add_mod', UInt8.ofNat_toNat]
  rw [List.cons_append, List.singleton_append, escape_of_ne notU, letter, high, List.head?_cons, Option.bind_some, low]
  dsimp only
  rw [byte]
  rfl

/-- A string of escapes gives the bytes that they stand for. -/
theorem stringTail_hexEscapes (bytes : List UInt8) : StringTail (bytes.flatMap hexEscape ++ ['"']) bytes := by
  induction bytes with
  | nil => exact stringTail_quote
  | cons b bytes ih =>
    rw [List.flatMap_cons, List.append_assoc]
    exact ih.escape (consumes_hexEscape b)

/-- A token is lexed from its spelling. -/
theorem lexesAs_spelled {kind : TokenKind} (lexable : kind.Lexable) :
    kind.spelled ≠ [] ∧ LexesAs kind.spelled kind := by
  obtain rfl | rfl | spellable := lexable
  · exact ⟨List.cons_ne_nil _ _, lexesAs_leftParen⟩
  · exact ⟨List.cons_ne_nil _ _, lexesAs_rightParen⟩
  cases spellable with
  | word first chars classified =>
    rw [(spelled_of_classify classified).1]
    exact ⟨List.cons_ne_nil _ _, lexesAs_word first chars classified⟩
  | @id name some_ chars =>
    have lexes := lexesAs_id some_ chars
    rw [String.ofList_toList] at lexes
    exact ⟨List.cons_ne_nil _ _, lexes⟩
  | string bytes => exact ⟨List.cons_ne_nil _ _, lexesAs_string (stringTail_hexEscapes bytes)⟩

/-- Spellings after blanks are lexed as the tokens that they spell. -/
theorem hasKinds_spelledAll {kinds : List TokenKind} (lexable : ∀ kind ∈ kinds, kind.Lexable) :
    HasKinds (spelledAll kinds) kinds := by
  induction kinds with
  | nil => exact fun pos => ⟨[], .done (.closed .nil), rfl⟩
  | cons kind kinds ih =>
    obtain ⟨here, others⟩ := List.forall_mem_cons.1 lexable
    obtain ⟨some_, lexes⟩ := lexesAs_spelled here
    have precedes : kind.MayPrecede (spelledAll kinds) := by
      cases kinds with
      | nil => exact kind.mayPrecede_nil
      | cons => exact mayPrecede_of_isBlank kind rfl _
    exact HasKinds.token (.blank rfl .nil) some_ lexes precedes (ih others)

/-- Tokens that have spellings are what some source is made of. -/
theorem exists_spelled {kinds : List TokenKind} (lexable : ∀ kind ∈ kinds, kind.Lexable) :
    ∃ source : String, HasKinds source.toList kinds := by
  refine ⟨String.ofList (spelledAll kinds), ?_⟩
  rw [String.toList_ofList]
  exact hasKinds_spelledAll lexable

end WasmEngine.Wat
