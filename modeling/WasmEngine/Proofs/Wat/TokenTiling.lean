import Mathlib.Data.String.Basic
import WasmEngine.Proofs.Outcome
import WasmEngine.Proofs.Wat.LexedTokens

/-!
# Tokens tile their source

The lexer goes through a source from start to end (`Runs`), and where it meets no error, gaps and tokens take
turns (`Tiled`).  So the tokens of a source and the gaps around them make up all of it, and the text of each
token alone is lexed as that token.
-/

namespace WasmEngine.Wat

/-! ## Errors of the lexer -/

/-- A stretch that a cursor passes on its way to another one. -/
def Cursor.Passes (c next : Cursor) (s : Span) : Prop :=
  ∃ first last, c.Reaches first ∧ first.Reaches last ∧ last.Reaches next ∧ s = first.pos.spanTo last.pos

/-- If a step fails, it is not for an overflow, and the error stands where the lexer came by. -/
def Lexed.FailsFrom {α : Type} (c : Cursor) (l : Lexed α) : Prop :=
  ∀ e, l.result = .error e → e.kind ≠ .overflow ∧ c.Passes l.next e.span

section FailsFrom

variable {α : Type} {c c' next : Cursor} {kind : LexErrorKind}

/-- A span passed over from further on is passed over from here. -/
theorem Cursor.Passes.after {s : Span} (passes : c'.Passes next s) (reaches : c.Reaches c') : c.Passes next s :=
  let ⟨first, last, reaches', on, toEnd, same⟩ := passes
  ⟨first, last, reaches.trans reaches', on, toEnd, same⟩

/-- A failure from further on is one from here. -/
theorem Lexed.FailsFrom.after {l : Lexed α} (fails : l.FailsFrom c') (reaches : c.Reaches c') : l.FailsFrom c :=
  fun e error => (fails e error).imp id (·.after reaches)

theorem failsFrom_ok {a : α} : Lexed.FailsFrom c ⟨.ok a, next⟩ := nofun

theorem failsFrom_fail (proper : kind ≠ .overflow) (reaches : c.Reaches next) :
    (Lexed.fail kind c.pos next : Lexed α).FailsFrom c := by
  intro e error
  cases error
  exact ⟨proper, c, next, .refl c, reaches, .refl next, rfl⟩

theorem failsFrom_failAt (proper : kind ≠ .overflow) (reaches : c.Reaches next) :
    (Lexed.failAt kind c.pos next : Lexed α).FailsFrom c := by
  intro e error
  cases error
  exact ⟨proper, c, c, .refl c, .refl c, reaches, rfl⟩

theorem Lexed.FailsFrom.map {β : Type} {l : Lexed α} (fails : l.FailsFrom c) (f : α → β) :
    Lexed.FailsFrom c ⟨l.result.map f, l.next⟩ := by
  obtain ⟨result, after⟩ := l
  cases result with
  | ok a => exact failsFrom_ok
  | error e =>
    intro e' error
    cases error
    exact fails e rfl

theorem failsFrom_unicodeEscape (c : Cursor) : (unicodeEscape c).FailsFrom c := by
  unfold unicodeEscape
  split
  · have moved := (Cursor.reaches_advance c 1).trans
      ((Cursor.past_afterRun _ fun d => (Text.hexDigit? d).isSome).reaches.trans (Cursor.reaches_advance _ 1))
    dsimp only
    split
    · split
      · exact failsFrom_ok
      · exact failsFrom_fail nofun moved
    · exact failsFrom_fail nofun moved
  · exact failsFrom_failAt nofun (Cursor.reaches_advance c 1)

theorem failsFrom_escape (c : Cursor) : (escape c).FailsFrom c := by
  unfold escape
  split
  · exact failsFrom_failAt nofun (.refl c)
  · exact (failsFrom_unicodeEscape _).after (Cursor.reaches_advance c 1)
  · split
    · exact failsFrom_ok
    · split
      · exact failsFrom_ok
      · exact failsFrom_fail nofun (Cursor.reaches_advance c 2)

theorem failsFrom_stringBody {start : Cursor} (fuel : Nat) (reaches : start.Reaches c) :
    (stringBody start.pos fuel c).FailsFrom start := by
  induction fuel generalizing c with
  | zero => exact failsFrom_fail nofun reaches
  | succ fuel ih =>
    have first := reaches.trans (Cursor.reaches_advance c 1)
    unfold stringBody
    split
    · exact failsFrom_fail nofun reaches
    · exact failsFrom_ok
    · dsimp only
      split
      · next err escaped =>
        intro e error
        cases error
        exact (failsFrom_escape _ err escaped).imp id (·.after first)
      · exact (ih (first.trans (reaches_escape _))).map _
    · exact (ih first).map _

theorem failsFrom_atBoundary {start : Cursor} {r : Except LexErrorKind TokenKind}
    (proper : ∀ err, r = .error err → err ≠ .overflow) (reaches : start.Reaches c) :
    (atBoundary start.pos r c).FailsFrom start := by
  have refuses {kind : LexErrorKind} (proper : kind ≠ .overflow) :
      (Lexed.fail kind start.pos c : Lexed TokenKind).FailsFrom start := failsFrom_fail proper reaches
  unfold atBoundary
  cases r with
  | ok kind =>
    dsimp only
    split
    · exact failsFrom_ok
    · split
      · exact failsFrom_ok
      · exact refuses nofun
  | error err =>
    dsimp only
    split
    · exact refuses (proper err rfl)
    · split
      · exact refuses (proper err rfl)
      · exact refuses nofun

/-- Classifying a word never overflows. -/
theorem ne_overflow_of_classify {word : List Char} {err : LexErrorKind} (refused : classify word = .error err) :
    err ≠ .overflow := by
  unfold classify at refused
  split at refused
  · cases refused
  · split at refused <;> cases refused
    nofun

theorem failsFrom_lexToken (c : Cursor) (d : Char) : (lexToken c d).FailsFrom c := by
  have first := Cursor.reaches_advance c 1
  unfold lexToken
  split
  · exact failsFrom_ok
  split
  · exact failsFrom_ok
  split
  · dsimp only
    split
    · next err body =>
      intro e error
      cases error
      exact failsFrom_stringBody _ first err body
    · exact failsFrom_atBoundary nofun (first.trans (reaches_stringBody _ _ _))
  split
  · dsimp only
    split
    · exact failsFrom_fail nofun (first.trans (Cursor.past_afterRun _ _).reaches)
    · exact failsFrom_ok
  split
  · exact failsFrom_atBoundary (fun _ => ne_overflow_of_classify) (Cursor.past_afterRun _ _).reaches
  · exact failsFrom_failAt nofun first

/-- Tokens and errors stand where the lexer came by, and only comments that are too deep overflow. -/
theorem passes_nextItem? {item : Lexed Token} (gives : nextItem? c = some item) :
    (∀ t, item.result = .ok t → c.Passes item.next t.span) ∧
      ∀ e, item.result = .error e → c.Passes item.next e.span ∧ (e.kind = .overflow → 2 ^ 32 ≤ c.rest.length) := by
  obtain ⟨pos, rest⟩ := c
  have skips := skipsTo pos rest
  unfold nextItem? at gives
  cases same : skipGap pos .blank rest with
  | mk result mid =>
    rw [same] at skips
    dsimp only at gives
    rw [same] at gives
    cases skips with
    | ends => cases gives
    | deep deep =>
      have long := deep.length_le
      obtain @⟨gap, rest, -⟩ := deep
      cases gives
      refine ⟨nofun, fun e error => ?_⟩
      cases error
      exact ⟨⟨_, _, (Cursor.past_append pos gap _).reaches, .refl _, .refl _, rfl⟩, fun _ => long⟩
    | @fails gap rest =>
      cases gives
      have skipped := (Cursor.past_append pos gap ('(' :: rest)).reaches
      have toEnd : Cursor.Reaches ⟨pos.steps gap, '(' :: rest⟩ ⟨pos.steps (gap ++ '(' :: rest), []⟩ :=
        ⟨'(' :: rest, (List.append_nil _).symm, Position.steps_append _ _ _⟩
      refine ⟨nofun, fun e error => ?_⟩
      cases error
      exact ⟨⟨_, _, skipped, toEnd, .refl _, rfl⟩, nofun⟩
    | @stops gap rest =>
      have skipped := (Cursor.past_append pos gap rest).reaches
      cases rest with
      | nil => cases gives
      | cons d rest =>
        cases gives
        have first : Cursor.Past ⟨pos.steps gap, d :: rest⟩ [d] ⟨(pos.steps gap).step d, rest⟩ := ⟨rfl, rfl⟩
        have read := first.reaches.trans (reaches_lexToken (pos.steps gap) d rest)
        refine ⟨fun t token => ?_, fun e error => ?_⟩
        · cases result : (lexToken ⟨pos.steps gap, d :: rest⟩ d).result with
          | ok kind =>
            dsimp only at token
            rw [result] at token
            cases token
            exact ⟨_, _, skipped, read, .refl _, rfl⟩
          | error e =>
            dsimp only at token
            rw [result] at token
            cases token
        · obtain ⟨proper, passes⟩ := (failsFrom_lexToken _ d).map _ e error
          exact ⟨passes.after skipped, fun same => absurd same proper⟩

end FailsFrom

/-! ## Runs of the lexer -/

/-- On the way to the end of the next token or error, or of the source, a count has no room. -/
def Cursor.Overflows (c : Cursor) : Prop :=
  (nextItem? c = none ∧ (c.pos.steps c.rest).overflow = true) ∨
    ∃ item, nextItem? c = some item ∧ item.overflows = true

/-- The tokens and errors from a cursor on, each of which takes characters.  They go up to the end of the source or
to an overflow. -/
inductive Runs : Cursor → List (Except LexError Token) → Prop
  | done {c : Cursor} (ends : nextItem? c = none) (room : (c.pos.steps c.rest).overflow = false) : Runs c []
  | overflow {c : Cursor} (overflows : c.Overflows) (some_ : c.rest ≠ []) : Runs c [.error c.overflow]
  | item {c : Cursor} {item : Lexed Token} {items : List (Except LexError Token)} {cs : List Char}
    (next : nextItem? c = some item) (room : item.overflows = false) (past : c.Past cs item.next) (some_ : cs ≠ [])
    (rest : Runs item.next items) : Runs c (item.result :: items)

section Runs

variable {c : Cursor} {items items' : List (Except LexError Token)}

/-- Without a next item, there is room up to the end. -/
theorem not_overflows_of_none (ends : nextItem? c = none) (room : (c.pos.steps c.rest).overflow = false) :
    ¬c.Overflows := by
  rintro (⟨-, overflow⟩ | ⟨item, next, -⟩)
  · exact Bool.false_ne_true (room.symm.trans overflow)
  · cases ends.symm.trans next

/-- Where the next item has room, the cursor does. -/
theorem not_overflows_of_some {item : Lexed Token} (next : nextItem? c = some item)
    (room : item.overflows = false) : ¬c.Overflows := by
  rintro (⟨ends, -⟩ | ⟨item', next', overflows⟩)
  · cases ends.symm.trans next
  · cases next.symm.trans next'
    exact Bool.false_ne_true (room.symm.trans overflows)

/-- The items of a source are determined. -/
theorem Runs.unique (runs : Runs c items) (runs' : Runs c items') : items = items' := by
  induction runs generalizing items' with
  | done ends room =>
    cases runs' with
    | done => rfl
    | overflow overflows => exact absurd overflows (not_overflows_of_none ends room)
    | item next => cases ends.symm.trans next
  | overflow overflows =>
    cases runs' with
    | done ends room => exact absurd overflows (not_overflows_of_none ends room)
    | overflow => rfl
    | item next room => exact absurd overflows (not_overflows_of_some next room)
  | item next room _ _ _ ih =>
    cases runs' with
    | done ends => cases ends.symm.trans next
    | overflow overflows => exact absurd overflows (not_overflows_of_some next room)
    | item next' _ _ _ rest =>
      obtain rfl := Option.some.inj (next.symm.trans next')
      rw [ih rest]

/-- There are no more items than characters. -/
theorem Runs.length_le (runs : Runs c items) : items.length ≤ c.rest.length := by
  induction runs with
  | done => exact Nat.zero_le _
  | overflow _ some_ => exact List.length_pos_iff.2 some_
  | item _ _ past some_ _ ih =>
    have := List.length_pos_iff.2 some_
    rw [past.rest_eq, List.length_append, List.length_cons]
    omega

/-- A step without an overflow leads to a position without one. -/
theorem room_of_overflows {item : Lexed Token} (room : item.overflows = false) :
    item.next.pos.overflow = false := (Bool.or_eq_false_iff.1 room).1

/-- Fuel for each character is enough to come to the end of the source. -/
theorem runs_itemsFrom {fuel : Nat} (start : c.pos.overflow = false) (enough : c.rest.length < fuel) :
    Runs c (itemsFrom fuel c) := by
  induction fuel generalizing c with
  | zero => exact absurd enough (Nat.not_lt_zero _)
  | succ fuel ih =>
    unfold itemsFrom
    cases next : nextItem? c with
    | none =>
      dsimp only
      split
      · next overflow =>
        refine .overflow (.inl ⟨next, overflow⟩) fun none_ => ?_
        rw [none_, Position.steps_nil] at overflow
        exact Bool.false_ne_true (start.symm.trans overflow)
      · next room => exact .done next (Bool.eq_false_iff.2 room)
    | some item =>
      obtain ⟨cs, some_, past⟩ := past_nextItem? next
      dsimp only
      split
      · next overflows =>
        refine .overflow (.inr ⟨item, next, overflows⟩) ?_
        rw [past.rest_eq]
        exact List.append_ne_nil_of_left_ne_nil some_ _
      · next room =>
        have room := Bool.eq_false_iff.2 room
        refine .item next room past some_ (ih (room_of_overflows room) ?_)
        have := List.length_pos_iff.2 some_
        rw [past.rest_eq, List.length_append] at enough
        omega

/-- The items of a source are lexed one after the other. -/
theorem runs_lexItems (source : String) : Runs (.start source) (lexItems source) :=
  runs_itemsFrom rfl (by rw [← String.length_toList]; exact Nat.lt_succ_self _)

/-- Only a long source has more in it than can be counted. -/
theorem size_of_overflows {source : String} (reached : (Cursor.start source).Reaches c) (overflows : c.Overflows) :
    2 ^ 32 - 1 ≤ source.utf8ByteSize := by
  have bytes : source.toList.length ≤ source.utf8ByteSize := by
    rw [← String.utf8Len_toList]
    exact Position.length_le_utf8Len _
  obtain ⟨before, past⟩ := reached
  have whole : source.toList = before ++ c.rest := past.rest_eq
  have counted {after : Cursor} (reaches : c.Reaches after) (overflow : after.pos.overflow = true) :
      2 ^ 32 - 1 ≤ source.utf8ByteSize := by
    obtain ⟨cs, on⟩ := reaches
    rw [(past.trans on).pos_eq] at overflow
    have long := Position.length_of_overflow overflow
    rw [whole, on.rest_eq, ← List.append_assoc, List.length_append] at bytes
    omega
  obtain ⟨-, overflow⟩ | ⟨item, next, overflows⟩ := overflows
  · have toEnd : c.Past c.rest ⟨c.pos.steps c.rest, []⟩ := ⟨(List.append_nil _).symm, rfl⟩
    exact counted toEnd.reaches overflow
  · obtain overflow | overflow := Bool.or_eq_true_iff.1 overflows
    · obtain ⟨_, _, on⟩ := past_nextItem? next
      exact counted on.reaches overflow
    · obtain ⟨result, after⟩ := item
      dsimp only at overflow
      split at overflow
      · next span =>
        have long := ((passes_nextItem? next).2 _ rfl).2 rfl
        rw [whole, List.length_append] at bytes
        omega
      · cases overflow

/-- Without an overflow error, no count of a run had no room; and an overflow takes a long source. -/
theorem Runs.size {source : String} (reached : (Cursor.start source).Reaches c) (runs : Runs c items)
    {e : LexError} (listed : .error e ∈ items) (overflow : e.kind = .overflow) :
    2 ^ 32 - 1 ≤ source.utf8ByteSize := by
  induction runs with
  | done => cases listed
  | overflow overflows => exact size_of_overflows reached overflows
  | @item c item items cs next room past _ _ ih =>
    obtain here | later := List.mem_cons.1 listed
    · refine size_of_overflows reached (.inr ⟨item, next, ?_⟩)
      obtain ⟨kind, span⟩ := e
      obtain rfl : kind = .overflow := overflow
      unfold Lexed.overflows
      rw [← here]
      exact Bool.or_true _
    · exact ih (reached.trans past.reaches) later

end Runs

/-! ## Gaps and tokens in turn -/

/-- Tokens with gaps around them, up to the end of the source. -/
inductive Tiled : Cursor → List Token → Prop
  | done {pos : Position} {cs : List Char} (last : LastLayout cs) : Tiled ⟨pos, cs⟩ []
  | token {c next : Cursor} {t : Token} {ts : List Token} (lexes : Lexes c t next) (rest : Tiled next ts) :
    Tiled c (t :: ts)

section Tiled

variable {c next : Cursor} {t : Token} {ts : List Token} {source : String}

/-- Gaps and tokens are lexed as those tokens, up to an overflow. -/
theorem Tiled.runs (tiled : Tiled c ts) (start : c.pos.overflow = false) : Runs c (ts.map .ok) ∨
    ∃ (before : List Token) (c' : Cursor), Runs c (before.map .ok ++ [.error c'.overflow]) := by
  -- an overflow takes a character, since there was none before
  have stops {c : Cursor} (start : c.pos.overflow = false) (overflows : c.Overflows) :
      ∃ (before : List Token) (c' : Cursor), Runs c (before.map .ok ++ [.error c'.overflow]) := by
    refine ⟨[], c, .overflow overflows fun none_ => ?_⟩
    obtain ⟨-, overflow⟩ | ⟨item, next, -⟩ := overflows
    · rw [none_, Position.steps_nil] at overflow
      exact Bool.false_ne_true (start.symm.trans overflow)
    · obtain ⟨cs, some_, past⟩ := past_nextItem? next
      exact some_ (List.append_eq_nil_iff.1 (past.rest_eq.symm.trans none_)).1
  induction tiled with
  | @done pos cs last =>
    obtain ends | ⟨-, deep⟩ := nextItem?_of_lastLayout (c := ⟨pos, cs⟩) last
    · cases room : (pos.steps cs).overflow with
      | false => exact .inl (.done ends room)
      | true => exact .inr (stops start (.inl ⟨ends, room⟩))
    · exact .inr (stops start (.inr deep))
  | @token c next t ts lexes _ ih =>
    obtain item | ⟨-, deep⟩ := nextItem?_of_lexes lexes
    · obtain ⟨cs, some_, past⟩ := past_nextItem? item
      cases room : (⟨.ok t, next⟩ : Lexed Token).overflows with
      | true => exact .inr (stops start (.inr ⟨_, item, room⟩))
      | false =>
        refine (ih (room_of_overflows room)).imp (fun runs => .item item room past some_ runs) ?_
        rintro ⟨before, c', runs⟩
        exact ⟨t :: before, c', Runs.item item room past some_ runs⟩
    · exact .inr (stops start (.inr deep))

/-- A run of tokens tiles the source. -/
theorem tiled_of_runs (runs : Runs c (ts.map .ok)) : Tiled c ts := by
  induction ts generalizing c with
  | nil =>
    cases runs with
    | done ends => exact .done (lastLayout_of_nextItem? ends)
  | cons t ts ih =>
    rw [List.map_cons] at runs
    generalize same : Except.ok t :: ts.map Except.ok = items at runs
    cases runs with
    | done => cases same
    | overflow => cases same
    | @item _ item items cs next _ past some_ rest =>
      obtain ⟨result, after⟩ := item
      obtain ⟨rfl, rfl⟩ := List.cons.inj same
      exact .token (lexes_of_nextItem? next) (ih rest)

/-- The tokens of a source are its items. -/
theorem runs_of_tokenise (tokens : tokenise source = .ok ts) : Runs (.start source) (ts.map .ok) := by
  rw [← Outcome.mapM_id_eq_ok_iff.1 tokens]
  exact runs_lexItems source

/-- A source has tokens only where gaps and those tokens make it up. -/
theorem tiled_of_tokenise (tokens : tokenise source = .ok ts) : Tiled (.start source) ts :=
  tiled_of_runs (runs_of_tokenise tokens)

/-- Gaps and tokens that make up a source are its tokens, unless a count has no room, which takes a long source. -/
theorem tokenise_of_tiled (tiled : Tiled (.start source) ts) : tokenise source = .ok ts ∨
    (2 ^ 32 - 1 ≤ source.utf8ByteSize ∧ ∃ e, tokenise source = .error e ∧ e.kind = .overflow) := by
  unfold tokenise
  obtain runs | ⟨before, c, runs⟩ := tiled.runs rfl
  · rw [(runs_lexItems source).unique runs]
    exact .inl (Outcome.mapM_id_eq_ok_iff.2 rfl)
  · rw [(runs_lexItems source).unique runs]
    refine .inr ⟨runs.size (.refl _) (List.mem_append_right _ List.mem_cons_self) rfl, c.overflow, ?_, rfl⟩
    rw [List.mapM_append, Outcome.mapM_id_eq_ok_iff.2 rfl]
    rfl

/-- There are no more tokens than characters. -/
theorem length_le_of_tokenise (tokens : tokenise source = .ok ts) : ts.length ≤ source.length := by
  have few := (runs_of_tokenise tokens).length_le
  rw [List.length_map] at few
  rwa [← String.length_toList]

/-- The text of a token alone is lexed as the token. -/
theorem tokenise_of_lexesAs {text : List Char} {kind : TokenKind} (lexes : LexesAs text kind)
    (some_ : text ≠ []) (room : (Position.origin.steps text).overflow = false) :
    (tokenise (String.ofList text)).map (·.map Token.kind) = .ok [kind] := by
  have alone := lexes .origin [] kind.mayPrecede_nil
  rw [List.append_nil] at alone
  have runs : Runs (.start (String.ofList text))
      ([⟨kind, Position.origin.spanTo (Position.origin.steps text)⟩].map .ok) := by
    unfold Cursor.start
    rw [String.toList_ofList]
    exact Runs.item alone (Bool.or_eq_false_iff.2 ⟨room, rfl⟩) ⟨(List.append_nil text).symm, rfl⟩ some_ (.done rfl room)
  unfold tokenise
  rw [(runs_lexItems _).unique runs, Outcome.mapM_id_eq_ok_iff.2 rfl]
  rfl

/-- Nothing overflows in a source that has tokens. -/
theorem Runs.room (runs : Runs c (ts.map .ok)) : (c.pos.steps c.rest).overflow = false := by
  induction ts generalizing c with
  | nil =>
    cases runs with
    | done _ room => exact room
  | cons t ts ih =>
    rw [List.map_cons] at runs
    generalize same : Except.ok t :: ts.map Except.ok = items at runs
    cases runs with
    | done => cases same
    | overflow => cases same
    | item _ _ past _ rest =>
      obtain ⟨-, rfl⟩ := List.cons.inj same
      have room := ih rest
      rwa [past.pos_eq, ← Position.steps_append, ← past.rest_eq] at room

end Tiled

/-! ## The kinds of tokens -/

/-- Characters have tokens of some kinds, wherever they stand. -/
def HasKinds (cs : List Char) (kinds : List TokenKind) : Prop :=
  ∀ pos, ∃ ts, Tiled ⟨pos, cs⟩ ts ∧ ts.map Token.kind = kinds

section HasKinds

variable {c : Cursor} {ts : List Token} {cs gap text : List Char} {kind : TokenKind} {kinds : List TokenKind}

/-- A gap may stand in front of tokens. -/
theorem Tiled.after {pos : Position} (layout : Layout gap) (tiled : Tiled ⟨pos.steps gap, cs⟩ ts) :
    Tiled ⟨pos, gap ++ cs⟩ ts := by
  generalize same : (⟨pos.steps gap, cs⟩ : Cursor) = c at tiled
  cases tiled with
  | done last =>
    cases same
    exact .done (last.after layout)
  | token lexes rest =>
    subst same
    obtain ⟨mid, gap', text, skipped, read, layout', some_, lexes, precedes, span⟩ := lexes
    exact .token (.intro mid (gap ++ gap') text ((Cursor.past_append pos gap cs).trans skipped) read
      (layout.append layout') some_ lexes precedes span) rest

/-- A layout in front leaves the kinds of tokens as they are. -/
theorem HasKinds.after (layout : Layout gap) (has : HasKinds cs kinds) : HasKinds (gap ++ cs) kinds := by
  intro pos
  obtain ⟨ts, tiled, same⟩ := has (pos.steps gap)
  exact ⟨ts, tiled.after layout, same⟩

/-- A token in front adds its kind. -/
theorem HasKinds.token (layout : Layout gap) (some_ : text ≠ []) (lexes : LexesAs text kind)
    (precedes : kind.MayPrecede cs) (rest : HasKinds cs kinds) :
    HasKinds (gap ++ (text ++ cs)) (kind :: kinds) := by
  refine HasKinds.after layout fun pos => ?_
  obtain ⟨ts, tiled, rfl⟩ := rest (pos.steps text)
  refine ⟨⟨kind, pos.spanTo (pos.steps text)⟩ :: ts, .token ?_ tiled, rfl⟩
  exact .intro _ [] text (.refl _) (Cursor.past_append pos text cs) .nil some_ lexes precedes rfl

/-- Tiled tokens have the kinds that are lexed. -/
theorem Tiled.hasKinds (tiled : Tiled c ts) : HasKinds c.rest (ts.map Token.kind) := by
  induction tiled with
  | done last => exact fun pos => ⟨[], .done last, rfl⟩
  | token lexes _ ih =>
    obtain ⟨mid, gap, text, skipped, read, layout, some_, lexes, precedes, -⟩ := lexes
    rw [skipped.rest_eq, read.rest_eq]
    exact .token layout some_ lexes precedes ih

end HasKinds

/-! ## Offsets -/

/-- The text of a source between two offsets in bytes. -/
def slice (source : String) (start stop : Nat) : String := String.Pos.Raw.extract source ⟨start⟩ ⟨stop⟩

/-- From an offset on, a source has nothing but gaps in front of tokens and after the last of them. -/
def GapsAround (source : String) : Nat → List Token → Prop
  | start, [] => LastLayout (slice source start source.utf8ByteSize).toList
  | start, t :: ts => Layout (slice source start t.span.start).toList ∧ GapsAround source t.span.stop ts

section Offsets

variable {source : String} {c next : Cursor} {cs : List Char} {t : Token} {ts : List Token}

/-- Characters raise the offset. -/
theorem offset_lt_of_ne_nil (some_ : cs ≠ []) (p : Position) : p.offset < (p.steps cs).offset := by
  obtain ⟨c, cs, rfl⟩ := List.exists_cons_of_ne_nil some_
  have := c.utf8Size_pos
  rw [Position.offset_steps, String.utf8Len_cons]
  omega

/-- Between two places of a cursor stands what it moved past. -/
theorem slice_of_past (reached : (Cursor.start source).Reaches c) (past : c.Past cs next) :
    slice source c.pos.offset next.pos.offset = String.ofList cs := by
  obtain ⟨before, reached⟩ := reached
  have whole : source = String.ofList (before ++ cs ++ next.rest) := by
    rw [← (reached.trans past).rest_eq]
    exact String.ofList_toList.symm
  have valid := String.extract_of_valid before cs next.rest
  rw [← whole] at valid
  unfold slice
  rw [past.pos_eq, Position.offset_steps, reached.pos_eq, Position.offset_steps]
  simpa [Position.origin, Cursor.start] using valid

/-- At the end of a source all of its bytes are counted. -/
theorem offset_of_reaches {pos : Position} (reached : (Cursor.start source).Reaches ⟨pos, []⟩) :
    pos.offset = source.utf8ByteSize := by
  obtain ⟨before, past⟩ := reached
  have whole : source.toList = before ++ [] := past.rest_eq
  have counted : pos = Position.origin.steps before := past.pos_eq
  rw [counted, Position.offset_steps, ← String.utf8Len_toList, whole, List.append_nil]
  exact Nat.zero_add _

/-- A cursor stands between two characters. -/
theorem valid_of_reaches (reached : (Cursor.start source).Reaches c) :
    String.Pos.Raw.Valid source ⟨c.pos.offset⟩ := by
  obtain ⟨before, reached⟩ := reached
  refine .intro ⟨before, c.rest, reached.rest_eq.symm, ?_⟩
  rw [reached.pos_eq, Position.offset_steps]
  exact Nat.zero_add _

/-- Lexing a token goes forward. -/
theorem Lexes.reaches (lexes : Lexes c t next) : c.Reaches next := by
  obtain ⟨mid, gap, text, skipped, read, -⟩ := lexes
  exact (skipped.trans read).reaches

/-- The spans of tokens do not overlap, and they come in order. -/
theorem Tiled.spans_ordered (tiled : Tiled c ts) : (∀ t ∈ ts, c.pos.offset ≤ t.span.start) ∧
    (∀ t ∈ ts, t.span.start < t.span.stop) ∧ ts.Pairwise fun s t => s.span.stop ≤ t.span.start := by
  induction tiled with
  | done => exact ⟨nofun, nofun, .nil⟩
  | @token c next t ts lexes _ ih =>
    obtain ⟨later, some_, ordered⟩ := ih
    obtain ⟨mid, gap, text, skipped, read, -, nonempty, -, -, span⟩ := lexes
    have start : c.pos.offset ≤ mid.pos.offset := by
      rw [skipped.pos_eq, Position.offset_steps]
      exact Nat.le_add_right _ _
    have stop : mid.pos.offset < next.pos.offset := by
      rw [read.pos_eq]
      exact offset_lt_of_ne_nil nonempty mid.pos
    simp only [List.forall_mem_cons, span]
    refine ⟨⟨start, fun t listed => (start.trans stop.le).trans (later t listed)⟩, ⟨stop, some_⟩, ?_⟩
    exact .cons (fun t listed => by rw [span]; exact later t listed) ordered

/-- Around the spans of tokens there are only gaps. -/
theorem Tiled.gapsAround (tiled : Tiled c ts) (reached : (Cursor.start source).Reaches c) :
    GapsAround source c.pos.offset ts := by
  induction tiled with
  | @done pos cs last =>
    have toEnd : Cursor.Past ⟨pos, cs⟩ cs ⟨pos.steps cs, []⟩ := ⟨(List.append_nil cs).symm, rfl⟩
    have stop : (pos.steps cs).offset = source.utf8ByteSize := offset_of_reaches (reached.trans toEnd.reaches)
    have after := slice_of_past reached toEnd
    unfold GapsAround
    rw [← stop, show slice source pos.offset (pos.steps cs).offset = _ from after, String.toList_ofList]
    exact last
  | @token c next t ts lexes _ ih =>
    have rest := ih (reached.trans lexes.reaches)
    obtain ⟨mid, gap, text, skipped, -, layout, -, -, -, span⟩ := lexes
    unfold GapsAround
    rw [span]
    refine ⟨?_, rest⟩
    rw [show slice source c.pos.offset (mid.pos.spanTo next.pos).start = _ from slice_of_past reached skipped,
      String.toList_ofList]
    exact layout

/-- A text that was counted somewhere in a source can be counted alone. -/
theorem room_alone (reached : (Cursor.start source).Reaches c) (past : c.Past cs next)
    (room : next.pos.overflow = false) : (Position.origin.steps cs).overflow = false := by
  rw [past.pos_eq] at room
  have start := Position.room_of_steps room
  obtain ⟨before, reached⟩ := reached
  rw [reached.pos_eq] at room start
  obtain ⟨lines, columns⟩ := Position.steps_origin start
  have first (n : UInt32) (some_ : 1 ≤ n.toNat) : 1 ≤ n := UInt32.le_iff_toNat_le.2 some_
  exact Position.room_of_le (first _ ((Nat.le_add_right 1 _).trans lines.ge))
    (first _ ((Nat.le_add_right 1 _).trans columns.ge)) rfl room

/-- Nothing overflows before the end of a source that is counted up to there. -/
theorem room_of_reaches (room : (Position.origin.steps source.toList).overflow = false)
    (reached : (Cursor.start source).Reaches c) : c.pos.overflow = false := by
  obtain ⟨before, past⟩ := reached
  rw [show source.toList = before ++ c.rest from past.rest_eq, Position.steps_append] at room
  rw [past.pos_eq]
  exact Position.room_of_steps room

/-- The texts of tokens. -/
theorem Tiled.texts (tiled : Tiled c ts) (reached : (Cursor.start source).Reaches c) (listed : t ∈ ts) :
    ∃ c text next, (Cursor.start source).Reaches c ∧ c.Past text next ∧ t.span = c.pos.spanTo next.pos ∧
      text ≠ [] ∧ LexesAs text t.kind := by
  induction tiled with
  | done => cases listed
  | token lexes _ ih =>
    obtain rfl | listed := List.mem_cons.1 listed
    · obtain ⟨mid, gap, text, skipped, read, -, some_, lexes, -, span⟩ := lexes
      exact ⟨mid, text, _, reached.trans skipped.reaches, read, span, some_, lexes⟩
    · exact ih (reached.trans lexes.reaches) listed

end Offsets

/-- A list with a comment between its two elements. -/
def commentedText : String := "(a;;é\n\"b\")"

/-- The tokens of `commentedText`. -/
def commentedTokens : List Token :=
  [⟨.leftParen, 0, 1, 1, 1⟩, ⟨.keyword "a", 1, 2, 1, 2⟩, ⟨.string [98], 7, 10, 2, 1⟩, ⟨.rightParen, 10, 11, 2, 4⟩]

end WasmEngine.Wat
