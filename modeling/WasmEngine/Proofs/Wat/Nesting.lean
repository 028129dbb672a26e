import WasmEngine.Proofs.Wat.Derivations

/-!
# Tokens and lists

The expressions that are made of tokens are nested no deeper than allowed, and tokens of expressions that
are nested no deeper make up these expressions again.
-/

namespace WasmEngine.Wat

open Outcome

namespace SExpr

mutual

/-- How deep lists are nested in an expression. -/
def depth : SExpr → Nat
  | .atom _ => 0
  | .list _ items => depthAll items + 1

/-- How deep lists are nested in expressions. -/
def depthAll : List SExpr → Nat
  | [] => 0
  | e :: es => max (depth e) (depthAll es)

end

mutual

/-- Every token of an expression other than parentheses is of some sort. -/
def Every (p : TokenKind → Prop) : SExpr → Prop
  | .atom token => p token.kind
  | .list _ items => EveryOf p items

/-- Every token of expressions other than parentheses is of some sort. -/
def EveryOf (p : TokenKind → Prop) : List SExpr → Prop
  | [] => True
  | e :: es => Every p e ∧ EveryOf p es

end

/-- A property holds throughout expressions when it does throughout each. -/
theorem everyOf_iff {p : TokenKind → Prop} {es : List SExpr} : EveryOf p es ↔ ∀ e ∈ es, e.Every p := by
  induction es with
  | nil => simp [EveryOf]
  | cons e es ih => rw [EveryOf, ih, List.forall_mem_cons]

/-- A list is as deep as its deepest expression. -/
theorem depthAll_le_iff {es : List SExpr} {n : Nat} : depthAll es ≤ n ↔ ∀ e ∈ es, e.depth ≤ n := by
  induction es with
  | nil => simp [depthAll]
  | cons e es ih => rw [depthAll, Nat.max_le, ih, List.forall_mem_cons]

mutual

/-- The same expression elsewhere is made of the same tokens. -/
theorem Same.tokens : ∀ {e e' : SExpr}, Same e e' → SExpr.tokens e' = SExpr.tokens e
  | .atom _, _, .atom _ _ _ => by rw [SExpr.tokens, SExpr.tokens]
  | .list _ _, _, .list _ _ inside => by rw [SExpr.tokens, SExpr.tokens, Same.tokensAll inside]

theorem Same.tokensAll : ∀ {es es' : List SExpr}, List.Forall₂ Same es es' →
    SExpr.tokensAll es' = SExpr.tokensAll es
  | [], _, .nil => rfl
  | _ :: _, _, .cons first rest => by
    rw [SExpr.tokensAll, SExpr.tokensAll, first.tokens, Same.tokensAll rest]

end

end SExpr

namespace Nesting

/-! ## How deep tokens nest -/

section Bounded

variable (p : TokenKind → Prop)

/-- No expression in an open list goes deeper than allowed, and their tokens are of some sort. -/
def Fits : List (Span × List SExpr) → Prop
  | [] => True
  | (_, items) :: outer => outer.length + 1 ≤ maxListDepth ∧
    (∀ e ∈ items, e.depth + (outer.length + 1) ≤ maxListDepth ∧ e.Every p) ∧ Fits outer

/-- No expression that was read goes deeper than allowed, and their tokens are of some sort. -/
structure Bounded (n : Nesting) : Prop where
  opened : Fits p n.opened
  top : ∀ e ∈ n.top, e.depth ≤ maxListDepth ∧ e.Every p

/-- A token that may be read: a parenthesis, or one of some sort. -/
def Allowed (t : Token) : Prop := t.kind = .leftParen ∨ t.kind = .rightParen ∨ p t.kind

variable {p}

/-- Bounded nestings have no more lists open than the limit. -/
theorem Bounded.within {n : Nesting} (bounded : Bounded p n) : n.opened.length ≤ maxListDepth := by
  obtain ⟨opened, top⟩ := n
  cases opened with
  | nil => exact Nat.zero_le _
  | cons level outer => exact bounded.opened.1

/-- A further expression that fits keeps a nesting bounded. -/
theorem Bounded.push {n : Nesting} (bounded : Bounded p n) {e : SExpr}
    (fits : e.depth + n.opened.length ≤ maxListDepth) (every : e.Every p) : Bounded p (n.push e) := by
  obtain ⟨opened, top⟩ := n
  cases opened with
  | nil => exact ⟨trivial, List.forall_mem_cons.2 ⟨⟨fits, every⟩, bounded.top⟩⟩
  | cons level outer =>
    obtain ⟨span, items⟩ := level
    obtain ⟨below, others, rest⟩ := bounded.opened
    exact ⟨⟨below, List.forall_mem_cons.2 ⟨⟨fits, every⟩, others⟩, rest⟩, bounded.top⟩

/-- Reading a token keeps a nesting bounded. -/
theorem Bounded.read {n n' : Nesting} {t : Token} (bounded : Bounded p n) (allowed : Allowed p t)
    (reads : n.read t = .ok n') : Bounded p n' := by
  unfold Nesting.read at reads
  split at reads
  · split at reads
    · cases reads
    · next below =>
      cases reads
      exact ⟨⟨Nat.not_le.1 below, List.forall_mem_nil _, bounded.opened⟩, bounded.top⟩
  · obtain ⟨opened, top⟩ := n
    cases opened with
    | nil => cases reads
    | cons level outer =>
      cases reads
      obtain ⟨-, inside, rest⟩ := bounded.opened
      have below := bounded.within
      refine Bounded.push (n := ⟨outer, top⟩) ⟨rest, bounded.top⟩ ?_ ?_
      · have deepest : SExpr.depthAll level.2.reverse ≤ maxListDepth - (outer.length + 1) :=
          SExpr.depthAll_le_iff.2 fun e listed => by
            have := (inside e (List.mem_reverse.1 listed)).1
            omega
        rw [List.length_cons] at below
        rw [SExpr.depth]
        dsimp only
        omega
      · exact SExpr.everyOf_iff.2 fun e listed => (inside e (List.mem_reverse.1 listed)).2
  · next notLeft notRight =>
    cases reads
    refine bounded.push ?_ ?_
    · rw [SExpr.depth, Nat.zero_add]
      exact bounded.within
    · exact (allowed.resolve_left notLeft).resolve_left notRight

theorem readAll_cons (n : Nesting) (t : Token) (ts : List Token) :
    n.readAll (t :: ts) = n.read t >>= fun n => n.readAll ts := by
  rw [Nesting.readAll]
  cases n.read t <;> rfl

/-- Reading tokens keeps a nesting bounded. -/
theorem Bounded.readAll {n n' : Nesting} {ts : List Token} (bounded : Bounded p n)
    (allowed : ∀ t ∈ ts, Allowed p t) (reads : n.readAll ts = .ok n') : Bounded p n' := by
  induction ts generalizing n with
  | nil =>
    cases reads
    exact bounded
  | cons t ts ih =>
    obtain ⟨first, rest⟩ := List.forall_mem_cons.1 allowed
    rw [readAll_cons] at reads
    obtain ⟨mid, here, reads⟩ := bind_eq_ok_iff.1 reads
    exact ih (bounded.read first here) rest reads

/-- Expressions that tokens make up go no deeper than allowed. -/
theorem bounded_of_nest {ts : List Token} {es : List SExpr} (allowed : ∀ t ∈ ts, Allowed p t)
    (nests : nest ts = .ok es) : SExpr.depthAll es ≤ maxListDepth ∧ SExpr.EveryOf p es := by
  obtain ⟨n, reads, finishes⟩ := bind_eq_ok_iff.1 nests
  have bounded := Bounded.readAll (n := Nesting.empty) ⟨trivial, List.forall_mem_nil _⟩ allowed reads
  unfold Nesting.finish at finishes
  split at finishes
  · cases finishes
    exact ⟨SExpr.depthAll_le_iff.2 fun e listed => (bounded.top e (List.mem_reverse.1 listed)).1,
      SExpr.everyOf_iff.2 fun e listed => (bounded.top e (List.mem_reverse.1 listed)).2⟩
  · cases finishes

end Bounded

/-! ## Reading the tokens of expressions -/

/-- Adds expressions in order. -/
def pushAll (n : Nesting) (es : List SExpr) : Nesting := es.foldl push n

/-- Tokens are read one part after the other. -/
theorem readAll_append {n mid : Nesting} {ts : List Token} (first : n.readAll ts = .ok mid)
    (ts' : List Token) : n.readAll (ts ++ ts') = mid.readAll ts' := by
  induction ts generalizing n with
  | nil =>
    cases first
    rfl
  | cons t ts ih =>
    rw [readAll_cons] at first
    obtain ⟨next, here, first⟩ := bind_eq_ok_iff.1 first
    rw [List.cons_append, readAll_cons, here]
    exact ih first

/-- Expressions behind an open list are its items. -/
theorem pushAll_opened (span : Span) (items : List SExpr) (outer : List (Span × List SExpr))
    (top es : List SExpr) :
    pushAll ⟨(span, items) :: outer, top⟩ es = ⟨(span, es.reverse ++ items) :: outer, top⟩ := by
  induction es generalizing items with
  | nil => rfl
  | cons e es ih =>
    rw [pushAll, List.foldl_cons]
    refine (ih (e :: items)).trans ?_
    rw [List.reverse_cons, List.append_assoc, List.singleton_append]

theorem pushAll_top (top es : List SExpr) : pushAll ⟨[], top⟩ es = ⟨[], es.reverse ++ top⟩ := by
  induction es generalizing top with
  | nil => rfl
  | cons e es ih =>
    rw [pushAll, List.foldl_cons]
    refine (ih (e :: top)).trans ?_
    rw [List.reverse_cons, List.append_assoc, List.singleton_append]

theorem length_opened_push (n : Nesting) (e : SExpr) : (n.push e).opened.length = n.opened.length := by
  obtain ⟨opened, top⟩ := n
  cases opened <;> rfl

/-- A token that is no parenthesis. -/
theorem read_atom {t : Token} (left : t.kind ≠ .leftParen) (right : t.kind ≠ .rightParen) (n : Nesting) :
    n.read t = .ok (n.push (.atom t)) := by
  unfold Nesting.read
  split
  · next here => exact absurd here left
  · next here => exact absurd here right
  · rfl

section Tokens

/-- Tokens of a sort that no parenthesis is of. -/
def Proper (p : TokenKind → Prop) : Prop := ∀ kind, p kind → kind ≠ .leftParen ∧ kind ≠ .rightParen

variable {p : TokenKind → Prop}

mutual

/-- The tokens of an expression are read back as the expression. -/
theorem exists_readAll_tokens (proper : Proper p) : ∀ {e : SExpr}, e.Every p → ∀ {ts : List Token} (n : Nesting),
    ts.map Token.kind = e.tokens → e.depth + n.opened.length ≤ maxListDepth →
    ∃ e', e.Same e' ∧ n.readAll ts = .ok (n.push e')
  | .atom ⟨kind, span⟩, every, ts, n, spelled, _ => by
    rw [SExpr.tokens] at spelled
    obtain ⟨⟨kind', span'⟩, rfl, same⟩ := List.map_eq_singleton_iff.1 spelled
    obtain rfl : kind' = kind := same
    obtain ⟨left, right⟩ := proper kind' every
    refine ⟨.atom ⟨kind', span'⟩, .atom kind' span span', ?_⟩
    rw [Nesting.readAll, read_atom left right]
    rfl
  | .list span items, every, ts, n, spelled, fits => by
    rw [SExpr.tokens] at spelled
    obtain ⟨opening, ts, rfl, isLeft, spelled⟩ := List.map_eq_cons_iff.1 spelled
    obtain ⟨inside, closing, rfl, inner, last⟩ := List.map_eq_append_iff.1 spelled
    obtain ⟨closing, rfl, isRight⟩ := List.map_eq_singleton_iff.1 last
    rw [SExpr.depth] at fits
    have below : ¬maxListDepth ≤ n.opened.length := by omega
    have within : SExpr.depthAll items + (n.opened.length + 1) ≤ maxListDepth := by omega
    obtain ⟨items', same, reads⟩ := exists_readAll_tokensAll proper every
      ⟨(opening.span, []) :: n.opened, n.top⟩ inner within
    rw [pushAll_opened, List.append_nil] at reads
    refine ⟨.list { opening.span with stop := closing.span.stop } items', .list _ _ same, ?_⟩
    rw [Nesting.readAll, Nesting.read, isLeft]
    dsimp only
    rw [if_neg below]
    dsimp only
    rw [readAll_append reads, Nesting.readAll, Nesting.read, isRight]
    dsimp only
    rw [List.reverse_reverse]
    rfl

/-- The tokens of expressions are read back as the expressions. -/
theorem exists_readAll_tokensAll (proper : Proper p) : ∀ {es : List SExpr}, SExpr.EveryOf p es → ∀ {ts : List Token}
    (n : Nesting), ts.map Token.kind = SExpr.tokensAll es →
    SExpr.depthAll es + n.opened.length ≤ maxListDepth →
    ∃ es', List.Forall₂ SExpr.Same es es' ∧ n.readAll ts = .ok (n.pushAll es')
  | [], _, ts, n, spelled, _ => by
    obtain rfl := List.map_eq_nil_iff.1 spelled
    exact ⟨[], .nil, rfl⟩
  | e :: es, every, ts, n, spelled, fits => by
    rw [SExpr.tokensAll] at spelled
    rw [SExpr.depthAll] at fits
    obtain ⟨first, rest, rfl, here, there⟩ := List.map_eq_append_iff.1 spelled
    obtain ⟨e', same, reads⟩ := exists_readAll_tokens proper every.1 n here (by omega)
    obtain ⟨es', sames, reads'⟩ := exists_readAll_tokensAll proper every.2 (n.push e') there
      (by rw [length_opened_push]; omega)
    refine ⟨e' :: es', .cons same sames, ?_⟩
    rw [readAll_append reads, reads']
    rfl

end

/-- The tokens of expressions that go no deeper than allowed make up these expressions. -/
theorem exists_nest (proper : Proper p) {es : List SExpr} (every : SExpr.EveryOf p es)
    (within : SExpr.depthAll es ≤ maxListDepth) {ts : List Token}
    (spelled : ts.map Token.kind = SExpr.tokensAll es) :
    ∃ es', List.Forall₂ SExpr.Same es es' ∧ nest ts = .ok es' := by
  obtain ⟨es', same, reads⟩ := exists_readAll_tokensAll proper every .empty spelled within
  refine ⟨es', same, bind_eq_ok_iff.2 ⟨_, reads, ?_⟩⟩
  rw [Nesting.empty, pushAll_top, List.append_nil]
  exact congrArg Except.ok (List.reverse_reverse es')

end Tokens

end Nesting

end WasmEngine.Wat
