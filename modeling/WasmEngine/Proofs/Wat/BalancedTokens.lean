import WasmEngine.Proofs.Wat.Nesting

/-!
# Balanced tokens

Tokens make up expressions exactly if their parentheses are balanced and nest no deeper than allowed
(`readAll_iff_keeps`).  While they are read, the finished expressions and the open lists make up the tokens
read so far (`Nesting.Built`): none is lost, and none is moved.
-/

namespace WasmEngine.Wat

open Outcome

/-! ## Which tokens are balanced -/

/-- Every right parenthesis closes a left one before it, every left one is closed, and at no point more than
`limit` of them are open. -/
structure Balanced (limit : Nat) (kinds : List TokenKind) : Prop where
  closes : ∀ first, first <+: kinds → first.count .rightParen ≤ first.count .leftParen
  within : ∀ first, first <+: kinds → first.count .leftParen ≤ first.count .rightParen + limit
  ends : kinds.count .leftParen = kinds.count .rightParen

/-- With `d` lists open, tokens close no list that is not open, and open none beyond the limit. -/
def Keeps (limit d : Nat) (kinds : List TokenKind) : Prop :=
  ∀ first, first <+: kinds → first.count .rightParen ≤ d + first.count .leftParen ∧
    d + first.count .leftParen ≤ first.count .rightParen + limit

section Keeps

variable {limit d : Nat} {kinds : List TokenKind}

/-- Tokens balance when they keep within the limit and open as many lists as they close. -/
theorem balanced_iff : Balanced limit kinds ↔
    Keeps limit 0 kinds ∧ kinds.count .leftParen = kinds.count .rightParen := by
  constructor
  · rintro ⟨closes, within, ends⟩
    refine ⟨fun first starts => ?_, ends⟩
    rw [Nat.zero_add]
    exact ⟨closes first starts, within first starts⟩
  · rintro ⟨keeps, ends⟩
    unfold Keeps at keeps
    simp only [Nat.zero_add] at keeps
    exact ⟨fun first starts => (keeps first starts).1, fun first starts => (keeps first starts).2, ends⟩

theorem keeps_nil : Keeps limit d [] ↔ d ≤ limit := by
  simp [Keeps]

/-- The beginnings of tokens are none of them, and the first with beginnings of the others. -/
theorem keeps_cons {kind : TokenKind} : Keeps limit d (kind :: kinds) ↔ d ≤ limit ∧
    ∀ first, first <+: kinds → (kind :: first).count .rightParen ≤ d + (kind :: first).count .leftParen ∧
      d + (kind :: first).count .leftParen ≤ (kind :: first).count .rightParen + limit := by
  constructor
  · intro keeps
    have none_ := (keeps [] (List.nil_prefix)).2
    rw [List.count_nil, List.count_nil, Nat.zero_add] at none_
    exact ⟨none_, fun first starts => keeps _ (List.cons_prefix_cons.2 ⟨rfl, starts⟩)⟩
  · rintro ⟨none_, some_⟩ first starts
    obtain rfl | ⟨others, rfl, begins⟩ := List.prefix_cons_iff.1 starts
    · rw [List.count_nil, List.count_nil, Nat.zero_add]
      exact ⟨Nat.zero_le _, none_⟩
    · exact some_ others begins

theorem Keeps.within (keeps : Keeps limit d kinds) : d ≤ limit := by
  have none_ := (keeps [] List.nil_prefix).2
  rwa [List.count_nil, List.count_nil, Nat.zero_add] at none_

theorem keeps_left : Keeps limit d (.leftParen :: kinds) ↔ Keeps limit (d + 1) kinds := by
  rw [keeps_cons]
  constructor
  · rintro ⟨-, keeps⟩ first starts
    have := keeps first starts
    rw [List.count_cons_self, List.count_cons_of_ne (by decide)] at this
    omega
  · intro keeps
    refine ⟨Nat.le_of_succ_le keeps.within, fun first starts => ?_⟩
    have := keeps first starts
    rw [List.count_cons_self, List.count_cons_of_ne (by decide)]
    omega

theorem not_keeps_right : ¬Keeps limit 0 (.rightParen :: kinds) := by
  intro keeps
  have := ((keeps_cons.1 keeps).2 [] List.nil_prefix).1
  revert this
  decide

theorem keeps_right : Keeps limit (d + 1) (.rightParen :: kinds) ↔ d + 1 ≤ limit ∧ Keeps limit d kinds := by
  rw [keeps_cons]
  refine and_congr_right fun _ => forall_congr' fun first => forall_congr' fun _ => ?_
  rw [List.count_cons_self, List.count_cons_of_ne (by decide)]
  omega

theorem keeps_other {kind : TokenKind} (left : kind ≠ .leftParen) (right : kind ≠ .rightParen) :
    Keeps limit d (kind :: kinds) ↔ Keeps limit d kinds := by
  rw [keeps_cons]
  constructor
  · rintro ⟨-, keeps⟩ first starts
    have := keeps first starts
    rwa [List.count_cons_of_ne left, List.count_cons_of_ne right] at this
  · intro keeps
    refine ⟨keeps.within, fun first starts => ?_⟩
    rw [List.count_cons_of_ne left, List.count_cons_of_ne right]
    exact keeps first starts

end Keeps

/-! ## Reading balanced tokens -/

namespace Nesting

section Reading

variable {n n' : Nesting} {t : Token} {ts : List Token}

/-- An opening parenthesis opens a list, unless there are too many open. -/
theorem read_left (left : t.kind = .leftParen) : n.read t =
    if maxListDepth ≤ n.opened.length then .error ⟨.listsTooDeep maxListDepth, t.span⟩
    else .ok ⟨(t.span, []) :: n.opened, n.top⟩ := by
  unfold Nesting.read
  rw [left]

/-- A closing parenthesis closes the innermost open list, if there is one. -/
theorem read_right (right : t.kind = .rightParen) : n.read t = match n.opened with
    | [] => .error ⟨.unexpectedClose, t.span⟩
    | (start, items) :: outer =>
      .ok (push ⟨outer, n.top⟩ (.list { start with stop := t.span.stop } items.reverse)) := by
  obtain ⟨kind, span⟩ := t
  obtain rfl : kind = .rightParen := right
  rfl

/-- A left parenthesis opens a list and a right one closes one. -/
theorem length_opened_read (reads : n.read t = .ok n') :
    n'.opened.length + [t.kind].count .rightParen = n.opened.length + [t.kind].count .leftParen := by
  by_cases left : t.kind = .leftParen
  · rw [read_left left] at reads
    split at reads
    · cases reads
    · cases reads
      rw [left]
      rfl
  by_cases right : t.kind = .rightParen
  · rw [read_right right] at reads
    obtain ⟨opened, top⟩ := n
    cases opened with
    | nil => cases reads
    | cons level outer =>
      cases reads
      rw [length_opened_push, right]
      rfl
  · rw [read_atom left right] at reads
    cases reads
    rw [length_opened_push, List.count_cons_of_ne left, List.count_cons_of_ne right]
    rfl

/-- As many lists are open as left parentheses were read and not their right ones. -/
theorem length_opened_readAll (reads : n.readAll ts = .ok n') :
    n'.opened.length + (ts.map Token.kind).count .rightParen =
      n.opened.length + (ts.map Token.kind).count .leftParen := by
  induction ts generalizing n with
  | nil =>
    cases reads
    rfl
  | cons t ts ih =>
    rw [readAll_cons] at reads
    obtain ⟨mid, here, reads⟩ := bind_eq_ok_iff.1 reads
    have first := length_opened_read here
    have rest := ih reads
    rw [List.map_cons, ← List.singleton_append, List.count_append, List.count_append]
    omega

/-- Reading goes through exactly if it closes no list that is not open, and opens none beyond the limit. -/
theorem readAll_iff_keeps (below : n.opened.length ≤ maxListDepth) :
    (∃ n', n.readAll ts = .ok n') ↔ Keeps maxListDepth n.opened.length (ts.map Token.kind) := by
  induction ts generalizing n with
  | nil => exact ⟨fun _ => keeps_nil.2 below, fun _ => ⟨n, rfl⟩⟩
  | cons t ts ih =>
    rw [List.map_cons, readAll_cons]
    by_cases left : t.kind = .leftParen
    · rw [read_left left, left, keeps_left]
      split
      · next full => exact ⟨nofun, fun keeps => absurd keeps.within (Nat.not_le.2 (Nat.lt_succ_of_le full))⟩
      · next room => exact ih (n := ⟨(t.span, []) :: n.opened, n.top⟩) (Nat.not_le.1 room)
    by_cases right : t.kind = .rightParen
    · rw [read_right right, right]
      obtain ⟨opened, top⟩ := n
      cases opened with
      | nil => exact ⟨nofun, fun keeps => absurd keeps not_keeps_right⟩
      | cons level outer =>
        rw [List.length_cons, keeps_right, and_iff_right (show outer.length + 1 ≤ maxListDepth from below)]
        have rest := ih (n := push ⟨outer, top⟩ (.list { level.1 with stop := t.span.stop } level.2.reverse))
        rw [length_opened_push] at rest
        exact rest (Nat.le_of_succ_le below)
    · rw [read_atom left right, keeps_other left right]
      have rest := ih (n := n.push (.atom t))
      rw [length_opened_push] at rest
      exact rest below

end Reading

/-! ## Nothing is lost -/

end Nesting

/-- Expressions and the tokens that they are made of, in order: an atom is its token, and a list goes from its
left parenthesis up to its right one. -/
inductive Covers : List SExpr → List Token → Prop
  | nil : Covers [] []
  | atom {t : Token} {es : List SExpr} {ts : List Token} (left : t.kind ≠ .leftParen)
    (right : t.kind ≠ .rightParen) (rest : Covers es ts) : Covers (.atom t :: es) (t :: ts)
  | list {opening closing : Token} {items es : List SExpr} {inner ts : List Token}
    (left : opening.kind = .leftParen) (right : closing.kind = .rightParen) (inside : Covers items inner)
    (rest : Covers es ts) :
    Covers (.list { opening.span with stop := closing.span.stop } items :: es) (opening :: (inner ++ closing :: ts))

namespace Covers

variable {es es' : List SExpr} {ts ts' : List Token}

/-- Expressions cover their tokens, in sequence. -/
theorem append (first : Covers es ts) (rest : Covers es' ts') : Covers (es ++ es') (ts ++ ts') := by
  induction first with
  | nil => exact rest
  | atom left right _ ih => exact .atom left right ih
  | list left right inside _ _ ih =>
    rw [List.cons_append, List.cons_append, List.append_assoc, List.cons_append]
    exact .list left right inside ih

/-- Expressions that cover tokens are made of their kinds. -/
theorem tokensAll (covers : Covers es ts) : SExpr.tokensAll es = ts.map Token.kind := by
  induction covers with
  | nil => rfl
  | atom _ _ _ ih =>
    rw [SExpr.tokensAll, SExpr.tokens, ih]
    rfl
  | list left right _ _ inside rest =>
    rw [SExpr.tokensAll, SExpr.tokens, inside, rest, List.map_cons, List.map_append, List.map_cons, left, right,
      List.cons_append, List.append_assoc, List.singleton_append]

end Covers

namespace Nesting

/-- The open lists and the finished expressions outside of them, with the tokens that they are made of. -/
inductive Built : Nesting → List Token → Prop
  | top {top : List SExpr} {ts : List Token} (finished : Covers top.reverse ts) : Built ⟨[], top⟩ ts
  | opened {outer : List (Span × List SExpr)} {top items : List SExpr} {before inner : List Token}
    {opening : Token} (outside : Built ⟨outer, top⟩ before) (left : opening.kind = .leftParen)
    (inside : Covers items.reverse inner) : Built ⟨(opening.span, items) :: outer, top⟩ (before ++ opening :: inner)

section Built

variable {n n' : Nesting} {t : Token} {ts ts' : List Token} {e : SExpr}

/-- A further expression covers the tokens that it is made of. -/
theorem Built.push (built : Built n ts) (covers : Covers [e] ts') : Built (n.push e) (ts ++ ts') := by
  cases built with
  | top finished =>
    refine .top ?_
    rw [List.reverse_cons]
    exact finished.append covers
  | opened outside left inside =>
    rw [List.append_assoc, List.cons_append]
    refine .opened outside left ?_
    rw [List.reverse_cons]
    exact inside.append covers

/-- Reading a token keeps to what was read. -/
theorem Built.read (built : Built n ts) (reads : n.read t = .ok n') : Built n' (ts ++ [t]) := by
  by_cases left : t.kind = .leftParen
  · rw [read_left left] at reads
    split at reads
    · cases reads
    · cases reads
      exact .opened built left .nil
  by_cases right : t.kind = .rightParen
  · rw [read_right right] at reads
    cases built with
    | top => cases reads
    | opened outside left inside =>
      cases reads
      rw [List.append_assoc, List.cons_append]
      exact outside.push (.list left right inside .nil)
  · rw [read_atom left right] at reads
    cases reads
    exact built.push (.atom left right .nil)

/-- Reading tokens keeps to what was read. -/
theorem Built.readAll (built : Built n ts) (reads : n.readAll ts' = .ok n') : Built n' (ts ++ ts') := by
  induction ts' generalizing n ts with
  | nil =>
    cases reads
    rwa [List.append_nil]
  | cons t ts' ih =>
    rw [readAll_cons] at reads
    obtain ⟨mid, here, reads⟩ := bind_eq_ok_iff.1 reads
    have rest := ih (built.read here) reads
    rwa [List.append_assoc, List.singleton_append] at rest

theorem built_empty : Built .empty [] := .top .nil

/-- Expressions that are finished are made of all tokens read. -/
theorem covers_of_nest {es : List SExpr} (nests : nest ts = .ok es) : Covers es ts := by
  obtain ⟨n, reads, finishes⟩ := bind_eq_ok_iff.1 nests
  have built := built_empty.readAll reads
  cases built with
  | top finished =>
    cases finishes
    exact finished
  | opened => cases finishes

/-- Tokens make up expressions exactly if they are balanced. -/
theorem nest_iff_balanced : (∃ es, nest ts = .ok es) ↔ Balanced maxListDepth (ts.map Token.kind) := by
  have goes : (∃ n, Nesting.empty.readAll ts = .ok n) ↔ _ := readAll_iff_keeps (Nat.zero_le _)
  rw [balanced_iff]
  constructor
  · rintro ⟨es, nests⟩
    obtain ⟨n, reads, finishes⟩ := bind_eq_ok_iff.1 nests
    have lengths : n.opened.length + _ = 0 + _ := length_opened_readAll reads
    unfold Nesting.finish at finishes
    split at finishes
    · next none_ =>
      rw [none_, List.length_nil, Nat.zero_add, Nat.zero_add] at lengths
      exact ⟨goes.1 ⟨n, reads⟩, lengths.symm⟩
    · cases finishes
  · rintro ⟨keeps, ends⟩
    obtain ⟨n, reads⟩ := goes.2 keeps
    have lengths : n.opened.length + _ = 0 + _ := length_opened_readAll reads
    have none_ : n.opened = [] := List.length_eq_zero_iff.1 (by omega)
    refine ⟨n.top.reverse, bind_eq_ok_iff.2 ⟨n, reads, ?_⟩⟩
    unfold Nesting.finish
    rw [none_]

end Built

end Nesting

/-- A source is read by nesting its tokens. -/
theorem readAll_eq_nest {source : String} {ts : List Token} (tokens : tokenise source = .ok ts) :
    readAll source = nest ts := by
  unfold readAll
  rw [tokens]
  rfl

/-- Tokens make up expressions exactly if their parentheses are balanced and no more than 512 lists are open at
once.  These expressions are made of the tokens in order: written down they are the tokens again, and each list
goes from its left parenthesis up to its right one. -/
theorem readAll_iff_balanced {source : String} {ts : List Token} (tokens : tokenise source = .ok ts) :
    ((∃ es, readAll source = .ok es) ↔ Balanced 512 (ts.map Token.kind)) ∧
      ∀ es, readAll source = .ok es → SExpr.tokensAll es = ts.map Token.kind ∧ Covers es ts := by
  rw [readAll_eq_nest tokens]
  refine ⟨Nesting.nest_iff_balanced, fun es nests => ?_⟩
  have covers := Nesting.covers_of_nest nests
  exact ⟨covers.tokensAll, covers⟩

/-- A list in a list, on two lines. -/
def nestedText : String := "(a\n (b))"

/-- The tokens of `nestedText`. -/
def nestedTokens : List Token :=
  [⟨.leftParen, 0, 1, 1, 1⟩, ⟨.keyword "a", 1, 2, 1, 2⟩, ⟨.leftParen, 4, 5, 2, 2⟩, ⟨.keyword "b", 5, 6, 2, 3⟩,
    ⟨.rightParen, 6, 7, 2, 4⟩, ⟨.rightParen, 7, 8, 2, 5⟩]

theorem nestedTokens_balanced : tokenise nestedText = .ok nestedTokens ∧
    Balanced 512 (nestedTokens.map Token.kind) ∧
    Covers [.list ⟨0, 8, 1, 1⟩ [.atom ⟨.keyword "a", 1, 2, 1, 2⟩,
      .list ⟨4, 7, 2, 2⟩ [.atom ⟨.keyword "b", 5, 6, 2, 3⟩]]] nestedTokens := by
  have tokens : tokenise nestedText = .ok nestedTokens := by decide +kernel
  have reads := (readAll_eq_nest tokens).trans rfl
  obtain ⟨balanced, made⟩ := readAll_iff_balanced tokens
  exact ⟨tokens, balanced.1 ⟨_, reads⟩, (made _ reads).2⟩

end WasmEngine.Wat
