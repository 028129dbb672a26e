import WasmEngine.Proofs.Wat.BalancedTokens
import WasmEngine.Proofs.Wat.PlacedModules
import WasmEngine.Proofs.Wat.TokenTiling

/-!
# Inserted gaps

A gap that begins with a blank may stand in front of a source and after each of its tokens: the tokens stay of
the same kinds (`tokenise_insert`), only their places change, and on these no program depends.
-/

namespace WasmEngine.Wat

open Outcome

/-! ## Lists do not depend on places -/

namespace Nesting

/-- Open lists and finished expressions that differ in their places only. -/
structure Same (n n' : Nesting) : Prop where
  opened : List.Forall₂ (fun level level' => List.Forall₂ SExpr.Same level.2 level'.2) n.opened n'.opened
  top : List.Forall₂ SExpr.Same n.top n'.top

section Same

variable {n n' : Nesting} {t t' : Token} {ts ts' : List Token}

/-- Nestings that are the same stay so with expressions that are. -/
theorem Same.push (same : Same n n') {e e' : SExpr} (last : e.Same e') : Same (n.push e) (n'.push e') := by
  obtain ⟨opened, top⟩ := n
  obtain ⟨opened', top'⟩ := n'
  obtain ⟨levels, finished⟩ := same
  cases levels with
  | nil => exact ⟨.nil, .cons last finished⟩
  | cons inner outer => exact ⟨.cons (.cons last inner) outer, finished⟩

theorem agrees_read (same : Same n n') (kind : t.kind = t'.kind) : Agrees Same (n.read t) (n'.read t') := by
  by_cases left : t.kind = .leftParen
  · rw [read_left left, read_left (kind ▸ left), same.opened.length_eq]
    split
    · exact .error rfl
    · exact .ok ⟨.cons .nil same.opened, same.top⟩
  by_cases right : t.kind = .rightParen
  · rw [read_right right, read_right (kind ▸ right)]
    obtain ⟨opened, top⟩ := n
    obtain ⟨opened', top'⟩ := n'
    obtain ⟨levels, finished⟩ := same
    cases levels with
    | nil => exact .error rfl
    | @cons _ _ outer outer' inner levels =>
      have outside : Same ⟨outer, top⟩ ⟨outer', top'⟩ := ⟨levels, finished⟩
      exact .ok (outside.push (.list _ _ (List.forall₂_reverse_iff.2 inner)))
  · rw [read_atom left right, read_atom (kind ▸ left) (kind ▸ right)]
    obtain ⟨k, span⟩ := t
    obtain ⟨k', span'⟩ := t'
    obtain rfl : k = k' := kind
    exact .ok (same.push (.atom k span span'))

theorem agrees_readAll (same : Same n n') (kinds : ts.map Token.kind = ts'.map Token.kind) :
    Agrees Same (n.readAll ts) (n'.readAll ts') := by
  induction ts generalizing n n' ts' with
  | nil =>
    obtain rfl := List.map_eq_nil_iff.1 kinds.symm
    exact .ok same
  | cons t ts ih =>
    obtain ⟨t', ts', rfl, kind, rest⟩ := List.map_eq_cons_iff.1 kinds.symm
    rw [readAll_cons, readAll_cons]
    exact (agrees_read same kind.symm).bind fun _ _ same => ih same rest.symm

theorem agrees_finish (same : Same n n') : Agrees (List.Forall₂ SExpr.Same) n.finish n'.finish := by
  obtain ⟨opened, top⟩ := n
  obtain ⟨opened', top'⟩ := n'
  obtain ⟨levels, finished⟩ := same
  cases levels with
  | nil => exact .ok (List.forall₂_reverse_iff.2 finished)
  | cons => exact .error rfl

/-- Tokens of the same kinds make up the same expressions at whatever places. -/
theorem agrees_nest (kinds : ts.map Token.kind = ts'.map Token.kind) :
    Agrees (List.Forall₂ SExpr.Same) (nest ts) (nest ts') :=
  (agrees_readAll ⟨.nil, .nil⟩ kinds).bind fun _ _ same => agrees_finish same

end Same

end Nesting

/-- Sources with tokens of the same kinds are read alike. -/
theorem agrees_parse {source source' : String} {ts ts' : List Token} (tokens : tokenise source = .ok ts)
    (tokens' : tokenise source' = .ok ts') (kinds : ts.map Token.kind = ts'.map Token.kind) :
    Agrees Eq (parse source) (parse source') := by
  -- the fuel goes by the length of a source, and that is enough for its tokens
  have less := length_le_of_tokenise tokens
  have less' := length_le_of_tokenise tokens'
  have lengths := congrArg List.length kinds
  rw [List.length_map, List.length_map] at lengths
  have sizes : ∀ es, nest ts = .ok es → SExpr.size es = ts.length := fun es nests => by
    unfold SExpr.size
    rw [(Nesting.covers_of_nest nests).tokensAll, List.length_map]
  have nests := Nesting.agrees_nest kinds
  unfold parse
  rw [readAll_eq_nest tokens, readAll_eq_nest tokens']
  generalize nest ts = r at nests sizes ⊢
  generalize nest ts' = r' at nests ⊢
  cases nests with
  | error reason => exact .error reason
  | @ok es es' same =>
    have size := sizes es rfl
    exact (agreesM_parseProgram same (by omega) .empty .empty rfl).bind fun _ _ both => agrees_pure both.1

/-! ## Gaps before and after tokens -/

/-- A gap that begins with a blank. -/
inductive BlankLayout : List Char → Prop
  | intro {c : Char} {cs : List Char} (blank : isBlank c = true) (rest : Layout cs) : BlankLayout (c :: cs)

section Insertion

variable {c : Cursor} {t : Token} {ts : List Token} {gap : List Char} {kind : TokenKind}

/-- A gap that begins with a blank is a layout. -/
theorem BlankLayout.layout (blank : BlankLayout gap) : Layout gap := by
  obtain ⟨blank, rest⟩ := blank
  exact .blank blank rest

/-- A token ends where a blank is put after it. -/
theorem BlankLayout.mayPrecede (blank : BlankLayout gap) (kind : TokenKind) (cs : List Char) :
    kind.MayPrecede (gap ++ cs) := by
  obtain ⟨blank, -⟩ := blank
  exact mayPrecede_of_isBlank kind blank _

/-- Further on, a gap is not seen by a token. -/
theorem TokenKind.MayPrecede.insert {as bs : List Char} (precedes : kind.MayPrecede (as ++ bs))
    (blank : BlankLayout gap) : kind.MayPrecede (as ++ (gap ++ bs)) := by
  cases as with
  | nil => exact blank.mayPrecede kind bs
  | cons => cases kind <;> exact precedes

/-- A gap after a token leaves all tokens of the same kinds. -/
theorem Tiled.insert (tiled : Tiled c ts) (listed : t ∈ ts) (blank : BlankLayout gap) :
    ∃ before after, c.Past before after ∧ t.span.stop = after.pos.offset ∧
      HasKinds (before ++ (gap ++ after.rest)) (ts.map Token.kind) := by
  induction tiled with
  | done => cases listed
  | @token c next first ts lexes rest ih =>
    obtain ⟨mid, gap', text, skipped, read, layout, some_, lexes, precedes, span⟩ := lexes
    obtain rfl | later := List.mem_cons.1 listed
    · refine ⟨gap' ++ text, next, skipped.trans read, by rw [span]; rfl, ?_⟩
      rw [List.append_assoc]
      exact .token layout some_ lexes (blank.mayPrecede _ _) (rest.hasKinds.after blank.layout)
    · obtain ⟨before, after, past, stop, has⟩ := ih later
      refine ⟨gap' ++ text ++ before, after, (skipped.trans read).trans past, stop, ?_⟩
      rw [List.append_assoc, List.append_assoc]
      rw [past.rest_eq] at precedes
      exact .token layout some_ lexes (precedes.insert blank) has

end Insertion

/-! ## Sources -/

section Sources

variable {pre post gap : String} {ts : List Token}

/-- The bytes in front of a place tell where it is. -/
theorem append_inj_of_utf8Len {as bs as' bs' : List Char} (same : as ++ bs = as' ++ bs')
    (bytes : String.utf8Len as = String.utf8Len as') : as = as' ∧ bs = bs' := by
  obtain ⟨cs, rfl, rfl⟩ | ⟨cs, rfl, rfl⟩ := List.append_eq_append_iff.1 same
  · rw [String.utf8Len_append] at bytes
    obtain rfl := String.utf8Len_eq_zero.1 (by omega : String.utf8Len cs = 0)
    exact ⟨(List.append_nil as).symm, rfl⟩
  · rw [String.utf8Len_append] at bytes
    obtain rfl := String.utf8Len_eq_zero.1 (by omega : String.utf8Len cs = 0)
    exact ⟨List.append_nil as', rfl⟩

/-- A gap that begins with a blank leaves all tokens of the same kinds, unless a count has no room in the new source. -/
theorem tokenise_insert (tokens : tokenise (pre ++ post) = .ok ts)
    (place : pre = "" ∨ ∃ t ∈ ts, t.span.stop = pre.utf8ByteSize) (blank : BlankLayout gap.toList) :
    (∃ ts', tokenise (pre ++ gap ++ post) = .ok ts' ∧ ts'.map Token.kind = ts.map Token.kind) ∨
      (2 ^ 32 - 1 ≤ (pre ++ gap ++ post).utf8ByteSize ∧
        ∃ e, tokenise (pre ++ gap ++ post) = .error e ∧ e.kind = .overflow) := by
  have tiled := tiled_of_tokenise tokens
  have has : HasKinds (pre ++ gap ++ post).toList (ts.map Token.kind) := by
    obtain rfl | ⟨t, listed, stop⟩ := place
    · rw [String.empty_append] at tiled
      rw [String.empty_append, String.toList_append]
      exact tiled.hasKinds.after blank.layout
    · obtain ⟨before, after, past, stop', has⟩ := tiled.insert listed blank
      have split : before ++ after.rest = pre.toList ++ post.toList := by
        rw [← String.toList_append]
        exact past.rest_eq.symm
      have bytes : String.utf8Len before = String.utf8Len pre.toList := by
        rw [String.utf8Len_toList, ← stop, stop', past.pos_eq, Position.offset_steps]
        exact (Nat.zero_add _).symm
      obtain ⟨rfl, rest⟩ := append_inj_of_utf8Len split bytes
      rwa [rest, ← List.append_assoc, ← String.toList_append, ← String.toList_append] at has
  obtain ⟨ts', tiled', kinds⟩ := has .origin
  exact (tokenise_of_tiled tiled').imp (fun tokens' => ⟨ts', tokens', kinds⟩) id

/-- A gap that begins with a blank means nothing at the start of a source and right after one of its tokens: the
tokens stay of the same kinds, and the source is read as the same program or refused with the same message.  The
exception is a new source of 4 GiB with more lines, columns or comments than can be counted. -/
theorem parse_insert (tokens : tokenise (pre ++ post) = .ok ts)
    (place : pre = "" ∨ ∃ t ∈ ts, t.span.stop = pre.utf8ByteSize) (blank : BlankLayout gap.toList) :
    ((∃ ts', tokenise (pre ++ gap ++ post) = .ok ts' ∧ ts'.map Token.kind = ts.map Token.kind) ∧
      ((∃ p, parse (pre ++ post) = .ok p ∧ parse (pre ++ gap ++ post) = .ok p) ∨
        ∃ e e', parse (pre ++ post) = .error e ∧ parse (pre ++ gap ++ post) = .error e' ∧
          e'.kind.message = e.kind.message)) ∨
      (2 ^ 32 - 1 ≤ (pre ++ gap ++ post).utf8ByteSize ∧
        ∃ e, tokenise (pre ++ gap ++ post) = .error e ∧ e.kind = .overflow) := by
  refine (tokenise_insert tokens place blank).imp (fun ⟨ts', tokens', kinds⟩ => ⟨⟨ts', tokens', kinds⟩, ?_⟩) id
  have agrees := agrees_parse tokens tokens' kinds.symm
  generalize parse (pre ++ post) = r at agrees ⊢
  generalize parse (pre ++ gap ++ post) = r' at agrees ⊢
  cases agrees with
  | ok same => exact .inl ⟨_, rfl, congrArg Except.ok same.symm⟩
  | error reason => exact .inr ⟨_, _, rfl, rfl, congrArg ParseErrorKind.message reason.symm⟩

end Sources

/-- A blank, and comments with parentheses in them. -/
def commentGap : String := " ;; )\n(;);)"

/-- The tokens of a function with one instruction. -/
def functionTokens : List Token :=
  [⟨.leftParen, 0, 1, 1, 1⟩, ⟨.keyword "func", 1, 5, 1, 2⟩, ⟨.keyword "nop", 6, 9, 1, 7⟩, ⟨.rightParen, 9, 10, 1, 10⟩]

theorem parse_insert_commentGap : tokenise ("(func nop" ++ ")") = .ok functionTokens ∧
    (∃ ts, tokenise ("(func nop" ++ commentGap ++ ")") = .ok ts ∧ ts.map Token.kind = functionTokens.map Token.kind) ∧
    ∃ p, parse ("(func nop" ++ ")") = .ok p ∧ parse ("(func nop" ++ commentGap ++ ")") = .ok p := by
  have tokens : tokenise ("(func nop" ++ ")") = .ok functionTokens := by decide +kernel
  have blank : BlankLayout commentGap.toList := by
    rw [show commentGap.toList = [' ', ';', ';', ' ', ')', '\n', '(', ';', ')', ';', ')'] by decide +kernel]
    have comment : CommentTail [')', ';', ')'] := .char ⟨nofun, nofun⟩ .close
    have line : '\n' ∉ [' ', ')'] := by decide
    exact .intro rfl (.line line (.block comment .nil))
  obtain ⟨kinds, parses | ⟨e, -, fails, -⟩⟩ | ⟨long, -⟩ :=
    parse_insert tokens (.inr ⟨_, List.mem_cons_of_mem _ (List.mem_cons_of_mem _ List.mem_cons_self), rfl⟩) blank
  · exact ⟨tokens, kinds, parses⟩
  · have accepted : (parse ("(func nop" ++ ")")).isOk = true := by decide +kernel
    rw [fails] at accepted
    cases accepted
  · exact absurd long (by decide +kernel)

/-! ## Comments that cannot be counted -/

/-- So many block comments inside one another. -/
def nestedComments : Nat → List Char
  | 0 => []
  | n + 1 => '(' :: ';' :: (nestedComments n ++ [';', ')'])

/-- Comments nested to any depth are closed by as many closings. -/
theorem commentTail_nestedComments (n : Nat) : CommentTail (nestedComments n ++ [';', ')']) := by
  induction n with
  | zero => exact .close
  | succ n ih => exact .nested ih .close

/-- Inside `depth` comments, more of them than can be counted stop the lexer. -/
theorem skipGap_nestedComments (start : Position) {n depth : Nat} (counted : depth < maxCommentDepth)
    (deep : maxCommentDepth < depth + 1 + n) (pos : Position) (cs : List Char) :
    ∃ span next, skipGap pos (.inside start (depth + 1)) (nestedComments n ++ cs) = ⟨.error ⟨.overflow, span⟩, next⟩ := by
  induction n generalizing depth pos cs with
  | zero => omega
  | succ n ih =>
    have split : nestedComments (n + 1) ++ cs = '(' :: ';' :: (nestedComments n ++ ([';', ')'] ++ cs)) := by
      rw [nestedComments, List.cons_append, List.cons_append, List.append_assoc]
    rw [split]
    by_cases full : depth + 1 = maxCommentDepth
    · rw [full, skipGap_full]
      exact ⟨_, _, rfl⟩
    · rw [skipGap_nested _ _ (by omega)]
      exact ih (by omega) (by omega) _ _

/-- A blank and comments that are nested deeper than can be counted. -/
theorem tokenise_nestedComments {n : Nat} (deep : maxCommentDepth < n) :
    ∃ e, tokenise (String.ofList (' ' :: nestedComments n)) = .error e ∧ e.kind = .overflow := by
  obtain ⟨n, rfl⟩ : ∃ m, n = m + 1 := ⟨n - 1, by omega⟩
  obtain ⟨span, next, stops⟩ := skipGap_nestedComments (Position.origin.step ' ')
    (by decide : 0 < maxCommentDepth) (show maxCommentDepth < 0 + 1 + n by omega) (((Position.origin.step ' ').step '(').step ';') [';', ')']
  have skipped : skipGap .origin .blank (' ' :: nestedComments (n + 1)) = ⟨.error ⟨.overflow, span⟩, next⟩ := by
    rw [skipGap_of_isBlank _ rfl, nestedComments, skipGap_openBlock]
    exact stops
  have runs : Runs (.start (String.ofList (' ' :: nestedComments (n + 1)))) [.error ⟨.overflow, 0, 0, 1, 1⟩] := by
    unfold Cursor.start
    rw [String.toList_ofList]
    refine .overflow (.inr ⟨⟨.error ⟨.overflow, span⟩, next⟩, ?_, Bool.or_true _⟩) (List.cons_ne_nil _ _)
    unfold nextItem?
    dsimp only
    rw [skipped]
  unfold tokenise
  rw [(runs_lexItems _).unique runs]
  exact ⟨_, rfl, rfl⟩

/-- A blank and one comment more than can be counted, inside one another. -/
def deepGap : String := String.ofList (' ' :: nestedComments (maxCommentDepth + 1))

/-- With comments that cannot be counted a source without tokens is not lexed any more, and where a source is refused
after a gap as before, the text of the error tells of another line. -/
theorem insertion_counts :
    (tokenise ("" ++ "") = .ok [] ∧ BlankLayout deepGap.toList ∧
      ∃ e, tokenise ("" ++ deepGap ++ "") = .error e ∧ e.kind = .overflow) ∧
    (tokenise ("" ++ "(") = .ok [⟨.leftParen, 0, 1, 1, 1⟩] ∧ BlankLayout "\n".toList ∧
      ∃ e e', parse ("" ++ "(") = .error e ∧ parse ("" ++ "\n" ++ "(") = .error e' ∧ e'.message ≠ e.message) := by
  have before : tokenise ("" ++ "(") = .ok [⟨.leftParen, 0, 1, 1, 1⟩] := by decide +kernel
  have after : tokenise ("" ++ "\n" ++ "(") = .ok [⟨.leftParen, 1, 2, 2, 1⟩] := by decide +kernel
  have refused : parse ("" ++ "(") = .error ⟨.unclosedOpen, 0, 1, 1, 1⟩ := by
    rw [parse, readAll_eq_nest before]
    rfl
  have refused' : parse ("" ++ "\n" ++ "(") = .error ⟨.unclosedOpen, 1, 2, 2, 1⟩ := by
    rw [parse, readAll_eq_nest after]
    rfl
  refine ⟨⟨by decide +kernel, ?_, ?_⟩, before, ?_, _, _, refused, refused', by decide +kernel⟩
  · unfold deepGap
    rw [String.toList_ofList, nestedComments, ← List.append_nil (';' :: _)]
    exact .intro rfl (.block (commentTail_nestedComments maxCommentDepth) .nil)
  · rw [String.empty_append, String.append_empty]
    exact tokenise_nestedComments (Nat.lt_succ_self _)
  · rw [show "\n".toList = ['\n'] by decide +kernel]
    exact .intro rfl .nil

end WasmEngine.Wat
