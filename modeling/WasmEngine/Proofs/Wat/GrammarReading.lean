import WasmEngine.Proofs.Syntax.Numbering
import WasmEngine.Proofs.Wat.Derivations

/-!
# What the grammar describes is read

Where the grammar says what expressions mean, the readers give that, if their fuel goes beyond the number
of tokens (`Sequence.read`).  Only the numbers of the labels may be others.
-/

namespace WasmEngine.Wat

open Outcome

/-! ## Sizes -/

/-- The number of tokens of expressions. -/
def SExpr.size (es : List SExpr) : Nat := (SExpr.tokensAll es).length

section Size

variable (span : Span) (e : SExpr) (es es' : List SExpr)

@[simp] theorem SExpr.size_nil : SExpr.size [] = 0 := rfl

theorem SExpr.size_cons : SExpr.size (e :: es) = SExpr.size [e] + SExpr.size es := by
  simp [SExpr.size, SExpr.tokensAll]

theorem SExpr.size_append : SExpr.size (es ++ es') = SExpr.size es + SExpr.size es' := by
  induction es with
  | nil => simp
  | cons e es ih =>
    rw [List.cons_append, SExpr.size_cons, ih, SExpr.size_cons e es]
    omega

theorem SExpr.size_list : SExpr.size [.list span es] = SExpr.size es + 2 := by
  simp [SExpr.size, SExpr.tokensAll, SExpr.tokens]

theorem SExpr.one_le_size : 1 ≤ SExpr.size [e] := by
  cases e with
  | atom => exact Nat.le_refl 1
  | list span es =>
    rw [SExpr.size_list]
    omega

end Size

/-- What is left of a list is no larger. -/
theorem size_le_of_split {i after : Items} {xs : List SExpr} (split : i.rest = xs ++ after.rest) :
    SExpr.size after.rest ≤ SExpr.size i.rest := by
  rw [split, SExpr.size_append]
  exact Nat.le_add_left _ _

theorem size_takeId_le (i : Items) : SExpr.size i.takeId.2.rest ≤ SExpr.size i.rest := by
  obtain ⟨-, m, split, -⟩ := marked_of_takeId i
  exact size_le_of_split split

/-- The items of a list are smaller than the list. -/
theorem size_ofExpr_lt (e : SExpr) : SExpr.size (Items.ofExpr e).rest < SExpr.size [e] := by
  cases e with
  | atom => exact SExpr.one_le_size _
  | list span items =>
    rw [SExpr.size_list]
    unfold Items.ofExpr
    dsimp only
    split
    · cases items with
      | nil => exact Nat.succ_pos _
      | cons e items =>
        rw [SExpr.size_cons]
        simp only [List.drop_one, List.tail_cons]
        omega
    · omega

/-! ## Readers that give something -/

/-- A reader gives something with a property, whatever names were handed out before. -/
def Gets {α : Type} (p : α → Prop) (r : ParseM α) : Prop := ∀ g, ∃ a g', r g = .ok (a, g') ∧ p a

section Gets

variable {α β : Type} {p : α → Prop} {q : β → Prop}

/-- Readings in sequence get what the second does from what the first one gets. -/
theorem Gets.bind {x : ParseM α} {f : α → ParseM β} (first : Gets p x) (rest : ∀ a, p a → Gets q (f a)) :
    Gets q (x >>= f) := by
  intro g
  obtain ⟨a, mid, here, now⟩ := first g
  obtain ⟨b, g', there, later⟩ := rest a now mid
  exact ⟨b, g', bind_eq_ok_iff.2 ⟨(a, mid), here, there⟩, later⟩

theorem gets_pure {a : α} (now : p a) : Gets p (pure a) := fun g => ⟨a, g, rfl, now⟩

theorem gets_lift {r : Parsed α} {a : α} (gives : r = .ok a) (now : p a) : Gets p (liftM r) := fun g =>
  ⟨a, g, by rw [gives]; rfl, now⟩

end Gets

/-! ## The parts of blocks -/

theorem requireDepth_of_lt {depth : Nat} (nested : depth < Binary.maxNesting) (site : SExpr) :
    requireDepth depth site = .ok () := if_neg (Nat.not_le.2 nested)

/-- A name that stands first is taken. -/
theorem takeId_of_id {e : SExpr} {name : String} (named : e.id? = some name) (rest : List SExpr)
    (span : Span) : Items.takeId ⟨e :: rest, span⟩ = (some name, ⟨rest, span⟩) := by
  simp only [Items.takeId, named]

theorem takeId_of_list {e : SExpr} (isList : e.isList = true) (rest : List SExpr) (span : Span) :
    Items.takeId ⟨e :: rest, span⟩ = (none, ⟨e :: rest, span⟩) := by
  cases e with
  | atom => cases isList
  | list => rfl

section Parts

variable {l r m tail : List SExpr} {stem : String} {label : Identifier} {result : Option Valtype}

/-- A label is read, or a fresh one given, up to renumbering. -/
theorem Labelled.read (h : Labelled stem l label) {rest : List SExpr} {span : Span}
    (nameless : Items.takeId ⟨rest, span⟩ = (none, ⟨rest, span⟩)) :
    Gets (fun q => label.Renumbered q.1 ∧ q.2 = ⟨rest, span⟩) (nameOrFresh ⟨l ++ rest, span⟩ stem) := by
  unfold nameOrFresh
  cases h with
  | named named =>
    rw [List.singleton_append, takeId_of_id named]
    exact gets_pure ⟨.same _, rfl⟩
  | generated n =>
    rw [List.nil_append, nameless]
    exact fun g => ⟨_, _, rfl, .number stem n _, rfl⟩

theorem isList_of_headed {e : SExpr} {word : String} (headed : e.isHeadedBy word = true) :
    e.isList = true := by
  cases e with
  | atom => cases headed
  | list => rfl

/-- No name is taken where a result type stands. -/
theorem takeId_of_typed (h : Typed r result) (clear : Clear tail) (span : Span) :
    Items.takeId ⟨r ++ tail, span⟩ = (none, ⟨r ++ tail, span⟩) := by
  cases h with
  | none => exact clear.takeId span
  | some headed => exact takeId_of_list (isList_of_headed headed) _ span

/-- A result type is read where it stands. -/
theorem Typed.read (h : Typed r result) (clear : Clear tail) (span : Span) :
    parseBlockResult ⟨r ++ tail, span⟩ = .ok (result, ⟨tail, span⟩) := by
  unfold parseBlockResult
  cases h with
  | none => rw [List.nil_append, clear.takeList (by decide)]
  | @some e types headed read few =>
    simp only [Items.takeList, List.singleton_append, headed, if_true, read]
    cases types with
    | nil => rfl
    | cons t types =>
      cases List.eq_nil_of_length_eq_zero (Nat.le_zero.1 (Nat.le_of_succ_le_succ few))
      rfl

/-- A name at the end of a construct is passed over. -/
theorem Marked.read (h : Marked m) (clear : Clear tail) (span : Span) :
    (Items.takeId ⟨m ++ tail, span⟩).2 = ⟨tail, span⟩ := by
  cases h with
  | nothing => exact congrArg Prod.snd (clear.takeId span)
  | named named => exact congrArg Prod.snd (takeId_of_id named tail span)

end Parts

/-- The word of an instruction ends no sequence. -/
theorem Plain.notStop {depth : Nat} {word : String} {own : List SExpr} {node : Node}
    (h : Plain depth word own node) : word ≠ "end" ∧ word ≠ "else" := by
  cases h with
  | op immediates => exact immediates.notStop
  | block opens => obtain rfl | rfl := opens <;> decide
  | ifElse => decide
  | ifOnly => decide

/-- Where a construct closes, no immediate stands. -/
theorem StopsAt.clear {tail after : List SExpr} {words : List String} {stop : Option String}
    (h : StopsAt words tail stop after) (listed : ∀ word ∈ words, word = "end" ∨ word = "else") :
    Clear tail := by
  cases h with
  | finish => exact trivial
  | word keyword inside => exact clear_of_stop keyword (listed _ inside) _

theorem ofExpr_of_keyword {e : SExpr} {word : String} (keyword : e.keyword? = some word) (span : Span)
    (items : List SExpr) : Items.ofExpr (.list span (e :: items)) = ⟨items, span⟩ := by
  simp [Items.ofExpr, SExpr.head?, keyword]

/-! ## The readers follow the grammar the other way -/

theorem isBlockWord_of_opens {word : String} (opens : word = "block" ∨ word = "loop") :
    (word == "if") = false ∧ isBlockWord word = true := by
  obtain rfl | rfl := opens <;> decide

/-- Constructs with renumbered labels and insides are renumbered. -/
theorem renumbered_blockNode {word : String} {label label' : Identifier} (labels : label.Renumbered label')
    {body body' : List Node} (inside : RenumberedIn body body') (result : Option Valtype) :
    (blockNode word label result body).Renumbered (blockNode word label' result body') := by
  unfold blockNode
  split
  · exact .loop labels inside result
  · exact .block labels inside result

mutual

/-- A derived sequence is read as what it derives, up to renumbering. -/
theorem Sequence.read {depth : Nat} {xs : List SExpr} {nodes : List Node} :
    Sequence depth xs nodes → ∀ {fuel : Nat} {words : List String} {tail after : List SExpr}
      {stop : Option String} {span : Span}, SExpr.size xs < fuel →
      (∀ word ∈ words, word = "end" ∨ word = "else") → StopsAt words tail stop after →
      Gets (fun r => RenumberedIn nodes r.1 ∧ r.2 = (stop, ⟨after, span⟩))
        (parseSequence fuel depth words ⟨xs ++ tail, span⟩)
  | .nil _, fuel + 1, words, _, _, _, span, _, _, stops => by
    rw [parseSequence]
    cases stops with
    | finish => exact gets_pure ⟨.nil, rfl⟩
    | word keyword inside =>
      have listed : words.contains _ = true := List.contains_iff_mem.2 inside
      simp only [List.nil_append, isList_of_keyword? keyword, keyword, listed]
      exact gets_pure ⟨.nil, rfl⟩
  | @Sequence.folded _ e es _ _ first rest, fuel + 1, _, tail, after, stop, span, enough, listed, stops => by
    rw [SExpr.size_cons] at enough
    have one := SExpr.one_le_size e
    rw [List.cons_append, parseSequence]
    simp only [first.isList.1, if_true]
    refine (first.read (by omega)).bind fun nodes' here => ?_
    refine (rest.read (by omega) listed stops).bind fun r ⟨others, left⟩ => ?_
    exact gets_pure ⟨here.append others, left⟩
  | @Sequence.plain _ e word own es _ _ keyword first rest, fuel + 1, words, tail, after, stop, span, enough,
      listed, stops => by
    rw [SExpr.size_cons, SExpr.size_append] at enough
    have one := SExpr.one_le_size e
    have going := first.notStop
    have unlisted : words.contains word = false := by
      simpa using fun inside => (listed _ inside).elim going.1 going.2
    rw [List.cons_append, parseSequence]
    simp only [isList_of_keyword? keyword, keyword, unlisted, beq_eq_false_iff_ne.2 going.1,
      beq_eq_false_iff_ne.2 going.2, List.append_assoc, Bool.or_self, Bool.false_eq_true, if_false]
    refine (first.read (by omega) (rest.clear (stops.clear listed))).bind fun q ⟨here, left⟩ => ?_
    rw [left]
    refine (rest.read (by omega) listed stops).bind fun r ⟨others, left⟩ => ?_
    exact gets_pure ⟨.cons here others, left⟩

/-- A derived plain instruction is read as what it derives, up to renumbering. -/
theorem Plain.read {depth : Nat} {word : String} {own : List SExpr} {node : Node} :
    Plain depth word own node → ∀ {fuel : Nat} {site : SExpr} {tail : List SExpr} {span : Span},
      SExpr.size own < fuel → Clear tail →
      Gets (fun r => node.Renumbered r.1 ∧ r.2 = ⟨tail, span⟩)
        (parsePlain fuel depth word site ⟨own ++ tail, span⟩)
  | .op immediates, fuel + 1, site, tail, span, _, clear => by
    have notIf : (word == "if") = false := by
      have notBlock := immediates.notBlock
      simp only [isBlockWord, Bool.or_eq_false_iff] at notBlock
      exact notBlock.2
    rw [parsePlain]
    simp only [notIf, immediates.notBlock, Bool.false_eq_true, if_false]
    exact gets_lift (immediates.takes site _ (SExpr.Same.refl_all _) tail span clear) ⟨.same node, rfl⟩
  | @Plain.block _ _ l r body m close _ _ _ opens nested labelled typed inside closes marked, fuel + 1, site, tail, span, enough, clear => by
    simp only [SExpr.size_append, SExpr.size_cons close m] at enough
    have one := SExpr.one_le_size close
    obtain ⟨notIf, isBlock⟩ := isBlockWord_of_opens opens
    have stops : StopsAt ["end"] (close :: (m ++ tail)) _ _ := .word closes List.mem_cons_self
    have ends : ∀ word ∈ ["end"], word = "end" ∨ word = "else" := by simp
    have clear' := inside.clear (stops.clear ends)
    rw [parsePlain]
    simp only [notIf, isBlock, if_true, Bool.false_eq_true, if_false, List.append_assoc, List.cons_append]
    refine (gets_lift (p := fun _ => True) (requireDepth_of_lt nested site) trivial).bind fun _ _ => ?_
    refine (labelled.read (takeId_of_typed typed clear' span)).bind fun q ⟨labels, left⟩ => ?_
    rw [left]
    refine (gets_lift (typed.read clear' span) rfl).bind fun q left => ?_
    rw [← left]
    refine (inside.read (by omega) ends stops).bind fun ⟨_, _, _⟩ ⟨nodes, left⟩ => ?_
    cases left
    exact gets_pure ⟨renumbered_blockNode labels nodes _, marked.read clear span⟩
  | @Plain.ifElse _ l r body body' m m' middle close _ _ _ _ nested labelled typed whenTrue divides marked
      whenFalse closes marked', fuel + 1, site, tail, span, enough, clear => by
    simp only [SExpr.size_append, SExpr.size_cons close m', SExpr.size_cons middle (m ++ _)] at enough
    have one := SExpr.one_le_size middle
    have one' := SExpr.one_le_size close
    have stops : StopsAt ["else", "end"] (middle :: (m ++ (body' ++ close :: (m' ++ tail)))) _ _ :=
      .word divides List.mem_cons_self
    have stops' : StopsAt ["end"] (close :: (m' ++ tail)) _ _ := .word closes List.mem_cons_self
    have divisions : ∀ word ∈ ["else", "end"], word = "end" ∨ word = "else" := by simp
    have ends : ∀ word ∈ ["end"], word = "end" ∨ word = "else" := by simp
    have clear₁ := whenTrue.clear (stops.clear divisions)
    have clear₂ := whenFalse.clear (stops'.clear ends)
    rw [parsePlain]
    simp only [beq_self_eq_true, if_true, List.append_assoc, List.cons_append]
    refine (gets_lift (p := fun _ => True) (requireDepth_of_lt nested site) trivial).bind fun _ _ => ?_
    refine (labelled.read (takeId_of_typed typed clear₁ span)).bind fun q ⟨labels, left⟩ => ?_
    rw [left]
    refine (gets_lift (typed.read clear₁ span) rfl).bind fun q left => ?_
    rw [← left]
    refine (whenTrue.read (by omega) divisions stops).bind fun ⟨_, _, _⟩ ⟨consequent, left⟩ => ?_
    cases left
    dsimp only
    rw [marked.read clear₂ span]
    refine (whenFalse.read (by omega) ends stops').bind fun ⟨_, _, _⟩ ⟨alternate, left⟩ => ?_
    cases left
    exact gets_pure ⟨.ifElse labels consequent alternate _, marked'.read clear span⟩
  | @Plain.ifOnly _ l r body m close _ _ _ nested labelled typed whenTrue closes marked, fuel + 1, site, tail, span, enough, clear => by
    simp only [SExpr.size_append, SExpr.size_cons close m] at enough
    have one := SExpr.one_le_size close
    have stops : StopsAt ["else", "end"] (close :: (m ++ tail)) _ _ :=
      .word closes (List.mem_cons_of_mem _ List.mem_cons_self)
    have divisions : ∀ word ∈ ["else", "end"], word = "end" ∨ word = "else" := by simp
    have clear' := whenTrue.clear (stops.clear divisions)
    rw [parsePlain]
    simp only [beq_self_eq_true, if_true, List.append_assoc, List.cons_append]
    refine (gets_lift (p := fun _ => True) (requireDepth_of_lt nested site) trivial).bind fun _ _ => ?_
    refine (labelled.read (takeId_of_typed typed clear' span)).bind fun q ⟨labels, left⟩ => ?_
    rw [left]
    refine (gets_lift (typed.read clear' span) rfl).bind fun q left => ?_
    rw [← left]
    refine (whenTrue.read (by omega) divisions stops).bind fun ⟨_, _, _⟩ ⟨consequent, left⟩ => ?_
    cases left
    exact gets_pure ⟨.ifElse labels consequent .nil _, marked.read clear span⟩

/-- A derived folded instruction is read as what it derives, up to renumbering. -/
theorem Folded.read {depth : Nat} {e : SExpr} {nodes : List Node} :
    Folded depth e nodes → ∀ {fuel : Nat}, SExpr.size [e] ≤ fuel →
      Gets (RenumberedIn nodes) (parseFolded fuel depth e)
  | @Folded.op _ span e word imm es _ _ keyword immediates operands, fuel, enough => by
    rw [SExpr.size_list, SExpr.size_cons, SExpr.size_append] at enough
    obtain ⟨fuel, rfl⟩ : ∃ n, fuel = n + 1 := ⟨fuel - 1, by omega⟩
    have notIf : (word == "if") = false := by
      have notBlock := immediates.notBlock
      simp only [isBlockWord, Bool.or_eq_false_iff] at notBlock
      exact notBlock.2
    rw [parseFolded]
    simp only [SExpr.head?, keyword, notIf, immediates.notBlock, beq_eq_false_iff_ne.2 immediates.notThen,
      beq_eq_false_iff_ne.2 immediates.notStop.1, beq_eq_false_iff_ne.2 immediates.notStop.2, Bool.or_self,
      Bool.false_eq_true, if_false]
    rw [ofExpr_of_keyword keyword]
    refine (gets_lift (immediates.takes _ _ (SExpr.Same.refl_all _) es span operands.clear) rfl).bind fun q left => ?_
    rw [← left]
    refine (operands.read (by omega)).bind fun nodes here => ?_
    exact gets_pure (here.append (.cons (.same _) .nil))
  | @Folded.block _ span e word l r body _ _ _ keyword opens nested labelled typed inside, fuel, enough => by
    rw [SExpr.size_list, SExpr.size_cons, SExpr.size_append, SExpr.size_append] at enough
    obtain ⟨fuel, rfl⟩ : ∃ n, fuel = n + 1 := ⟨fuel - 1, by omega⟩
    obtain ⟨notIf, isBlock⟩ := isBlockWord_of_opens opens
    have clear := inside.clear_all
    rw [parseFolded]
    simp only [SExpr.head?, keyword, notIf, isBlock, if_true, Bool.false_eq_true, if_false]
    rw [ofExpr_of_keyword keyword]
    refine (gets_lift (p := fun _ => True) (requireDepth_of_lt nested _) trivial).bind fun _ _ => ?_
    refine (labelled.read (takeId_of_typed typed clear span)).bind fun q ⟨labels, left⟩ => ?_
    rw [left]
    refine (gets_lift (typed.read clear span) rfl).bind fun q left => ?_
    rw [← left]
    have reads : Gets (fun r => RenumberedIn _ r.1 ∧ r.2 = (none, ⟨[], span⟩))
        (parseSequence fuel (depth + 1) [] ⟨body ++ [], span⟩) :=
      inside.read (by omega) (List.forall_mem_nil _) .finish
    rw [List.append_nil] at reads
    refine reads.bind fun q ⟨nodes, _⟩ => ?_
    exact gets_pure (.cons (renumbered_blockNode labels nodes _) .nil)
  | @Folded.conditional _ span e l r es _ _ _ _ _ keyword nested labelled typed arms, fuel, enough => by
    rw [SExpr.size_list, SExpr.size_cons, SExpr.size_append, SExpr.size_append] at enough
    obtain ⟨fuel, rfl⟩ : ∃ n, fuel = n + 1 := ⟨fuel - 1, by omega⟩
    rw [parseFolded]
    simp only [SExpr.head?, keyword, beq_self_eq_true, if_true]
    rw [ofExpr_of_keyword keyword]
    refine (gets_lift (p := fun _ => True) (requireDepth_of_lt nested _) trivial).bind fun _ _ => ?_
    refine (labelled.read (takeId_of_typed typed arms.clear span)).bind fun q ⟨labels, left⟩ => ?_
    rw [left]
    refine (gets_lift (typed.read arms.clear span) rfl).bind fun q left => ?_
    rw [← left]
    refine (arms.read .nil .nil (by omega)).bind fun q ⟨condition, consequent, alternate⟩ => ?_
    exact gets_pure (condition.append (.cons (.ifElse labels consequent alternate _) .nil))

/-- Derived operands are read as what they derive, up to renumbering. -/
theorem Operands.read {depth : Nat} {es : List SExpr} {nodes : List Node} :
    Operands depth es nodes → ∀ {fuel : Nat}, SExpr.size es < fuel →
      Gets (RenumberedIn nodes) (parseOperands fuel depth es)
  | .nil _, fuel + 1, _ => by
    rw [parseOperands]
    exact gets_pure .nil
  | @Operands.cons _ e es _ _ first rest, fuel + 1, enough => by
    rw [SExpr.size_cons] at enough
    have one := SExpr.one_le_size e
    rw [parseOperands, if_pos first.isList.1]
    refine (first.read (by omega)).bind fun nodes here => ?_
    refine (rest.read (by omega)).bind fun nodes others => ?_
    exact gets_pure (here.append others)

/-- Derived arms are read as what they derive, up to renumbering. -/
theorem Arms.read {depth : Nat} {es : List SExpr}
    {consequent alternate condition consequent' alternate' : List Node} :
    Arms depth es consequent alternate condition consequent' alternate' →
      ∀ {fuel : Nat} {whenTrue whenFalse : List Node}, RenumberedIn consequent whenTrue →
        RenumberedIn alternate whenFalse → SExpr.size es < fuel →
        Gets (fun r => RenumberedIn condition r.1 ∧ RenumberedIn consequent' r.2.1 ∧
          RenumberedIn alternate' r.2.2) (parseArms fuel depth es whenTrue whenFalse)
  | .nil _ _ _, fuel + 1, _, _, first, second, _ => by
    rw [parseArms]
    exact gets_pure ⟨.nil, first, second⟩
  | @Arms.whenTrue _ span e body es _ _ _ _ _ _ keyword inside rest, fuel + 1, _, _, first, second, enough => by
    rw [SExpr.size_cons, SExpr.size_list, SExpr.size_cons] at enough
    have headed : (SExpr.list span (e :: body)).isHeadedBy "then" = true := by
      simp [SExpr.isHeadedBy, SExpr.head?, keyword]
    have reads : Gets (fun r => RenumberedIn _ r.1 ∧ r.2 = (none, ⟨[], span⟩))
        (parseSequence fuel depth [] ⟨body ++ [], span⟩) :=
      inside.read (by omega) (List.forall_mem_nil _) .finish
    rw [parseArms, if_pos headed, ofExpr_of_keyword keyword]
    rw [List.append_nil] at reads
    exact reads.bind fun q ⟨nodes, _⟩ => rest.read nodes second (by omega)
  | @Arms.whenFalse _ span e body es _ _ _ _ _ _ keyword inside rest, fuel + 1, _, _, first, second, enough => by
    rw [SExpr.size_cons, SExpr.size_list, SExpr.size_cons] at enough
    have other : (SExpr.list span (e :: body)).isHeadedBy "then" = false := by
      simp [SExpr.isHeadedBy, SExpr.head?, keyword]
    have headed : (SExpr.list span (e :: body)).isHeadedBy "else" = true := by
      simp [SExpr.isHeadedBy, SExpr.head?, keyword]
    have reads : Gets (fun r => RenumberedIn _ r.1 ∧ r.2 = (none, ⟨[], span⟩))
        (parseSequence fuel depth [] ⟨body ++ [], span⟩) :=
      inside.read (by omega) (List.forall_mem_nil _) .finish
    rw [parseArms, other, if_neg Bool.false_ne_true, if_pos headed, ofExpr_of_keyword keyword]
    rw [List.append_nil] at reads
    exact reads.bind fun q ⟨nodes, _⟩ => rest.read first nodes (by omega)
  | @Arms.operand _ e es _ _ _ _ _ _ here rest, fuel + 1, _, _, first, second, enough => by
    rw [SExpr.size_cons] at enough
    have one := SExpr.one_le_size e
    rw [parseArms, here.notArm.1, here.notArm.2, if_neg Bool.false_ne_true, if_neg Bool.false_ne_true,
      if_pos here.isList.1]
    refine (here.read (by omega)).bind fun nodes now => ?_
    refine (rest.read first second (by omega)).bind fun q ⟨condition, consequent, alternate⟩ => ?_
    exact gets_pure ⟨now.append condition, consequent, alternate⟩

end

end WasmEngine.Wat
