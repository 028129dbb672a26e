import WasmEngine.Proofs.Wat.Derivations

/-!
# Unfolding instructions

The flat form of folded instructions: operands from left to right, then the operator with its immediates,
and blocks up to an `end`.  The grammar gives both the same meaning (`Sequence.unfolded`), and lists are
not nested deeper than before.
-/

namespace WasmEngine.Wat

/-! ## The flat form -/

/-- A word. -/
def SExpr.word (word : String) (span : Span) : SExpr := .atom ⟨.keyword word, span⟩

/-- Whether an expression is an arm of a folded conditional. -/
def SExpr.isArm (e : SExpr) : Bool := e.isHeadedBy "then" || e.isHeadedBy "else"

/-- The items of a list, each with its flat form. -/
abbrev Parts := List (SExpr × List SExpr)

namespace Parts

/-- The items that belong to the instruction itself. -/
def immediates (parts : Parts) : List SExpr := (parts.map Prod.fst).filter SExpr.isImmediate

/-- The flat form of the operands, from left to right. -/
def operands (parts : Parts) : List SExpr :=
  (parts.filter fun part => !part.1.isImmediate && !part.1.isArm).flatMap Prod.snd

/-- The flat form of the last arm of a kind, or of the one given if there is none. -/
def lastArm (kind : String) : Parts → List SExpr → List SExpr
  | [], arm => arm
  | (e, inside) :: parts, arm => lastArm kind parts (if e.isHeadedBy kind then inside else arm)

/-- The flat form of a list.  Lists that are no instructions stay as they are, and an arm stands for what
is in it. -/
def flatForm (span : Span) : Parts → List SExpr
  | [] => [.list span []]
  | (head, flat) :: parts =>
    match head.keyword? with
    | none => [.list span (head :: parts.map Prod.fst)]
    | some word =>
      if forms.contains word then [.list span (head :: parts.map Prod.fst)]
      else if word == "then" || word == "else" then parts.flatMap Prod.snd
      else if word == "block" || word == "loop" then
        flat ++ (parts.flatMap Prod.snd ++ [.word "end" span])
      else if word == "if" then
        operands parts ++ (flat ++ (immediates parts ++ (lastArm "then" parts [] ++
          .word "else" span :: (lastArm "else" parts [] ++ [.word "end" span]))))
      else operands parts ++ (flat ++ immediates parts)

end Parts

mutual

/-- The flat form of an expression among instructions. -/
def SExpr.unfolded : SExpr → List SExpr
  | .atom token => [.atom token]
  | .list span items => Parts.flatForm span (unfoldedEach items)

/-- Items, each with its flat form. -/
def SExpr.unfoldedEach : List SExpr → Parts
  | [] => []
  | e :: es => (e, unfolded e) :: unfoldedEach es

end

/-- The flat form of expressions in a row. -/
def SExpr.unfoldedAll (es : List SExpr) : List SExpr := es.flatMap unfolded

namespace SExpr

/-- Each part is listed with its expression, in order. -/
theorem unfoldedEach_fst (es : List SExpr) : (unfoldedEach es).map Prod.fst = es := by
  induction es with
  | nil => rfl
  | cons e es ih => rw [unfoldedEach, List.map_cons, ih]

/-- The parts of a list, put together, are the list unfolded. -/
theorem unfoldedEach_snd (es : List SExpr) : (unfoldedEach es).flatMap Prod.snd = unfoldedAll es := by
  induction es with
  | nil => rfl
  | cons e es ih => rw [unfoldedEach, List.flatMap_cons, ih, unfoldedAll, unfoldedAll, List.flatMap_cons]

theorem unfoldedEach_append (es es' : List SExpr) :
    unfoldedEach (es ++ es') = unfoldedEach es ++ unfoldedEach es' := by
  induction es with
  | nil => rfl
  | cons e es ih => rw [List.cons_append, unfoldedEach, unfoldedEach, ih, List.cons_append]

theorem unfoldedAll_cons (e : SExpr) (es : List SExpr) :
    unfoldedAll (e :: es) = unfolded e ++ unfoldedAll es := List.flatMap_cons

/-- Lists are unfolded one after the other. -/
theorem unfoldedAll_append (es es' : List SExpr) :
    unfoldedAll (es ++ es') = unfoldedAll es ++ unfoldedAll es' := List.flatMap_append

theorem unfolded_of_atom {e : SExpr} (atom : e.isList = false) : unfolded e = [e] := by
  cases e with
  | atom => rw [unfolded]
  | list => cases atom

/-- A word is unfolded to itself. -/
theorem unfolded_of_keyword {e : SExpr} {word : String} (keyword : e.keyword? = some word) :
    unfolded e = [e] := unfolded_of_atom (isList_of_keyword? keyword)

/-- What belongs to an instruction is its own flat form. -/
theorem unfolded_of_immediate {e : SExpr} (immediate : e.isImmediate = true) : unfolded e = [e] := by
  cases e with
  | atom => rw [unfolded]
  | list span items =>
    cases items with
    | nil => rfl
    | cons head items =>
      simp only [isImmediate, isList, isForm, head?, Bool.not_true, Bool.false_or] at immediate
      rw [unfolded, unfoldedEach, Parts.flatForm, unfoldedEach_fst]
      split
      · rfl
      · next word keyword =>
        rw [keyword] at immediate
        rw [if_pos immediate]

/-- Immediates are unfolded to themselves. -/
theorem unfoldedAll_of_immediate {es : List SExpr} (immediate : ∀ e ∈ es, e.isImmediate = true) :
    unfoldedAll es = es := by
  induction es with
  | nil => rfl
  | cons e es ih =>
    obtain ⟨here, others⟩ := List.forall_mem_cons.1 immediate
    rw [unfoldedAll_cons, unfolded_of_immediate here, ih others, List.singleton_append]

end SExpr

/-! ## The parts of a list -/

section Parts

variable {es es' : List SExpr}

theorem immediates_append (parts parts' : Parts) :
    Parts.immediates (parts ++ parts') = Parts.immediates parts ++ Parts.immediates parts' := by
  rw [Parts.immediates, List.map_append, List.filter_append]
  rfl

theorem operands_append (parts parts' : Parts) :
    Parts.operands (parts ++ parts') = Parts.operands parts ++ Parts.operands parts' := by
  rw [Parts.operands, List.filter_append, List.flatMap_append]
  rfl

/-- An operand adds its unfolded instructions to those of the others. -/
theorem operands_cons (e : SExpr) (flat : List SExpr) (parts : Parts) :
    Parts.operands ((e, flat) :: parts) =
      (if e.isImmediate || e.isArm then [] else flat) ++ Parts.operands parts := by
  unfold Parts.operands
  rw [List.filter_cons]
  cases e.isImmediate <;> cases e.isArm <;> rfl

/-- An immediate adds itself to the others. -/
theorem immediates_cons (e : SExpr) (flat : List SExpr) (parts : Parts) :
    Parts.immediates ((e, flat) :: parts) =
      (if e.isImmediate then [e] else []) ++ Parts.immediates parts := by
  unfold Parts.immediates
  rw [List.map_cons, List.filter_cons]
  cases e.isImmediate <;> rfl

theorem isImmediate_of_isArm {e : SExpr} (arm : e.isArm = true) : e.isImmediate = false := by
  cases e with
  | atom => cases arm
  | list span items =>
    unfold SExpr.isArm SExpr.isHeadedBy at arm
    unfold SExpr.isImmediate SExpr.isForm
    cases head : (SExpr.list span items).head? with
    | none => rfl
    | some word =>
      obtain rfl | rfl : word = "then" ∨ word = "else" := by simpa [head] using arm
      all_goals rfl

/-- A list under one of the words of the arms is an arm. -/
theorem isArm_of_keyword {e : SExpr} {word : String} (keyword : e.keyword? = some word)
    (arm : word = "then" ∨ word = "else") (span : Span) (body : List SExpr) :
    (SExpr.list span (e :: body)).isArm = true := by
  obtain rfl | rfl := arm <;> simp [SExpr.isArm, SExpr.isHeadedBy, SExpr.head?, keyword]

/-- Immediates take no part in the operands and arms. -/
theorem parts_of_immediates (own : ∀ e ∈ es, e.isImmediate = true) :
    Parts.immediates (SExpr.unfoldedEach es) = es ∧ Parts.operands (SExpr.unfoldedEach es) = [] ∧
      ∀ kind, kind = "then" ∨ kind = "else" → ∀ parts arm,
        Parts.lastArm kind (SExpr.unfoldedEach es ++ parts) arm = Parts.lastArm kind parts arm := by
  induction es with
  | nil => exact ⟨rfl, rfl, fun _ _ _ _ => rfl⟩
  | cons e es ih =>
    obtain ⟨here, others⟩ := List.forall_mem_cons.1 own
    obtain ⟨immediates, operands, arms⟩ := ih others
    have notArm : e.isArm = false := by
      refine Bool.eq_false_iff.2 fun arm => ?_
      rw [isImmediate_of_isArm arm] at here
      cases here
    refine ⟨?_, ?_, fun kind isKind parts arm => ?_⟩
    · rw [SExpr.unfoldedEach, immediates_cons, immediates, here]
      rfl
    · rw [SExpr.unfoldedEach, operands_cons, operands, here]
      rfl
    · have other : e.isHeadedBy kind = false := by
        simp only [SExpr.isArm, Bool.or_eq_false_iff] at notArm
        obtain rfl | rfl := isKind
        · exact notArm.1
        · exact notArm.2
      rw [SExpr.unfoldedEach, List.cons_append, Parts.lastArm, other]
      exact arms kind isKind parts arm

end Parts

theorem Labelled.immediate {stem : String} {l : List SExpr} {label : Identifier}
    (h : Labelled stem l label) : ∀ e ∈ l, e.isImmediate = true := by
  cases h with
  | named named => exact List.forall_mem_singleton.2 (isImmediate_of_atom (isList_of_id? named))
  | generated => exact List.forall_mem_nil _

theorem Typed.immediate {r : List SExpr} {result : Option Valtype} (h : Typed r result) :
    ∀ e ∈ r, e.isImmediate = true := by
  cases h with
  | none => exact List.forall_mem_nil _
  | some headed => exact List.forall_mem_singleton.2 (isImmediate_of_head headed (by decide))

theorem Marked.immediate {m : List SExpr} (h : Marked m) : ∀ e ∈ m, e.isImmediate = true := by
  cases h with
  | nothing => exact List.forall_mem_nil _
  | named named => exact List.forall_mem_singleton.2 (isImmediate_of_atom (isList_of_id? named))

/-- A folded instruction is an operand. -/
theorem Folded.isOperand {depth : Nat} {e : SExpr} {nodes : List Node} (h : Folded depth e nodes) :
    e.isImmediate = false ∧ e.isArm = false := by
  obtain ⟨isList, notForm⟩ := h.isList
  obtain ⟨notThen, notElse⟩ := h.notArm
  exact ⟨by simp [SExpr.isImmediate, isList, notForm], by simp [SExpr.isArm, notThen, notElse]⟩

/-- Operands have no immediates among them, and no arms. -/
theorem Operands.parts {depth : Nat} {es : List SExpr} {nodes : List Node} :
    Operands depth es nodes → Parts.immediates (SExpr.unfoldedEach es) = [] ∧
      Parts.operands (SExpr.unfoldedEach es) = SExpr.unfoldedAll es
  | .nil _ => ⟨rfl, rfl⟩
  | .cons first rest => by
    obtain ⟨immediates, operands⟩ := rest.parts
    obtain ⟨notImmediate, notArm⟩ := first.isOperand
    rw [SExpr.unfoldedEach, immediates_cons, operands_cons, immediates, operands, notImmediate, notArm,
      SExpr.unfoldedAll_cons]
    exact ⟨rfl, rfl⟩

/-- There are no immediates among the arms. -/
theorem Arms.immediates {depth : Nat} {es : List SExpr}
    {consequent alternate condition consequent' alternate' : List Node} :
    Arms depth es consequent alternate condition consequent' alternate' →
      Parts.immediates (SExpr.unfoldedEach es) = []
  | .nil _ _ _ => rfl
  | .whenTrue keyword _ rest => by
    rw [SExpr.unfoldedEach, immediates_cons, rest.immediates,
      isImmediate_of_isArm (isArm_of_keyword keyword (.inl rfl) _ _)]
    rfl
  | .whenFalse keyword _ rest => by
    rw [SExpr.unfoldedEach, immediates_cons, rest.immediates,
      isImmediate_of_isArm (isArm_of_keyword keyword (.inr rfl) _ _)]
    rfl
  | .operand first rest => by
    rw [SExpr.unfoldedEach, immediates_cons, rest.immediates, first.isOperand.1]
    rfl

/-! ## The flat form of a list by its head -/

section Lists

variable {e : SExpr} {word : String} (keyword : e.keyword? = some word) (span : Span) (items : List SExpr)
include keyword

/-- An arm is unfolded to its items. -/
theorem unfolded_arm (arm : word = "then" ∨ word = "else") :
    SExpr.unfolded (.list span (e :: items)) = SExpr.unfoldedAll items := by
  rw [SExpr.unfolded, SExpr.unfoldedEach, Parts.flatForm, SExpr.unfoldedEach_snd]
  simp only [keyword]
  obtain rfl | rfl := arm <;> rfl

/-- A block is unfolded to its word, its items and an end. -/
theorem unfolded_block (opens : word = "block" ∨ word = "loop") :
    SExpr.unfolded (.list span (e :: items)) = e :: (SExpr.unfoldedAll items ++ [.word "end" span]) := by
  rw [SExpr.unfolded, SExpr.unfoldedEach, Parts.flatForm, SExpr.unfoldedEach_snd,
    SExpr.unfolded_of_keyword keyword]
  simp only [keyword]
  obtain rfl | rfl := opens <;> rfl

/-- A conditional is unfolded to its condition, its word and its arms. -/
theorem unfolded_if (isIf : word = "if") :
    SExpr.unfolded (.list span (e :: items)) = Parts.operands (SExpr.unfoldedEach items) ++
      e :: (Parts.immediates (SExpr.unfoldedEach items) ++
        (Parts.lastArm "then" (SExpr.unfoldedEach items) [] ++ .word "else" span ::
          (Parts.lastArm "else" (SExpr.unfoldedEach items) [] ++ [.word "end" span]))) := by
  rw [SExpr.unfolded, SExpr.unfoldedEach, Parts.flatForm, SExpr.unfolded_of_keyword keyword]
  simp only [keyword]
  obtain rfl := isIf
  rfl

/-- An instruction is unfolded to its operands, its word and its immediates. -/
theorem unfolded_op {imm : List SExpr} {node : Node} (immediates : Immediates word imm node) :
    SExpr.unfolded (.list span (e :: items)) = Parts.operands (SExpr.unfoldedEach items) ++
      e :: Parts.immediates (SExpr.unfoldedEach items) := by
  have notForm : forms.contains word = false := by
    refine Bool.eq_false_iff.2 fun form => ?_
    have unknown := (unknown_of_form word (List.contains_iff_mem.1 form)).1
    have known := immediates.known
    rw [unknown] at known
    cases known
  have notBlock : (word == "block") = false ∧ (word == "loop") = false ∧ (word == "if") = false := by
    have notBlock := immediates.notBlock
    simp only [isBlockWord, Bool.or_eq_false_iff] at notBlock
    exact ⟨notBlock.1.1, notBlock.1.2, notBlock.2⟩
  rw [SExpr.unfolded, SExpr.unfoldedEach, Parts.flatForm, SExpr.unfolded_of_keyword keyword]
  simp only [keyword, notForm, notBlock.1, notBlock.2.1, notBlock.2.2,
    beq_eq_false_iff_ne.2 immediates.notThen, beq_eq_false_iff_ne.2 immediates.notStop.2, Bool.or_self,
    Bool.false_eq_true, if_false]
  rfl

end Lists

/-! ## The flat form means the same -/

mutual

/-- The flat form of instructions is read as the instructions are. -/
theorem Sequence.unfolded {depth : Nat} {xs : List SExpr} {nodes : List Node} :
    Sequence depth xs nodes → Sequence depth (SExpr.unfoldedAll xs) nodes
  | .nil _ => .nil depth
  | .folded first rest => by
    rw [SExpr.unfoldedAll_cons]
    exact first.unfolded.append rest.unfolded
  | .plain keyword first rest => by
    rw [SExpr.unfoldedAll_cons, SExpr.unfoldedAll_append, SExpr.unfolded_of_keyword keyword,
      List.singleton_append]
    exact .plain keyword first.unfolded rest.unfolded

/-- A plain instruction derives the same when what is folded inside is unfolded. -/
theorem Plain.unfolded {depth : Nat} {word : String} {own : List SExpr} {node : Node} :
    Plain depth word own node → Plain depth word (SExpr.unfoldedAll own) node
  | .op immediates => by
    rw [SExpr.unfoldedAll_of_immediate immediates.kept]
    exact .op immediates
  | .block opens nested labelled typed inside closes marked => by
    simp only [SExpr.unfoldedAll_append, SExpr.unfoldedAll_cons, SExpr.unfolded_of_keyword closes,
      SExpr.unfoldedAll_of_immediate labelled.immediate, SExpr.unfoldedAll_of_immediate typed.immediate,
      SExpr.unfoldedAll_of_immediate marked.immediate]
    exact .block opens nested labelled typed inside.unfolded closes marked
  | .ifElse nested labelled typed whenTrue divides marked whenFalse closes marked' => by
    simp only [SExpr.unfoldedAll_append, SExpr.unfoldedAll_cons, SExpr.unfolded_of_keyword closes,
      SExpr.unfolded_of_keyword divides, SExpr.unfoldedAll_of_immediate labelled.immediate,
      SExpr.unfoldedAll_of_immediate typed.immediate, SExpr.unfoldedAll_of_immediate marked.immediate,
      SExpr.unfoldedAll_of_immediate marked'.immediate]
    exact .ifElse nested labelled typed whenTrue.unfolded divides marked whenFalse.unfolded closes marked'
  | .ifOnly nested labelled typed whenTrue closes marked => by
    simp only [SExpr.unfoldedAll_append, SExpr.unfoldedAll_cons, SExpr.unfolded_of_keyword closes,
      SExpr.unfoldedAll_of_immediate labelled.immediate, SExpr.unfoldedAll_of_immediate typed.immediate,
      SExpr.unfoldedAll_of_immediate marked.immediate]
    exact .ifOnly nested labelled typed whenTrue.unfolded closes marked

/-- A folded instruction derives what it is unfolded to. -/
theorem Folded.unfolded {depth : Nat} {e : SExpr} {nodes : List Node} :
    Folded depth e nodes → Sequence depth e.unfolded nodes
  | @Folded.op _ span _ _ _ _ _ _ keyword immediates operands => by
    obtain ⟨own, none_, -⟩ := parts_of_immediates immediates.kept
    rw [unfolded_op keyword span _ immediates, SExpr.unfoldedEach_append, immediates_append,
      operands_append, own, none_, operands.parts.1, operands.parts.2, List.append_nil, List.nil_append]
    exact operands.unfolded.append ((Plain.op immediates).alone keyword)
  | @Folded.block _ span _ _ _ _ _ _ _ _ keyword opens nested labelled typed inside => by
    rw [unfolded_block keyword span _ opens]
    simp only [SExpr.unfoldedAll_append, SExpr.unfoldedAll_of_immediate labelled.immediate,
      SExpr.unfoldedAll_of_immediate typed.immediate, List.append_assoc]
    exact (Plain.block opens nested labelled typed inside.unfolded rfl .nothing).alone keyword
  | @Folded.conditional _ span _ l r _ _ _ _ _ _ keyword nested labelled typed arms => by
    obtain ⟨condition, whenTrue, whenFalse⟩ := arms.unfolded (.nil _) (.nil _)
    have own : ∀ e ∈ l ++ r, e.isImmediate = true :=
      List.forall_mem_append.2 ⟨labelled.immediate, typed.immediate⟩
    obtain ⟨own, none_, lasts⟩ := parts_of_immediates own
    rw [unfolded_if keyword span _ rfl, ← List.append_assoc, SExpr.unfoldedEach_append, immediates_append,
      operands_append, own, none_, arms.immediates, lasts _ (.inl rfl), lasts _ (.inr rfl),
      List.nil_append, List.append_nil, List.append_assoc]
    -- the condition is read in the block, and stands outside of it in the flat form
    refine (condition.outer (Nat.le_succ depth)).append (Plain.alone ?_ keyword)
    exact .ifElse nested labelled typed whenTrue rfl .nothing whenFalse rfl .nothing

/-- Folded operands derive what they are unfolded to. -/
theorem Operands.unfolded {depth : Nat} {es : List SExpr} {nodes : List Node} :
    Operands depth es nodes → Sequence depth (SExpr.unfoldedAll es) nodes
  | .nil _ => .nil depth
  | .cons first rest => by
    rw [SExpr.unfoldedAll_cons]
    exact first.unfolded.append rest.unfolded

theorem Arms.unfolded {depth : Nat} {es : List SExpr}
    {consequent alternate condition consequent' alternate' : List Node} :
    Arms depth es consequent alternate condition consequent' alternate' →
      ∀ {whenTrue whenFalse : List SExpr}, Sequence depth whenTrue consequent →
        Sequence depth whenFalse alternate →
        Sequence depth (Parts.operands (SExpr.unfoldedEach es)) condition ∧
          Sequence depth (Parts.lastArm "then" (SExpr.unfoldedEach es) whenTrue) consequent' ∧
          Sequence depth (Parts.lastArm "else" (SExpr.unfoldedEach es) whenFalse) alternate'
  | .nil _ _ _, _, _, first, second => ⟨.nil depth, first, second⟩
  | @Arms.whenTrue _ span e body _ _ _ _ _ _ _ keyword inside rest, _, _, _, second => by
    have headed : (SExpr.list span (e :: body)).isHeadedBy "then" = true ∧
        (SExpr.list span (e :: body)).isHeadedBy "else" = false := by
      simp [SExpr.isHeadedBy, SExpr.head?, keyword]
    rw [SExpr.unfoldedEach, operands_cons, Parts.lastArm, Parts.lastArm, unfolded_arm keyword span _ (.inl rfl),
      headed.1, headed.2, SExpr.isArm, headed.1, Bool.true_or, Bool.or_true]
    exact rest.unfolded inside.unfolded second
  | @Arms.whenFalse _ span e body _ _ _ _ _ _ _ keyword inside rest, _, _, first, _ => by
    have headed : (SExpr.list span (e :: body)).isHeadedBy "then" = false ∧
        (SExpr.list span (e :: body)).isHeadedBy "else" = true := by
      simp [SExpr.isHeadedBy, SExpr.head?, keyword]
    rw [SExpr.unfoldedEach, operands_cons, Parts.lastArm, Parts.lastArm, unfolded_arm keyword span _ (.inr rfl),
      headed.1, headed.2, SExpr.isArm, headed.2, Bool.or_true, Bool.or_true]
    exact rest.unfolded first inside.unfolded
  | .operand here rest, _, _, first, second => by
    obtain ⟨condition, whenTrue, whenFalse⟩ := rest.unfolded first second
    rw [SExpr.unfoldedEach, operands_cons, Parts.lastArm, Parts.lastArm, here.isOperand.1, here.isOperand.2,
      here.notArm.1, here.notArm.2]
    exact ⟨here.unfolded.append condition, whenTrue, whenFalse⟩

end

end WasmEngine.Wat
