import WasmEngine.Proofs.Wat.Grammar

/-!
# What the grammar says of expressions

Sequences may be put together and moved out of a block, the grammar does not depend on places, and an
instruction before a sequence takes nothing of it.
-/

namespace WasmEngine.Wat

open Outcome

/-! ## Places -/

/-- What goes with a list that has an item in the middle has one in the middle too. -/
theorem exists_middle_of_forall₂ {α β : Type} {R : α → β → Prop} {xs ys : List α} {x : α} {zs : List β}
    (each : List.Forall₂ R (xs ++ x :: ys) zs) :
    ∃ xs' x' ys', zs = xs' ++ x' :: ys' ∧ List.Forall₂ R xs xs' ∧ R x x' ∧ List.Forall₂ R ys ys' := by
  obtain ⟨xs', zs, rfl, left, right⟩ := exists_append_of_forall₂ each
  cases right with
  | cons here rest => exact ⟨xs', _, _, rfl, left, here, rest⟩

mutual

/-- Every expression is the same as itself, at the same place. -/
theorem SExpr.Same.refl : ∀ e : SExpr, Same e e
  | .atom ⟨kind, span⟩ => .atom kind span span
  | .list span items => .list span span (refl_all items)

theorem SExpr.Same.refl_all : ∀ es : List SExpr, List.Forall₂ Same es es
  | [] => .nil
  | e :: es => .cons (.refl e) (refl_all es)

end

mutual

/-- Sameness at another place is transitive. -/
theorem SExpr.Same.trans : ∀ {e e' e'' : SExpr}, Same e e' → Same e' e'' → Same e e''
  | .atom _, _, _, .atom kind span _, .atom _ _ span'' => .atom kind span span''
  | .list _ _, _, _, .list span _ inside, .list _ span'' inside' =>
    .list span span'' (SExpr.Same.trans_all inside inside')

theorem SExpr.Same.trans_all : ∀ {es es' es'' : List SExpr}, List.Forall₂ Same es es' →
    List.Forall₂ Same es' es'' → List.Forall₂ Same es es''
  | [], _, _, .nil, .nil => .nil
  | _ :: _, _, _, .cons first rest, .cons first' rest' => .cons (first.trans first') (trans_all rest rest')

end

/-- Whether an expression is a form does not depend on its place. -/
theorem SExpr.Same.isForm {e e' : SExpr} (same : Same e e') : e'.isForm = e.isForm := by
  unfold SExpr.isForm
  rw [same.head?]

/-- Whether an expression is an immediate does not depend on its place. -/
theorem SExpr.Same.isImmediate {e e' : SExpr} (same : Same e e') : e'.isImmediate = e.isImmediate := by
  unfold SExpr.isImmediate
  rw [same.isList, same.isForm]

/-- A reading takes the same at another place. -/
theorem Takes.relocate {α : Type} {r : Items → Parsed (α × Items)} {a : α} {xs xs' : List SExpr}
    (takes : Takes r a xs) (same : List.Forall₂ SExpr.Same xs xs') : Takes r a xs' :=
  fun xs'' same' tail span clear => takes xs'' (SExpr.Same.trans_all same same') tail span clear

section Relocate

variable {xs xs' : List SExpr} (same : List.Forall₂ SExpr.Same xs xs')
include same

/-- Immediates are the same at another place. -/
theorem Immediates.relocate {word : String} {node : Node} (h : Immediates word xs node) :
    Immediates word xs' node where
  known := h.known
  notBlock := h.notBlock
  notStop := h.notStop
  kept := by
    have kept := h.kept
    clear h
    induction same with
    | nil => exact nofun
    | cons first _ ih =>
      obtain ⟨here, others⟩ := List.forall_mem_cons.1 kept
      exact List.forall_mem_cons.2 ⟨first.isImmediate.trans here, ih others⟩
  takes site := (h.takes site).relocate same

/-- A label is the same at another place. -/
theorem Labelled.relocate {stem : String} {label : Identifier} (h : Labelled stem xs label) :
    Labelled stem xs' label := by
  cases h with
  | named named =>
    cases same with
    | cons here none_ =>
      cases none_
      exact .named (here.id?.trans named)
  | generated n =>
    cases same
    exact .generated n

/-- A result type is the same at another place. -/
theorem Typed.relocate {result : Option Valtype} (h : Typed xs result) : Typed xs' result := by
  cases h with
  | none =>
    cases same
    exact .none
  | some headed read few =>
    cases same with
    | cons here none_ =>
      cases none_
      obtain ⟨_, read', rfl⟩ := (agrees_parseResults here).follows _ read
      exact .some ((here.isHeadedBy _).trans headed) read' few

theorem Marked.relocate (h : Marked xs) : Marked xs' := by
  cases h with
  | nothing =>
    cases same
    exact .nothing
  | named named =>
    cases same with
    | cons here none_ =>
      cases none_
      exact .named (here.id?.trans named)

end Relocate

mutual

/-- A sequence derives the same instructions at another place. -/
theorem Sequence.relocate {depth : Nat} {xs : List SExpr} {nodes : List Node} :
    Sequence depth xs nodes → ∀ {xs'}, List.Forall₂ SExpr.Same xs xs' → Sequence depth xs' nodes
  | .nil depth, _, .nil => .nil depth
  | .folded first rest, _, .cons same others => .folded (first.relocate same) (rest.relocate others)
  | .plain keyword first rest, _, .cons same others => by
    obtain ⟨own', es', rfl, owns, others⟩ := exists_append_of_forall₂ others
    exact .plain (same.keyword?.trans keyword) (first.relocate owns) (rest.relocate others)

/-- A plain instruction derives the same at another place. -/
theorem Plain.relocate {depth : Nat} {word : String} {own : List SExpr} {node : Node} :
    Plain depth word own node → ∀ {own'}, List.Forall₂ SExpr.Same own own' → Plain depth word own' node
  | .op immediates, _, same => .op (immediates.relocate same)
  | .block opens nested labelled typed inside closes marked, _, same => by
    obtain ⟨_, _, rfl, l, same⟩ := exists_append_of_forall₂ same
    obtain ⟨_, _, rfl, r, same⟩ := exists_append_of_forall₂ same
    obtain ⟨_, _, _, rfl, body, close, m⟩ := exists_middle_of_forall₂ same
    exact .block opens nested (labelled.relocate l) (typed.relocate r) (inside.relocate body)
      (close.keyword?.trans closes) (marked.relocate m)
  | .ifElse nested labelled typed whenTrue divides marked whenFalse closes marked', _, same => by
    obtain ⟨_, _, rfl, l, same⟩ := exists_append_of_forall₂ same
    obtain ⟨_, _, rfl, r, same⟩ := exists_append_of_forall₂ same
    obtain ⟨_, _, _, rfl, body, middle, same⟩ := exists_middle_of_forall₂ same
    obtain ⟨_, _, rfl, m, same⟩ := exists_append_of_forall₂ same
    obtain ⟨_, _, _, rfl, body', close, m'⟩ := exists_middle_of_forall₂ same
    exact .ifElse nested (labelled.relocate l) (typed.relocate r) (whenTrue.relocate body)
      (middle.keyword?.trans divides) (marked.relocate m) (whenFalse.relocate body')
      (close.keyword?.trans closes) (marked'.relocate m')
  | .ifOnly nested labelled typed whenTrue closes marked, _, same => by
    obtain ⟨_, _, rfl, l, same⟩ := exists_append_of_forall₂ same
    obtain ⟨_, _, rfl, r, same⟩ := exists_append_of_forall₂ same
    obtain ⟨_, _, _, rfl, body, close, m⟩ := exists_middle_of_forall₂ same
    exact .ifOnly nested (labelled.relocate l) (typed.relocate r) (whenTrue.relocate body)
      (close.keyword?.trans closes) (marked.relocate m)

/-- A folded instruction derives the same at another place. -/
theorem Folded.relocate {depth : Nat} {e : SExpr} {nodes : List Node} :
    Folded depth e nodes → ∀ {e'}, e.Same e' → Folded depth e' nodes
  | .op keyword immediates operands, _, .list _ _ (.cons first same) => by
    obtain ⟨_, _, rfl, imm, es⟩ := exists_append_of_forall₂ same
    exact .op (first.keyword?.trans keyword) (immediates.relocate imm) (operands.relocate es)
  | .block keyword opens nested labelled typed inside, _, .list _ _ (.cons first same) => by
    obtain ⟨_, _, rfl, l, same⟩ := exists_append_of_forall₂ same
    obtain ⟨_, _, rfl, r, body⟩ := exists_append_of_forall₂ same
    exact .block (first.keyword?.trans keyword) opens nested (labelled.relocate l) (typed.relocate r)
      (inside.relocate body)
  | .conditional keyword nested labelled typed arms, _, .list _ _ (.cons first same) => by
    obtain ⟨_, _, rfl, l, same⟩ := exists_append_of_forall₂ same
    obtain ⟨_, _, rfl, r, es⟩ := exists_append_of_forall₂ same
    exact .conditional (first.keyword?.trans keyword) nested (labelled.relocate l) (typed.relocate r)
      (arms.relocate es)

theorem Operands.relocate {depth : Nat} {es : List SExpr} {nodes : List Node} :
    Operands depth es nodes → ∀ {es'}, List.Forall₂ SExpr.Same es es' → Operands depth es' nodes
  | .nil depth, _, .nil => .nil depth
  | .cons first rest, _, .cons same others => .cons (first.relocate same) (rest.relocate others)

/-- The arms of a conditional derive the same at another place. -/
theorem Arms.relocate {depth : Nat} {es : List SExpr}
    {consequent alternate condition consequent' alternate' : List Node} :
    Arms depth es consequent alternate condition consequent' alternate' →
      ∀ {es'}, List.Forall₂ SExpr.Same es es' →
        Arms depth es' consequent alternate condition consequent' alternate'
  | .nil depth _ _, _, .nil => .nil depth _ _
  | .whenTrue keyword inside rest, _, .cons (.list _ _ (.cons first body)) others =>
    .whenTrue (first.keyword?.trans keyword) (inside.relocate body) (rest.relocate others)
  | .whenFalse keyword inside rest, _, .cons (.list _ _ (.cons first body)) others =>
    .whenFalse (first.keyword?.trans keyword) (inside.relocate body) (rest.relocate others)
  | .operand first rest, _, .cons same others =>
    .operand (first.relocate same) (rest.relocate others)

end

/-! ## Sequences -/

/-- Two sequences derive their instructions one after the other. -/
theorem Sequence.append {depth : Nat} {xs : List SExpr} {nodes : List Node} :
    Sequence depth xs nodes → ∀ {ys : List SExpr} {others : List Node}, Sequence depth ys others →
      Sequence depth (xs ++ ys) (nodes ++ others)
  | .nil _, _, _, second => second
  | .folded first rest, _, _, second => by
    rw [List.cons_append, List.append_assoc]
    exact .folded first (rest.append second)
  | .plain keyword first rest, _, _, second => by
    rw [List.cons_append, List.append_assoc, List.cons_append]
    exact .plain keyword first (rest.append second)

/-- One instruction is a sequence. -/
theorem Plain.alone {depth : Nat} {e : SExpr} {word : String} {own : List SExpr} {node : Node}
    (first : Plain depth word own node) (keyword : e.keyword? = some word) :
    Sequence depth (e :: own) [node] := by
  have alone := Sequence.plain keyword first (.nil depth)
  rwa [List.append_nil] at alone

mutual

/-- What may stand inside some blocks may stand inside fewer. -/
theorem Sequence.outer {depth : Nat} {xs : List SExpr} {nodes : List Node} :
    Sequence depth xs nodes → ∀ {fewer}, fewer ≤ depth → Sequence fewer xs nodes
  | .nil _, fewer, _ => .nil fewer
  | .folded first rest, _, le => .folded (first.outer le) (rest.outer le)
  | .plain keyword first rest, _, le => .plain keyword (first.outer le) (rest.outer le)

/-- What is derived at some depth is derived at a smaller one. -/
theorem Plain.outer {depth : Nat} {word : String} {own : List SExpr} {node : Node} :
    Plain depth word own node → ∀ {fewer}, fewer ≤ depth → Plain fewer word own node
  | .op immediates, _, _ => .op immediates
  | .block opens nested labelled typed inside closes marked, _, le =>
    .block opens (Nat.lt_of_le_of_lt le nested) labelled typed (inside.outer (Nat.succ_le_succ le)) closes
      marked
  | .ifElse nested labelled typed whenTrue divides marked whenFalse closes marked', _, le =>
    .ifElse (Nat.lt_of_le_of_lt le nested) labelled typed (whenTrue.outer (Nat.succ_le_succ le)) divides
      marked (whenFalse.outer (Nat.succ_le_succ le)) closes marked'
  | .ifOnly nested labelled typed whenTrue closes marked, _, le =>
    .ifOnly (Nat.lt_of_le_of_lt le nested) labelled typed (whenTrue.outer (Nat.succ_le_succ le)) closes
      marked

/-- What is derived folded at some depth is derived at a smaller one. -/
theorem Folded.outer {depth : Nat} {e : SExpr} {nodes : List Node} :
    Folded depth e nodes → ∀ {fewer}, fewer ≤ depth → Folded fewer e nodes
  | .op keyword immediates operands, _, le => .op keyword immediates (operands.outer le)
  | .block keyword opens nested labelled typed inside, _, le =>
    .block keyword opens (Nat.lt_of_le_of_lt le nested) labelled typed (inside.outer (Nat.succ_le_succ le))
  | .conditional keyword nested labelled typed arms, _, le =>
    .conditional keyword (Nat.lt_of_le_of_lt le nested) labelled typed (arms.outer (Nat.succ_le_succ le))

theorem Operands.outer {depth : Nat} {es : List SExpr} {nodes : List Node} :
    Operands depth es nodes → ∀ {fewer}, fewer ≤ depth → Operands fewer es nodes
  | .nil _, fewer, _ => .nil fewer
  | .cons first rest, _, le => .cons (first.outer le) (rest.outer le)

theorem Arms.outer {depth : Nat} {es : List SExpr}
    {consequent alternate condition consequent' alternate' : List Node} :
    Arms depth es consequent alternate condition consequent' alternate' → ∀ {fewer}, fewer ≤ depth →
      Arms fewer es consequent alternate condition consequent' alternate'
  | .nil _ _ _, fewer, _ => .nil fewer _ _
  | .whenTrue keyword inside rest, _, le => .whenTrue keyword (inside.outer le) (rest.outer le)
  | .whenFalse keyword inside rest, _, le => .whenFalse keyword (inside.outer le) (rest.outer le)
  | .operand first rest, _, le => .operand (first.outer le) (rest.outer le)

end

/-! ## What is left to the others -/

/-- A word is no form. -/
theorem clear_of_stop {e : SExpr} {word : String} (keyword : e.keyword? = some word)
    (stop : word = "end" ∨ word = "else") (tail : List SExpr) : Clear (e :: tail) := by
  refine .inr ⟨word, keyword, ?_⟩
  obtain rfl | rfl := stop <;> decide

/-- An instruction with immediates begins with what is no immediate. -/
theorem Immediates.clear {e : SExpr} {word : String} {imm : List SExpr} {node : Node}
    (h : Immediates word imm node) (keyword : e.keyword? = some word) (tail : List SExpr) :
    Clear (e :: tail) :=
  .inr ⟨word, keyword, after?_of_known h.known⟩

theorem clear_of_blockWord {e : SExpr} {word : String} (keyword : e.keyword? = some word)
    (opens : word = "block" ∨ word = "loop" ∨ word = "if") (tail : List SExpr) : Clear (e :: tail) := by
  refine .inr ⟨word, keyword, ?_⟩
  obtain rfl | rfl | rfl := opens <;> decide

theorem Plain.clear {depth : Nat} {e : SExpr} {word : String} {own : List SExpr} {node : Node}
    (h : Plain depth word own node) (keyword : e.keyword? = some word) (tail : List SExpr) :
    Clear (e :: tail) := by
  cases h with
  | op immediates => exact immediates.clear keyword tail
  | block opens =>
    exact clear_of_blockWord keyword (opens.elim .inl fun loop => .inr (.inl loop)) tail
  | ifElse => exact clear_of_blockWord keyword (.inr (.inr rfl)) tail
  | ifOnly => exact clear_of_blockWord keyword (.inr (.inr rfl)) tail

/-- The word of an instruction begins no form. -/
theorem isForm_of_known {span : Span} {e : SExpr} {word : String} (keyword : e.keyword? = some word)
    (known : (Opcode.ofMnemonic? word).isSome = true ∨ isBlockWord word = true) (items : List SExpr) :
    (SExpr.list span (e :: items)).isForm = false := by
  refine Bool.eq_false_iff.2 fun form => ?_
  simp only [SExpr.isForm, SExpr.head?, keyword, List.contains_iff_mem] at form
  obtain ⟨unknown, notBlock⟩ := unknown_of_form word form
  obtain known | isBlock := known
  · rw [unknown] at known
    cases known
  · rw [notBlock] at isBlock
    cases isBlock

/-- A folded instruction is a list, and no form. -/
theorem Folded.isList {depth : Nat} {e : SExpr} {nodes : List Node} (h : Folded depth e nodes) :
    e.isList = true ∧ e.isForm = false := by
  cases h with
  | op keyword immediates => exact ⟨rfl, isForm_of_known keyword (.inl immediates.known) _⟩
  | block keyword opens =>
    refine ⟨rfl, isForm_of_known keyword (.inr ?_) _⟩
    obtain rfl | rfl := opens <;> rfl
  | conditional keyword => exact ⟨rfl, isForm_of_known keyword (.inr rfl) _⟩

/-- A folded instruction is no immediate of what stands before it. -/
theorem Folded.clear {depth : Nat} {e : SExpr} {nodes : List Node} (h : Folded depth e nodes)
    (tail : List SExpr) : Clear (e :: tail) := .inl h.isList

theorem unknown_then : Opcode.ofMnemonic? "then" = none := by decide +kernel

theorem Immediates.notThen {word : String} {imm : List SExpr} {node : Node}
    (h : Immediates word imm node) : word ≠ "then" := by
  rintro rfl
  have known := h.known
  rw [unknown_then] at known
  cases known

/-- A folded instruction is no arm of a conditional. -/
theorem Folded.notArm {depth : Nat} {e : SExpr} {nodes : List Node} (h : Folded depth e nodes) :
    e.isHeadedBy "then" = false ∧ e.isHeadedBy "else" = false := by
  have other {span : Span} {e : SExpr} {word : String} {items : List SExpr}
      (keyword : e.keyword? = some word) (differ : word ≠ "then" ∧ word ≠ "else") :
      (SExpr.list span (e :: items)).isHeadedBy "then" = false ∧
        (SExpr.list span (e :: items)).isHeadedBy "else" = false := by
    simpa [SExpr.isHeadedBy, SExpr.head?, keyword] using differ
  cases h with
  | op keyword immediates => exact other keyword ⟨immediates.notThen, immediates.notStop.2⟩
  | block keyword opens => exact other keyword (by obtain rfl | rfl := opens <;> decide)
  | conditional keyword => exact other keyword (by decide)

/-- A sequence begins with what is no immediate, when what follows does. -/
theorem Sequence.clear {depth : Nat} {xs tail : List SExpr} {nodes : List Node}
    (h : Sequence depth xs nodes) (clear : Clear tail) : Clear (xs ++ tail) := by
  cases h with
  | nil => exact clear
  | folded first => exact first.clear _
  | plain keyword first => exact first.clear keyword _

theorem Sequence.clear_all {depth : Nat} {xs : List SExpr} {nodes : List Node}
    (h : Sequence depth xs nodes) : Clear xs :=
  List.append_nil xs ▸ h.clear trivial

theorem Operands.clear {depth : Nat} {es : List SExpr} {nodes : List Node}
    (h : Operands depth es nodes) : Clear es := by
  cases h with
  | nil => exact trivial
  | cons first => exact first.clear _

theorem Arms.clear {depth : Nat} {es : List SExpr}
    {consequent alternate condition consequent' alternate' : List Node}
    (h : Arms depth es consequent alternate condition consequent' alternate') : Clear es := by
  have arm {span : Span} {e : SExpr} {word : String} {body rest : List SExpr}
      (keyword : e.keyword? = some word) (arm : word = "then" ∨ word = "else") :
      Clear (.list span (e :: body) :: rest) := by
    refine .inl ⟨rfl, ?_⟩
    simp only [SExpr.isForm, SExpr.head?, keyword]
    obtain rfl | rfl := arm <;> decide
  cases h with
  | nil => exact trivial
  | whenTrue keyword => exact arm keyword (.inl rfl)
  | whenFalse keyword => exact arm keyword (.inr rfl)
  | operand first => exact first.clear _

end WasmEngine.Wat
