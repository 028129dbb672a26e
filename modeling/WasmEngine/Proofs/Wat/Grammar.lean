import WasmEngine.Proofs.Binary.Reading
import WasmEngine.Proofs.Wat.Immediates

/-!
# The grammar of instructions

What is read as instructions: flat ones, whose blocks go up to an `end`, and folded ones, in any mixture
(`Sequence`).  A block without a label may get any number.  The readers follow this grammar (`sound`).
-/

namespace WasmEngine.Wat

open Outcome

/-- The immediates of an instruction other than a block. -/
structure Immediates (word : String) (imm : List SExpr) (node : Node) : Prop where
  known : (Opcode.ofMnemonic? word).isSome = true
  notBlock : isBlockWord word = false
  notStop : word ≠ "end" ∧ word ≠ "else"
  kept : ∀ e ∈ imm, e.isImmediate = true
  takes : ∀ site, Takes (parseOp word site) node imm

/-- The label of a block: a name, or nothing for a generated label. -/
inductive Labelled (stem : String) : List SExpr → Identifier → Prop
  | named {e : SExpr} {name : String} (named : e.id? = some name) : Labelled stem [e] (.ofString name)
  | generated (n : Nat) : Labelled stem [] (.synthesized (stem ++ "_" ++ toString n))

/-- The result of a block, of which there is one at most. -/
inductive Typed : List SExpr → Option Valtype → Prop
  | none : Typed [] none
  | some {e : SExpr} {types : List Valtype} (headed : e.isHeadedBy "result" = true)
    (read : parseResults e = .ok types) (few : types.length ≤ 1) : Typed [e] types.head?

/-- The name that may stand after an `end` or `else`. -/
inductive Marked : List SExpr → Prop
  | nothing : Marked []
  | named {e : SExpr} {name : String} (named : e.id? = some name) : Marked [e]

mutual

/-- Items that are read as instructions inside `depth` blocks. -/
inductive Sequence : Nat → List SExpr → List Node → Prop
  | nil (depth : Nat) : Sequence depth [] []
  | folded {depth : Nat} {e : SExpr} {es : List SExpr} {nodes others : List Node}
    (first : Folded depth e nodes) (rest : Sequence depth es others) :
    Sequence depth (e :: es) (nodes ++ others)
  | plain {depth : Nat} {e : SExpr} {word : String} {own es : List SExpr} {node : Node}
    {others : List Node} (keyword : e.keyword? = some word) (first : Plain depth word own node)
    (rest : Sequence depth es others) : Sequence depth (e :: (own ++ es)) (node :: others)

/-- A word and the items after it that are read as one instruction. -/
inductive Plain : Nat → String → List SExpr → Node → Prop
  | op {depth : Nat} {word : String} {imm : List SExpr} {node : Node}
    (immediates : Immediates word imm node) : Plain depth word imm node
  | block {depth : Nat} {word : String} {l r body m : List SExpr} {close : SExpr} {label : Identifier}
    {result : Option Valtype} {nodes : List Node} (opens : word = "block" ∨ word = "loop")
    (nested : depth < Binary.maxNesting) (labelled : Labelled word l label) (typed : Typed r result)
    (inside : Sequence (depth + 1) body nodes) (closes : close.keyword? = some "end")
    (marked : Marked m) :
    Plain depth word (l ++ (r ++ (body ++ close :: m))) (blockNode word label result nodes)
  | ifElse {depth : Nat} {l r body body' m m' : List SExpr} {middle close : SExpr} {label : Identifier}
    {result : Option Valtype} {consequent alternate : List Node} (nested : depth < Binary.maxNesting)
    (labelled : Labelled "if" l label) (typed : Typed r result)
    (whenTrue : Sequence (depth + 1) body consequent) (divides : middle.keyword? = some "else")
    (marked : Marked m) (whenFalse : Sequence (depth + 1) body' alternate)
    (closes : close.keyword? = some "end") (marked' : Marked m') :
    Plain depth "if" (l ++ (r ++ (body ++ middle :: (m ++ (body' ++ close :: m')))))
      (.ifElse label result consequent alternate)
  | ifOnly {depth : Nat} {l r body m : List SExpr} {close : SExpr} {label : Identifier}
    {result : Option Valtype} {consequent : List Node} (nested : depth < Binary.maxNesting)
    (labelled : Labelled "if" l label) (typed : Typed r result)
    (whenTrue : Sequence (depth + 1) body consequent) (closes : close.keyword? = some "end")
    (marked : Marked m) :
    Plain depth "if" (l ++ (r ++ (body ++ close :: m))) (.ifElse label result consequent [])

/-- A list that is read as an instruction after its operands. -/
inductive Folded : Nat → SExpr → List Node → Prop
  | op {depth : Nat} {span : Span} {e : SExpr} {word : String} {imm es : List SExpr} {node : Node}
    {nodes : List Node} (keyword : e.keyword? = some word) (immediates : Immediates word imm node)
    (operands : Operands depth es nodes) : Folded depth (.list span (e :: (imm ++ es))) (nodes ++ [node])
  | block {depth : Nat} {span : Span} {e : SExpr} {word : String} {l r body : List SExpr}
    {label : Identifier} {result : Option Valtype} {nodes : List Node} (keyword : e.keyword? = some word)
    (opens : word = "block" ∨ word = "loop") (nested : depth < Binary.maxNesting)
    (labelled : Labelled word l label) (typed : Typed r result)
    (inside : Sequence (depth + 1) body nodes) :
    Folded depth (.list span (e :: (l ++ (r ++ body)))) [blockNode word label result nodes]
  | conditional {depth : Nat} {span : Span} {e : SExpr} {l r es : List SExpr} {label : Identifier}
    {result : Option Valtype} {condition consequent alternate : List Node}
    (keyword : e.keyword? = some "if") (nested : depth < Binary.maxNesting)
    (labelled : Labelled "if" l label) (typed : Typed r result)
    (arms : Arms (depth + 1) es [] [] condition consequent alternate) :
    Folded depth (.list span (e :: (l ++ (r ++ es))))
      (condition ++ [.ifElse label result consequent alternate])

/-- Folded instructions in a row. -/
inductive Operands : Nat → List SExpr → List Node → Prop
  | nil (depth : Nat) : Operands depth [] []
  | cons {depth : Nat} {e : SExpr} {es : List SExpr} {nodes others : List Node}
    (first : Folded depth e nodes) (rest : Operands depth es others) :
    Operands depth (e :: es) (nodes ++ others)

/-- The parts of a folded conditional after two arms: what they add to the condition, and the arms that
count in the end. -/
inductive Arms : Nat → List SExpr → List Node → List Node → List Node → List Node → List Node → Prop
  | nil (depth : Nat) (consequent alternate : List Node) :
    Arms depth [] consequent alternate [] consequent alternate
  | whenTrue {depth : Nat} {span : Span} {e : SExpr} {body es : List SExpr}
    {consequent alternate nodes condition consequent' alternate' : List Node}
    (keyword : e.keyword? = some "then") (inside : Sequence depth body nodes)
    (rest : Arms depth es nodes alternate condition consequent' alternate') :
    Arms depth (.list span (e :: body) :: es) consequent alternate condition consequent' alternate'
  | whenFalse {depth : Nat} {span : Span} {e : SExpr} {body es : List SExpr}
    {consequent alternate nodes condition consequent' alternate' : List Node}
    (keyword : e.keyword? = some "else") (inside : Sequence depth body nodes)
    (rest : Arms depth es consequent nodes condition consequent' alternate') :
    Arms depth (.list span (e :: body) :: es) consequent alternate condition consequent' alternate'
  | operand {depth : Nat} {e : SExpr} {es : List SExpr}
    {consequent alternate nodes condition consequent' alternate' : List Node}
    (first : Folded depth e nodes)
    (rest : Arms depth es consequent alternate condition consequent' alternate') :
    Arms depth (e :: es) consequent alternate (nodes ++ condition) consequent' alternate'

end

/-! ## Names -/

/-- A generator that handed out no names but those of labels. -/
def KeepsNames (g g' : NameGenerator) : Prop :=
  ∀ stem, isBlockWord stem = false → g'.count stem = g.count stem

theorem KeepsNames.refl (g : NameGenerator) : KeepsNames g g := fun _ _ => rfl

/-- Keeping names is transitive. -/
theorem KeepsNames.trans {g g' g'' : NameGenerator} (first : KeepsNames g g')
    (second : KeepsNames g' g'') : KeepsNames g g'' := fun stem other =>
  (second stem other).trans (first stem other)

/-- What a reader gives has a property, and it takes no names but those of labels. -/
def Yields {α : Type} (p : α → Prop) (r : ParseM α) : Prop :=
  ∀ g a g', r g = .ok (a, g') → p a ∧ KeepsNames g g'

section Yields

variable {α β : Type} {p : α → Prop} {q : β → Prop} {x : ParseM α} {f : α → ParseM β}

/-- Readings in sequence yield what the second does from what the first one yields. -/
theorem Yields.bind (first : Yields p x) (rest : ∀ a, p a → Yields q (f a)) : Yields q (x >>= f) := by
  intro g b g' ends
  obtain ⟨⟨a, mid⟩, here, there⟩ := bind_eq_ok_iff.1 ends
  obtain ⟨now, kept⟩ := first g a mid here
  obtain ⟨later, kept'⟩ := rest a now mid b g' there
  exact ⟨later, kept.trans kept'⟩

theorem yields_pure {a : α} (now : p a) : Yields p (pure a) := by
  intro g b g' ends
  cases ends
  exact ⟨now, .refl g⟩

theorem yields_lift {r : Parsed α} (gives : ∀ a, r = .ok a → p a) : Yields p (liftM r) := by
  intro g b g' ends
  obtain ⟨a, here, there⟩ := bind_eq_ok_iff.1 ends
  cases there
  exact ⟨gives b here, .refl g⟩

theorem yields_throw {e : ParseError} : Yields p (throw e) := by
  intro g b g' ends
  cases ends

theorem yields_error {e : ParseError} : Yields p (liftM (.error e : Parsed α)) := yields_lift nofun

/-- A reading yields whatever is weaker than what it yields. -/
theorem Yields.mono {p' : α → Prop} (first : Yields p x) (weaker : ∀ a, p a → p' a) : Yields p' x :=
  fun g a g' ends => ⟨weaker a (first g a g' ends).1, (first g a g' ends).2⟩

end Yields

/-! ## The readers follow the grammar -/

/-- Where a sequence stops: at the end of the items, or at a word that ends it. -/
inductive StopsAt (stops : List String) : List SExpr → Option String → List SExpr → Prop
  | finish : StopsAt stops [] none []
  | word {e : SExpr} {word : String} {after : List SExpr} (keyword : e.keyword? = some word)
    (listed : word ∈ stops) : StopsAt stops (e :: after) (some word) after

/-- What the readers give is what the grammar says, whatever fuel they have. -/
structure Sound (fuel : Nat) : Prop where
  sequence : ∀ depth stops i, Yields (fun r : List Node × Option String × Items => r.2.2.span = i.span ∧
      ∃ xs tail, i.rest = xs ++ tail ∧ Sequence depth xs r.1 ∧ StopsAt stops tail r.2.1 r.2.2.rest)
    (parseSequence fuel depth stops i)
  plain : ∀ depth word site i, word ≠ "end" ∧ word ≠ "else" →
    Yields (fun r : Node × Items => r.2.span = i.span ∧
      ∃ own, i.rest = own ++ r.2.rest ∧ Plain depth word own r.1) (parsePlain fuel depth word site i)
  folded : ∀ depth e, Yields (Folded depth e) (parseFolded fuel depth e)
  arms : ∀ depth es consequent alternate,
    Yields (fun r : List Node × List Node × List Node =>
      Arms depth es consequent alternate r.1 r.2.1 r.2.2) (parseArms fuel depth es consequent alternate)
  operands : ∀ depth es, Yields (Operands depth es) (parseOperands fuel depth es)

/-- A construct is read only where there is room for its nesting. -/
theorem yields_requireDepth (depth : Nat) (site : SExpr) :
    Yields (fun _ => depth < Binary.maxNesting) (liftM (requireDepth depth site)) := by
  refine yields_lift fun _ allowed => ?_
  unfold requireDepth at allowed
  split at allowed
  · cases allowed
  · omega

/-- A name is taken where there is one. -/
theorem takeId_cases (i : Items) :
    (i.takeId = (none, i)) ∨
      ∃ e rest name, i.rest = e :: rest ∧ e.id? = some name ∧ i.takeId = (some name, ⟨rest, i.span⟩) := by
  obtain ⟨rest, span⟩ := i
  cases rest with
  | nil => exact .inl rfl
  | cons e rest =>
    unfold Items.takeId
    dsimp only
    split
    · next name named => exact .inr ⟨e, rest, name, rfl, named, rfl⟩
    · exact .inl rfl

/-- A label is a name that comes next, or generated. -/
theorem yields_nameOrFresh (i : Items) {stem : String} (isBlock : isBlockWord stem = true) :
    Yields (fun r : Identifier × Items => r.2.span = i.span ∧
      ∃ l, i.rest = l ++ r.2.rest ∧ Labelled stem l r.1) (nameOrFresh i stem) := by
  unfold nameOrFresh
  obtain none_ | ⟨e, rest, name, here, named, some_⟩ := takeId_cases i
  · rw [none_]
    intro g r g' ends
    cases ends
    refine ⟨⟨rfl, [], rfl, .generated _⟩, fun other notBlock => ?_⟩
    exact NameGenerator.count_unique_of_ne g fun same => by
      rw [same, isBlock] at notBlock
      cases notBlock
  · rw [some_]
    exact yields_pure ⟨rfl, [e], here, .named named⟩

/-- The result of a block is the list for it, if that comes next. -/
theorem typed_of_parseBlockResult {i : Items} {r : Option Valtype × Items}
    (read : parseBlockResult i = .ok r) :
    r.2.span = i.span ∧ ∃ xs, i.rest = xs ++ r.2.rest ∧ Typed xs r.1 := by
  unfold parseBlockResult at read
  obtain ⟨none_, -⟩ | ⟨e, rest, here, headed, some_⟩ := takeList_cases i "result"
  · rw [none_] at read
    cases read
    exact ⟨rfl, [], rfl, .none⟩
  · rw [some_] at read
    obtain ⟨types, first, read⟩ := bind_eq_ok_iff.1 read
    split at read
    · cases read
      exact ⟨rfl, [e], here, .some headed first (Nat.zero_le 1)⟩
    · cases read
      exact ⟨rfl, [e], here, .some headed first (Nat.le_refl 1)⟩
    · cases read

/-- Taking a name takes a mark, and leaves the rest. -/
theorem marked_of_takeId (i : Items) :
    i.takeId.2.span = i.span ∧ ∃ m, i.rest = m ++ i.takeId.2.rest ∧ Marked m := by
  obtain none_ | ⟨e, rest, name, here, named, some_⟩ := takeId_cases i
  · rw [none_]
    exact ⟨rfl, [], rfl, .nothing⟩
  · rw [some_]
    exact ⟨rfl, [e], here, .named named⟩

/-- A list with a keyword at its head is read from the items after it. -/
theorem exists_of_head? {e : SExpr} {word : String} (head : e.head? = some word) :
    ∃ span first items, e = .list span (first :: items) ∧ first.keyword? = some word ∧
      Items.ofExpr e = ⟨items, span⟩ := by
  cases e with
  | atom => cases head
  | list span items =>
    cases items with
    | nil => cases head
    | cons first items =>
      have keyword : first.keyword? = some word := head
      refine ⟨span, first, items, rfl, keyword, ?_⟩
      simp [Items.ofExpr, SExpr.head?, keyword]

/-- With no fuel, nothing is read that would not be derived. -/
theorem sound_zero : Sound 0 where
  sequence _ _ _ := by
    rw [parseSequence]
    exact yields_error
  plain _ _ _ _ _ := by
    rw [parsePlain]
    exact yields_error
  folded _ _ := by
    rw [parseFolded]
    exact yields_error
  arms _ _ _ _ := by
    rw [parseArms]
    exact yields_error
  operands _ _ := by
    rw [parseOperands]
    exact yields_error

section Step

variable {fuel : Nat} (ih : Sound fuel)
include ih

/-- What a sequence is read as is derived from what was taken. -/
theorem sound_parseSequence (depth : Nat) (stops : List String) (i : Items) :
    Yields (fun r : List Node × Option String × Items => r.2.2.span = i.span ∧
      ∃ xs tail, i.rest = xs ++ tail ∧ Sequence depth xs r.1 ∧ StopsAt stops tail r.2.1 r.2.2.rest)
      (parseSequence (fuel + 1) depth stops i) := by
  obtain ⟨items, span⟩ := i
  rw [parseSequence]
  cases items with
  | nil => exact yields_pure ⟨rfl, [], [], rfl, .nil depth, .finish⟩
  | cons e rest =>
    dsimp only
    split
    · refine (ih.folded depth e).bind fun here first => ?_
      refine (ih.sequence depth stops _).bind fun r holds => ?_
      obtain ⟨same, xs, tail, split, others, stop⟩ := holds
      refine yields_pure ⟨same, e :: xs, tail, ?_, .folded first others, stop⟩
      exact congrArg (e :: ·) split
    · cases keyword : e.keyword? with
      | none => exact yields_error
      | some word =>
        dsimp only
        split
        · next listed =>
          exact yields_pure ⟨rfl, [], e :: rest, rfl, .nil depth, .word keyword (by simpa using listed)⟩
        · split
          · exact yields_error
          · next going =>
            have going : word ≠ "end" ∧ word ≠ "else" := by simpa using going
            refine (ih.plain depth word e _ going).bind fun r holds => ?_
            obtain ⟨same, own, here, first⟩ := holds
            refine (ih.sequence depth _ r.2).bind fun r' holds => ?_
            obtain ⟨same', xs, tail, split, others, stop⟩ := holds
            refine yields_pure ⟨same'.trans same, e :: (own ++ xs), tail, ?_, .plain keyword first others, stop⟩
            have here : rest = own ++ r.2.rest := here
            rw [here, split, List.cons_append, List.append_assoc]

/-- What a plain instruction is read as is derived from what was taken. -/
theorem sound_parsePlain (depth : Nat) (word : String) (site : SExpr) (i : Items)
    (going : word ≠ "end" ∧ word ≠ "else") :
    Yields (fun r : Node × Items => r.2.span = i.span ∧
      ∃ own, i.rest = own ++ r.2.rest ∧ Plain depth word own r.1)
      (parsePlain (fuel + 1) depth word site i) := by
  rw [parsePlain]
  split
  · next isIf =>
    obtain rfl := beq_iff_eq.1 isIf
    refine (yields_requireDepth depth site).bind fun _ nested => ?_
    refine (yields_nameOrFresh i rfl).bind fun r holds => ?_
    obtain ⟨same, l, here, labelled⟩ := holds
    refine (yields_lift fun _ read => typed_of_parseBlockResult read).bind fun r' holds => ?_
    obtain ⟨same', t, here', typed⟩ := holds
    refine (ih.sequence (depth + 1) ["else", "end"] r'.2).bind fun q holds => ?_
    obtain ⟨same'', xs, tail, here'', whenTrue, stop⟩ := holds
    obtain ⟨consequent, stop?, after, span⟩ := q
    have started : i.rest = l ++ (t ++ (xs ++ tail)) := by rw [here, here', here'']
    have place := same''.trans (same'.trans same)
    dsimp only at place stop whenTrue ⊢
    cases stop with
    | finish => exact yields_throw
    | @word middle word _ keyword listed =>
      obtain rfl | rfl : word = "else" ∨ word = "end" := by simpa using listed
      · obtain ⟨last, m, divided, marked⟩ := marked_of_takeId ⟨after, span⟩
        refine (ih.sequence (depth + 1) ["end"] _).bind fun q holds => ?_
        obtain ⟨same₃, ys, tail, here₃, whenFalse, stop⟩ := holds
        obtain ⟨alternate, stop?, after', span'⟩ := q
        dsimp only at same₃ stop whenFalse ⊢
        cases stop with
        | finish =>
          refine Yields.bind (p := fun _ => False) ?_ fun _ => False.elim
          exact yields_throw
        | word keyword' listed =>
          obtain rfl := List.mem_singleton.1 listed
          obtain ⟨last', m', closed, marked'⟩ := marked_of_takeId ⟨after', span'⟩
          refine yields_pure ⟨?_, l ++ (t ++ (xs ++ middle :: (m ++ (ys ++ _ :: m')))), ?_,
            .ifElse nested labelled typed whenTrue keyword marked whenFalse keyword' marked'⟩
          · exact last'.trans (same₃.trans (last.trans place))
          · have divided : after = m ++ _ := divided
            have closed : after' = m' ++ _ := closed
            generalize (Items.takeId ⟨after', span'⟩).2 = final at closed ⊢
            generalize (Items.takeId ⟨after, span⟩).2 = between at divided here₃
            rw [started, divided, here₃, closed]
            simp only [List.append_assoc, List.cons_append]
      · obtain ⟨last, m, closed, marked⟩ := marked_of_takeId ⟨after, span⟩
        refine yields_pure ⟨last.trans place, l ++ (t ++ (xs ++ middle :: m)), ?_,
          .ifOnly nested labelled typed whenTrue keyword marked⟩
        have closed : after = m ++ _ := closed
        generalize (Items.takeId ⟨after, span⟩).2 = final at closed ⊢
        rw [started, closed]
        simp only [List.append_assoc, List.cons_append]
  · next notIf =>
    split
    · next isBlock =>
      have opens : word = "block" ∨ word = "loop" := by
        simp only [isBlockWord, Bool.or_eq_true, beq_iff_eq] at isBlock notIf
        tauto
      refine (yields_requireDepth depth site).bind fun _ nested => ?_
      refine (yields_nameOrFresh i isBlock).bind fun r holds => ?_
      obtain ⟨same, l, here, labelled⟩ := holds
      refine (yields_lift fun _ read => typed_of_parseBlockResult read).bind fun r' holds => ?_
      obtain ⟨same', t, here', typed⟩ := holds
      refine (ih.sequence (depth + 1) ["end"] r'.2).bind fun q holds => ?_
      obtain ⟨same'', xs, tail, here'', inside, stop⟩ := holds
      obtain ⟨body, stop?, after, span⟩ := q
      dsimp only at same'' stop inside ⊢
      cases stop with
      | finish =>
        refine Yields.bind (p := fun _ => False) ?_ fun _ => False.elim
        exact yields_throw
      | word keyword listed =>
        obtain rfl := List.mem_singleton.1 listed
        obtain ⟨last, m, here₃, marked⟩ := marked_of_takeId ⟨after, span⟩
        refine yields_pure ⟨?_, l ++ (t ++ (xs ++ _ :: m)), ?_,
          .block opens nested labelled typed inside keyword marked⟩
        · exact last.trans (same''.trans (same'.trans same))
        · have here₃ : after = m ++ _ := here₃
          generalize (Items.takeId ⟨after, span⟩).2 = final at here₃ ⊢
          rw [here, here', here'', here₃]
          simp only [List.append_assoc, List.cons_append]
    · next notBlock =>
      refine yields_lift fun r read => ?_
      obtain ⟨known, same, imm, here, kept, takes⟩ := withImmediates_of_parseOp read
      exact ⟨same, imm, here, .op ⟨known, by simpa using notBlock, going, kept, takes⟩⟩

/-- What a folded instruction is read as is derived from it. -/
theorem sound_parseFolded (depth : Nat) (e : SExpr) :
    Yields (Folded depth e) (parseFolded (fuel + 1) depth e) := by
  rw [parseFolded]
  cases head : e.head? with
  | none => exact yields_error
  | some word =>
    obtain ⟨span, first, items, rfl, keyword, here⟩ := exists_of_head? head
    dsimp only
    rw [here]
    split
    · next isIf =>
      obtain rfl := beq_iff_eq.1 isIf
      refine (yields_requireDepth depth _).bind fun _ nested => ?_
      refine (yields_nameOrFresh _ rfl).bind fun r holds => ?_
      obtain ⟨_, l, split, labelled⟩ := holds
      refine (yields_lift fun _ read => typed_of_parseBlockResult read).bind fun r' holds => ?_
      obtain ⟨_, t, split', typed⟩ := holds
      refine (ih.arms (depth + 1) r'.2.rest [] []).bind fun q arms => ?_
      have split : items = l ++ r.2.rest := split
      rw [split, split']
      exact yields_pure (.conditional keyword nested labelled typed arms)
    · next notIf =>
      split
      · next isBlock =>
        have opens : word = "block" ∨ word = "loop" := by
          simp only [isBlockWord, Bool.or_eq_true, beq_iff_eq] at isBlock notIf
          tauto
        refine (yields_requireDepth depth _).bind fun _ nested => ?_
        refine (yields_nameOrFresh _ isBlock).bind fun r holds => ?_
        obtain ⟨_, l, split, labelled⟩ := holds
        refine (yields_lift fun _ read => typed_of_parseBlockResult read).bind fun r' holds => ?_
        obtain ⟨_, t, split', typed⟩ := holds
        refine (ih.sequence (depth + 1) [] r'.2).bind fun q holds => ?_
        obtain ⟨_, xs, tail, split'', inside, stop⟩ := holds
        obtain ⟨body, stop?, after, span'⟩ := q
        dsimp only at stop inside ⊢
        cases stop with
        | finish =>
          have split : items = l ++ r.2.rest := split
          rw [split, split', split'', List.append_nil]
          exact yields_pure (.block keyword opens nested labelled typed inside)
        | word _ listed => cases listed
      · next notBlock =>
        split
        · exact yields_error
        · next going =>
          have going : (word ≠ "then" ∧ word ≠ "else") ∧ word ≠ "end" := by simpa using going
          refine (yields_lift fun _ read => withImmediates_of_parseOp read).bind fun r holds => ?_
          obtain ⟨known, _, imm, split, kept, takes⟩ := holds
          refine (ih.operands depth r.2.rest).bind fun nodes operands => ?_
          have split : items = imm ++ r.2.rest := split
          rw [split]
          exact yields_pure (.op keyword
            ⟨known, by simpa using notBlock, ⟨going.2, going.1.2⟩, kept, takes⟩ operands)

/-- What operands are read as is derived from them. -/
theorem sound_parseOperands (depth : Nat) (es : List SExpr) :
    Yields (Operands depth es) (parseOperands (fuel + 1) depth es) := by
  cases es with
  | nil =>
    rw [parseOperands]
    exact yields_pure (.nil depth)
  | cons e rest =>
    rw [parseOperands]
    split
    · exact (ih.folded depth e).bind fun nodes first => (ih.operands depth rest).bind
        fun others rest => yields_pure (.cons first rest)
    · exact yields_error

/-- An arm is a sequence of its own. -/
theorem sound_arm (depth : Nat) {e : SExpr} {word : String} (headed : e.isHeadedBy word = true) :
    Yields (fun r : List Node × Option String × Items => ∃ span first body, e = .list span (first :: body) ∧
      first.keyword? = some word ∧ Sequence depth body r.1) (parseSequence fuel depth [] (.ofExpr e)) := by
  obtain ⟨span, first, items, rfl, keyword, here⟩ := exists_of_head? (beq_iff_eq.1 headed)
  rw [here]
  refine (ih.sequence depth [] _).mono fun q holds => ?_
  obtain ⟨_, xs, tail, split, inside, stop⟩ := holds
  obtain ⟨nodes, stop?, after, span'⟩ := q
  dsimp only at stop inside split ⊢
  cases stop with
  | finish =>
    rw [List.append_nil] at split
    exact ⟨span, first, items, rfl, keyword, split ▸ inside⟩
  | word _ listed => cases listed

/-- What the arms of a conditional are read as is derived from them. -/
theorem sound_parseArms (depth : Nat) (es : List SExpr) (consequent alternate : List Node) :
    Yields (fun r : List Node × List Node × List Node =>
      Arms depth es consequent alternate r.1 r.2.1 r.2.2)
      (parseArms (fuel + 1) depth es consequent alternate) := by
  cases es with
  | nil =>
    rw [parseArms]
    exact yields_pure (.nil depth _ _)
  | cons e rest =>
    rw [parseArms]
    split
    · next headed =>
      refine (sound_arm ih depth headed).bind fun q holds => ?_
      obtain ⟨span, first, body, here, keyword, inside⟩ := holds
      subst here
      exact (ih.arms depth rest q.1 alternate).mono fun r arms => .whenTrue keyword inside arms
    · split
      · next headed =>
        refine (sound_arm ih depth headed).bind fun q holds => ?_
        obtain ⟨span, first, body, here, keyword, inside⟩ := holds
        subst here
        exact (ih.arms depth rest consequent q.1).mono fun r arms => .whenFalse keyword inside arms
      · split
        · exact (ih.folded depth e).bind fun nodes first => (ih.arms depth rest _ _).bind
            fun r arms => yields_pure (.operand first arms)
        · exact yields_error

end Step

/-- The readers call each other with less fuel, so that they follow the grammar under one fuel after the
other. -/
theorem sound (fuel : Nat) : Sound fuel := by
  induction fuel with
  | zero => exact sound_zero
  | succ fuel ih =>
    exact ⟨sound_parseSequence ih, sound_parsePlain ih, sound_parseFolded ih, sound_parseArms ih,
      sound_parseOperands ih⟩

/-- What is read as a whole is a sequence. -/
theorem sequence_of_parseBody (fuel : Nat) (i : Items) :
    Yields (Sequence 0 i.rest) (parseBody fuel i) := by
  refine ((sound fuel).sequence 0 [] i).bind fun q ⟨_, xs, tail, split, inside, stop⟩ => ?_
  obtain ⟨nodes, stop?, after, span⟩ := q
  dsimp only at stop inside split ⊢
  cases stop with
  | finish =>
    rw [split, List.append_nil]
    exact yields_pure inside
  | word _ listed => cases listed

end WasmEngine.Wat
