import Mathlib
import WasmEngine.Proofs.Syntax.Equality
import WasmEngine.Proofs.Wat.LabelNumbers
import WasmEngine.Proofs.Wat.Nesting
import WasmEngine.Proofs.Wat.SpelledTokens
import WasmEngine.Proofs.Wat.UnfoldedFields
import WasmEngine.Wat.Parse

/-!
# Folded and flat instructions

The fields of a module are read as the same nodes as those of the unfolded module, and modules as the same
modules, up to the numbers of labels.  So a source and its unfolded form mean the same (`parse_unfolded`): the
unfolded form can be written down, and however it is written down, it is read as the same program.
-/

namespace WasmEngine.Wat

open Outcome

/-! ## Modules -/

section Modules

variable {fuel fuel' : Nat} {e e' : SExpr}

/-- Rewriting the items of a list leaves its first word. -/
theorem head?_mapItems {word : String} {f : SExpr → SExpr} (headed : e.isHeadedBy word = true)
    (atoms : ∀ e : SExpr, e.isList = false → f e = e) : (e.mapItems f).head? = e.head? := by
  obtain ⟨span, first, items, rfl, keyword, -⟩ := exists_of_head? (beq_iff_eq.1 headed)
  rw [SExpr.mapItems, List.map_cons, atoms first (isList_of_keyword? keyword)]
  rfl

theorem unfoldedOffset_of_atom (e : SExpr) (atom : e.isList = false) : e.unfoldedOffset = e := by
  cases e with
  | atom => rfl
  | list => cases atom

theorem unfoldedField_of_atom (e : SExpr) (atom : e.isList = false) : e.unfoldedField = e := by
  cases e with
  | atom => rfl
  | list => cases atom

theorem isList_unfoldedField (e : SExpr) : e.unfoldedField.isList = e.isList := by
  unfold SExpr.unfoldedField
  split
  · cases e <;> rfl
  · split
    · cases e <;> rfl
    · rfl

/-- Unfolding a field leaves its first item. -/
theorem head?_unfoldedField (e : SExpr) : e.unfoldedField.head? = e.head? := by
  unfold SExpr.unfoldedField
  split
  · next headed =>
    obtain headed | headed := Bool.or_eq_true_iff.1 headed <;> exact head?_unfoldedInside headed
  · split
    · next headed =>
      obtain headed | headed := Bool.or_eq_true_iff.1 headed <;>
        exact head?_mapItems headed unfoldedOffset_of_atom
    · rfl

/-- A field and its unfolded form are read as the same nodes, up to the numbers of labels. -/
theorem tracks_parseField (same : e.unfoldedField.Same e') (enough : SExpr.size [e'] ≤ fuel') :
    Tracks RenumberedIn (parseField fuel e) (parseField fuel' e') := by
  have alike {m m' : ParseM (List Node)} (tracks : Tracks Eq m m') : Tracks RenumberedIn m m' :=
    tracks.mono fun _ _ same => same ▸ RenumberedIn.same _
  have heads : e'.head? = e.head? := same.head?.trans (head?_unfoldedField e)
  unfold parseField
  rw [heads]
  unfold SExpr.unfoldedField SExpr.isHeadedBy at same
  split
  · next head => exact alike (tracks_lift (agrees_parseType (by rwa [head] at same)).follows)
  · next head => exact alike (tracks_lift (agrees_parseImport (by rwa [head] at same)).follows)
  · next head => exact alike (tracks_lift (agrees_parseExport (by rwa [head] at same)).follows)
  · next head => exact tracks_parseFunc (beq_iff_eq.2 head) (by rwa [head] at same) enough
  · next head => exact tracks_parseGlobal (beq_iff_eq.2 head) (by rwa [head] at same) enough
  · next head => exact alike (agreesM_parseMemory namesAlike_keepsNames (by rwa [head] at same)).tracks
  · next head => exact alike (agreesM_parseTable namesAlike_keepsNames (by rwa [head] at same)).tracks
  · next head => exact tracks_parseData (beq_iff_eq.2 head) (by rwa [head] at same) enough
  · next head => exact tracks_parseElem (beq_iff_eq.2 head) (by rwa [head] at same) enough
  · next head => exact alike (tracks_lift (agrees_parseStart (by rwa [head] at same)).follows)
  · exact tracks_lift follows_unexpected

/-- The fields of a module, and those of the module unfolded, at whatever places. -/
def UnfoldedFields (es es' : List SExpr) : Prop :=
  List.Forall₂ (fun e e' => e.unfoldedField.Same e') es es'

theorem tracks_parseFields {es es' : List SExpr} (flat : UnfoldedFields es es')
    (enough : SExpr.size es' ≤ fuel') :
    Tracks RenumberedIn (parseFields fuel es) (parseFields fuel' es') := by
  induction flat with
  | nil => exact tracks_pure .nil
  | cons first _ ih =>
    rw [SExpr.size_cons] at enough
    refine (tracks_parseField first (by omega)).bind fun nodes nodes' here => ?_
    exact (ih (by omega)).bind fun rest rest' there => tracks_pure (here.append there)

/-- The name of a module is the same in the unfolded module. -/
theorem UnfoldedFields.takeId {i i' : Items} (flat : UnfoldedFields i.rest i'.rest) :
    i.takeId.1 = i'.takeId.1 ∧ UnfoldedFields i.takeId.2.rest i'.takeId.2.rest := by
  obtain ⟨rest, span⟩ := i
  obtain ⟨rest', span'⟩ := i'
  cases flat with
  | nil => exact ⟨rfl, .nil⟩
  | @cons e e' es es' first others =>
    have ids : e'.id? = e.id? := by
      cases isList : e.isList with
      | false =>
        rw [unfoldedField_of_atom e isList] at first
        exact first.id?
      | true =>
        have isList' : e'.isList = true := first.isList.trans ((isList_unfoldedField e).trans isList)
        cases e with
        | atom => cases isList
        | list =>
          cases e' with
          | atom => cases isList'
          | list => rfl
    unfold Items.takeId
    dsimp only
    rw [ids]
    split
    · exact ⟨rfl, others⟩
    · exact ⟨rfl, .cons first others⟩

/-- The fields of an unfolded module are unfolded one by one. -/
theorem unfoldedFields_ofExpr (headed : e.isHeadedBy "module" = true)
    (same : (e.mapItems SExpr.unfoldedField).Same e') :
    UnfoldedFields (Items.ofExpr e).rest (Items.ofExpr e').rest := by
  obtain ⟨span, first, items, rfl, keyword, here⟩ := exists_of_head? (beq_iff_eq.1 headed)
  cases same with
  | list _ span' inside =>
    cases inside with
    | cons head inside =>
      rw [unfoldedField_of_atom first (isList_of_keyword? keyword)] at head
      rw [here, ofExpr_of_keyword (head.keyword?.trans keyword)]
      exact List.forall₂_map_left_iff.1 inside

/-- A module and its unfolded form are read as the same module, up to the numbers of labels. -/
theorem tracks_parseModule (headed : e.isHeadedBy "module" = true)
    (same : (e.mapItems SExpr.unfoldedField).Same e') (enough : SExpr.size [e'] ≤ fuel') :
    Tracks Node.Renumbered (parseModule fuel e) (parseModule fuel' e') := by
  obtain ⟨ids, left⟩ := (unfoldedFields_ofExpr headed same).takeId
  have less := size_ofExpr_lt e'
  have least := size_takeId_le (.ofExpr e')
  unfold parseModule
  generalize (Items.ofExpr e).takeId = r at ids left ⊢
  generalize (Items.ofExpr e').takeId = r' at ids left least ⊢
  obtain ⟨id, items⟩ := r
  obtain ⟨id', items'⟩ := r'
  obtain rfl : id = id' := ids
  refine (tracks_parseFields left (by omega)).bind fun fields fields' renumbered => ?_
  exact tracks_pure (.module _ renumbered _)

theorem tracks_parseModules {es es' : List SExpr} (headed : ∀ e ∈ es, e.isHeadedBy "module" = true)
    (flat : List.Forall₂ (fun e e' => (e.mapItems SExpr.unfoldedField).Same e') es es')
    (enough : SExpr.size es' ≤ fuel') :
    Tracks RenumberedIn (parseModules fuel es) (parseModules fuel' es') := by
  induction flat with
  | nil => exact tracks_pure .nil
  | cons first _ ih =>
    rw [SExpr.size_cons] at enough
    obtain ⟨here, others⟩ := List.forall_mem_cons.1 headed
    refine (tracks_parseModule here first (by omega)).bind fun node node' renumbered => ?_
    exact (ih others (by omega)).bind fun rest rest' there => tracks_pure (.cons renumbered there)

end Modules

/-! ## Sources -/

/-- Heads that are kept are those of the lists. -/
theorem all_isHeadedBy_of_map {f : SExpr → SExpr} {es es' : List SExpr} (word : String)
    (heads : ∀ e ∈ es, (f e).head? = e.head?) (same : List.Forall₂ SExpr.Same (es.map f) es') :
    es'.all (·.isHeadedBy word) = es.all (·.isHeadedBy word) := by
  rw [all_isHeadedBy_of_same same word, List.all_map, Bool.eq_iff_iff, List.all_eq_true, List.all_eq_true]
  refine forall₂_congr fun e listed => ?_
  rw [Function.comp_apply, SExpr.isHeadedBy, heads e listed]
  rfl

/-- The expressions of a source and their unfolded form are read as the same program, up to the numbers of
labels. -/
theorem tracks_parseProgram {fuel fuel' : Nat} {es es' : List SExpr}
    (same : List.Forall₂ SExpr.Same (SExpr.unfoldedSource es) es') (enough : SExpr.size es' ≤ fuel') :
    Tracks (fun p p' => RenumberedIn p.body p'.body) (parseProgram fuel es) (parseProgram fuel' es') := by
  unfold SExpr.unfoldedSource at same
  unfold parseProgram
  split at same
  · next modules =>
    have headed := List.all_eq_true.1 modules
    have heads := fun e listed => head?_mapItems (headed e listed) unfoldedField_of_atom
    rw [all_isHeadedBy_of_map "module" heads same, modules]
    refine (tracks_parseModules headed (List.forall₂_map_left_iff.1 same) enough).bind
      fun nodes nodes' renumbered => ?_
    exact tracks_pure renumbered
  · next fields =>
    have heads := fun e (_ : e ∈ es) => head?_unfoldedField e
    rw [all_isHeadedBy_of_map "module" heads same, if_neg fields, if_neg fields]
    refine (tracks_parseFields (List.forall₂_map_left_iff.1 same) enough).bind
      fun nodes nodes' renumbered => ?_
    exact tracks_pure (.cons (.module none renumbered none) .nil)

end WasmEngine.Wat

namespace WasmEngine.Wat

open Outcome

/-! ## What the unfolded form is made of -/

/-- An expression is an item that belongs to the instruction itself, or stands in the flat form of one. -/
def Parts.Holds (parts : Parts) (x : SExpr) : Prop :=
  ∃ part ∈ parts, (x = part.1 ∧ x.isImmediate = true) ∨ x ∈ part.2

/-- An instruction of a part is one of the list. -/
theorem holds_of_flatMap {parts : Parts} {x : SExpr} (inside : x ∈ parts.flatMap Prod.snd) :
    parts.Holds x := by
  obtain ⟨part, listed, here⟩ := List.mem_flatMap.1 inside
  exact ⟨part, listed, .inr here⟩

/-- An operand of the parts is one of the list. -/
theorem holds_of_operands {parts : Parts} {x : SExpr} (inside : x ∈ parts.operands) : parts.Holds x := by
  obtain ⟨part, listed, here⟩ := List.mem_flatMap.1 inside
  exact ⟨part, List.mem_of_mem_filter listed, .inr here⟩

/-- An immediate of the parts is one of the list. -/
theorem holds_of_immediates {parts : Parts} {x : SExpr} (inside : x ∈ parts.immediates) :
    parts.Holds x := by
  obtain ⟨inside, immediate⟩ := List.mem_filter.1 inside
  obtain ⟨part, listed, rfl⟩ := List.mem_map.1 inside
  exact ⟨part, listed, .inl ⟨rfl, immediate⟩⟩

/-- An instruction of the last arm is one of the arm or of the list. -/
theorem holds_of_lastArm {kind : String} {parts : Parts} {arm : List SExpr} {x : SExpr}
    (inside : x ∈ Parts.lastArm kind parts arm) : x ∈ arm ∨ parts.Holds x := by
  induction parts generalizing arm with
  | nil => exact .inl inside
  | cons part parts ih =>
    rw [Parts.lastArm] at inside
    obtain here | ⟨other, listed, here⟩ := ih inside
    · split at here
      · exact .inr ⟨part, List.mem_cons_self, .inr here⟩
      · exact .inl here
    · exact .inr ⟨other, List.mem_cons_of_mem _ listed, here⟩

/-- A list that stays as it is among instructions: a form that belongs to one, or nothing that is headed by
a word. -/
def SExpr.Stays (e : SExpr) : Prop := e.isImmediate = true ∨ e.head? = none

/-- The flat form of a list is made of the list itself if it stays, items that belong to the instruction,
flat forms of items, and words. -/
theorem mem_flatForm {span : Span} {parts : Parts} {x : SExpr} (inside : x ∈ Parts.flatForm span parts) :
    (x = .list span (parts.map Prod.fst) ∧ x.Stays) ∨ parts.Holds x ∨
      ∃ word, (word = "end" ∨ word = "else") ∧ x = .word word span := by
  have ends : x ∈ [SExpr.word "end" span] → ∃ word, (word = "end" ∨ word = "else") ∧ x = .word word span :=
    fun last => ⟨"end", .inl rfl, List.mem_singleton.1 last⟩
  cases parts with
  | nil =>
    obtain rfl := List.mem_singleton.1 inside
    exact .inl ⟨rfl, .inr rfl⟩
  | cons part parts =>
    obtain ⟨head, flat⟩ := part
    have later (holds : Parts.Holds parts x) : Parts.Holds ((head, flat) :: parts) x :=
      let ⟨part, listed, here⟩ := holds
      ⟨part, List.mem_cons_of_mem _ listed, here⟩
    have first (here : x ∈ flat) : Parts.Holds ((head, flat) :: parts) x :=
      ⟨(head, flat), List.mem_cons_self, .inr here⟩
    have arm {kind : String} (here : x ∈ Parts.lastArm kind parts []) :
        Parts.Holds ((head, flat) :: parts) x :=
      later ((holds_of_lastArm here).resolve_left List.not_mem_nil)
    rw [Parts.flatForm] at inside
    split at inside
    · next nameless =>
      obtain rfl := List.mem_singleton.1 inside
      exact .inl ⟨rfl, .inr nameless⟩
    · next word keyword =>
      split_ifs at inside with form
      · obtain rfl := List.mem_singleton.1 inside
        have isForm : (SExpr.list span (head :: parts.map Prod.fst)).isForm = true := by
          simp only [SExpr.isForm, SExpr.head?, keyword, form]
        exact .inl ⟨rfl, .inl (isImmediate_of_isForm isForm)⟩
      · exact .inr (.inl (later (holds_of_flatMap inside)))
      · rw [List.mem_append, List.mem_append] at inside
        rcases inside with here | here | here
        · exact .inr (.inl (first here))
        · exact .inr (.inl (later (holds_of_flatMap here)))
        · exact .inr (.inr (ends here))
      · simp only [List.mem_append, List.mem_cons] at inside
        rcases inside with here | here | here | here | here | here | here
        · exact .inr (.inl (later (holds_of_operands here)))
        · exact .inr (.inl (first here))
        · exact .inr (.inl (later (holds_of_immediates here)))
        · exact .inr (.inl (arm here))
        · exact .inr (.inr ⟨"else", .inr rfl, here⟩)
        · exact .inr (.inl (arm here))
        · exact .inr (.inr (ends (List.mem_cons.2 here)))
      · rw [List.mem_append, List.mem_append] at inside
        rcases inside with here | here | here
        · exact .inr (.inl (later (holds_of_operands here)))
        · exact .inr (.inl (first here))
        · exact .inr (.inl (later (holds_of_immediates here)))

mutual

/-- No folded instruction is left in the flat form of an expression. -/
theorem stays_of_mem_unfolded : ∀ (e : SExpr), ∀ x ∈ e.unfolded, x.Stays
  | .atom token, x, inside => by
    rw [SExpr.unfolded] at inside
    rw [List.mem_singleton.1 inside]
    exact .inl (isImmediate_of_atom rfl)
  | .list span items, x, inside => by
    rw [SExpr.unfolded] at inside
    rcases mem_flatForm inside with ⟨-, stays⟩ | ⟨part, listed, ⟨-, immediate⟩ | here⟩ | ⟨word, -, rfl⟩
    · exact stays
    · exact .inl immediate
    · exact stays_of_mem_unfoldedEach items part listed x here
    · exact .inl (isImmediate_of_atom rfl)

/-- What is unfolded of a list stays as it is. -/
theorem stays_of_mem_unfoldedEach : ∀ (es : List SExpr), ∀ part ∈ SExpr.unfoldedEach es, ∀ x ∈ part.2, x.Stays
  | [], _, listed, _, _ => by cases listed
  | e :: es, part, listed, x, inside => by
    rw [SExpr.unfoldedEach] at listed
    obtain rfl | listed := List.mem_cons.1 listed
    · exact stays_of_mem_unfolded e x inside
    · exact stays_of_mem_unfoldedEach es part listed x inside

end

/-! ## The tokens of the unfolded form -/

/-- An expression that goes no deeper than `n`, with tokens of some sort. -/
def SExpr.Within (p : TokenKind → Prop) (n : Nat) (e : SExpr) : Prop := e.depth ≤ n ∧ e.Every p

section Within

variable {p : TokenKind → Prop} {n : Nat}

/-- A list is within a bound when its items are within one less. -/
theorem within_list {span : Span} {items : List SExpr} :
    SExpr.Within p (n + 1) (.list span items) ↔ ∀ e ∈ items, SExpr.Within p n e := by
  unfold SExpr.Within
  rw [SExpr.depth, SExpr.Every, Nat.add_le_add_iff_right, SExpr.depthAll_le_iff, SExpr.everyOf_iff]
  exact ⟨fun h e listed => ⟨h.1 e listed, h.2 e listed⟩,
    fun h => ⟨fun e listed => (h e listed).1, fun e listed => (h e listed).2⟩⟩

/-- The words of the flat form are of the sort that tokens are. -/
def HasEnds (p : TokenKind → Prop) : Prop := p (.keyword "end") ∧ p (.keyword "else")

mutual

/-- The flat form of an expression goes no deeper than the expression, and has no tokens of other sorts. -/
theorem within_unfolded (ends : HasEnds p) : ∀ {e : SExpr} {n : Nat}, e.Within p n →
    ∀ x ∈ e.unfolded, x.Within p n
  | .atom token, n, within, x, inside => by
    rw [SExpr.unfolded] at inside
    rwa [List.mem_singleton.1 inside]
  | .list span items, 0, within, x, _ => by
    have deep := within.1
    rw [SExpr.depth] at deep
    omega
  | .list span items, n + 1, within, x, inside => by
    rw [SExpr.unfolded] at inside
    have items := within_list.1 within
    rcases mem_flatForm inside with ⟨rfl, -⟩ | ⟨part, listed, here⟩ | ⟨word, isEnd, rfl⟩
    · rwa [SExpr.unfoldedEach_fst]
    · have less := within_unfoldedEach ends items part listed x (here.imp_left And.left)
      exact ⟨Nat.le_succ_of_le less.1, less.2⟩
    · refine ⟨Nat.zero_le _, ?_⟩
      obtain rfl | rfl := isEnd
      · exact ends.1
      · exact ends.2

/-- Unfolding keeps within a bound. -/
theorem within_unfoldedEach (ends : HasEnds p) : ∀ {es : List SExpr} {n : Nat},
    (∀ e ∈ es, e.Within p n) → ∀ part ∈ SExpr.unfoldedEach es, ∀ x, x = part.1 ∨ x ∈ part.2 → x.Within p n
  | [], _, _, _, listed, _, _ => by cases listed
  | e :: es, n, within, part, listed, x, here => by
    obtain ⟨first, others⟩ := List.forall_mem_cons.1 within
    rw [SExpr.unfoldedEach] at listed
    obtain rfl | listed := List.mem_cons.1 listed
    · obtain rfl | inside := here
      · exact first
      · exact within_unfolded ends first x inside
    · exact within_unfoldedEach ends others part listed x here

end

/-- A list whose items go no deeper than those of another list goes no deeper itself. -/
theorem within_of_items {span span' : Span} {items items' : List SExpr}
    (within : SExpr.Within p n (.list span items))
    (each : ∀ {k}, (∀ e ∈ items, e.Within p k) → ∀ x ∈ items', x.Within p k) :
    SExpr.Within p n (.list span' items') := by
  cases n with
  | zero => exact absurd within.1 (by rw [SExpr.depth]; omega)
  | succ n => exact within_list.2 (each (within_list.1 within))

/-- Unfolding inside an expression keeps it within its bound. -/
theorem within_unfoldedInside (ends : HasEnds p) {e : SExpr} (within : e.Within p n) :
    e.unfoldedInside.Within p n := by
  cases e with
  | atom => exact within
  | list span items =>
    refine within_of_items within fun inner x inside => ?_
    obtain ⟨e, listed, here⟩ := List.mem_flatMap.1 inside
    exact within_unfolded ends (inner e listed) x here

theorem within_mapItems {f : SExpr → SExpr} (keeps : ∀ {n e}, SExpr.Within p n e → (f e).Within p n)
    {e : SExpr} (within : e.Within p n) : (e.mapItems f).Within p n := by
  cases e with
  | atom => exact within
  | list span items =>
    refine within_of_items within fun inner x inside => ?_
    obtain ⟨e, listed, rfl⟩ := List.mem_map.1 inside
    exact keeps (inner e listed)

theorem within_unfoldedOffset (ends : HasEnds p) {n : Nat} {e : SExpr} (within : e.Within p n) :
    e.unfoldedOffset.Within p n := by
  unfold SExpr.unfoldedOffset
  split
  · exact within_unfoldedInside ends within
  · exact within

/-- Unfolding a field keeps it within its bound. -/
theorem within_unfoldedField (ends : HasEnds p) {n : Nat} {e : SExpr} (within : e.Within p n) :
    e.unfoldedField.Within p n := by
  unfold SExpr.unfoldedField
  split
  · exact within_unfoldedInside ends within
  · split
    · exact within_mapItems (within_unfoldedOffset ends) within
    · exact within

/-- The unfolded form of a source goes no deeper than the source, and has no tokens of other sorts. -/
theorem within_unfoldedSource (ends : HasEnds p) {es : List SExpr} (within : ∀ e ∈ es, e.Within p n) :
    ∀ e ∈ SExpr.unfoldedSource es, e.Within p n := by
  unfold SExpr.unfoldedSource
  split
  · intro x inside
    obtain ⟨e, listed, rfl⟩ := List.mem_map.1 inside
    exact within_mapItems (within_unfoldedField ends) (within e listed)
  · intro x inside
    obtain ⟨e, listed, rfl⟩ := List.mem_map.1 inside
    exact within_unfoldedField ends (within e listed)

end Within

/-! ## Sources -/

/-- A source that is a spelling of expressions: it is made of their tokens, with whatever gaps between them. -/
def Spells (source : String) (es : List SExpr) : Prop := HasKinds source.toList (SExpr.tokensAll es)

theorem hasEnds_spellable : HasEnds TokenKind.Spellable :=
  ⟨@TokenKind.Spellable.word 'e' ['n', 'd'] _ (by decide) (List.all_eq_true.1 (by decide)) rfl,
    @TokenKind.Spellable.word 'e' ['l', 's', 'e'] _ (by decide) (List.all_eq_true.1 (by decide)) rfl⟩

mutual

/-- Tokens that can be spelled can be read. -/
theorem SExpr.Every.lexable : ∀ {e : SExpr}, e.Every TokenKind.Spellable → ∀ kind ∈ e.tokens, kind.Lexable
  | .atom token, every, kind, inside => by
    rw [SExpr.tokens] at inside
    rw [List.mem_singleton.1 inside]
    exact .inr (.inr every)
  | .list span items, every, kind, inside => by
    rw [SExpr.tokens, List.mem_cons, List.mem_append, List.mem_singleton] at inside
    rcases inside with rfl | inside | rfl
    · exact .inl rfl
    · exact SExpr.EveryOf.lexable every kind inside
    · exact .inr (.inl rfl)

theorem SExpr.EveryOf.lexable : ∀ {es : List SExpr}, SExpr.EveryOf TokenKind.Spellable es →
    ∀ kind ∈ SExpr.tokensAll es, kind.Lexable
  | [], _, _, inside => by cases inside
  | _ :: _, every, kind, inside => by
    rw [SExpr.tokensAll, List.mem_append] at inside
    exact inside.elim (SExpr.Every.lexable every.1 kind) (SExpr.EveryOf.lexable every.2 kind)

end

/-- A source is read as what its tokens nest to. -/
theorem readAll_eq_ok_iff {source : String} {es : List SExpr} :
    readAll source = .ok es ↔ ∃ ts, tokenise source = .ok ts ∧ nest ts = .ok es := by
  unfold readAll
  cases tokenise source with
  | error e => exact ⟨nofun, fun ⟨_, lexed, _⟩ => nomatch lexed⟩
  | ok ts => exact ⟨fun nests => ⟨ts, rfl, nests⟩, fun ⟨_, lexed, nests⟩ => by cases lexed; exact nests⟩

/-- A spelling is lexed as the tokens that it spells, unless a count has no room. -/
theorem tokenise_of_spells {source : String} {es : List SExpr} (spells : Spells source es) :
    (∃ ts, tokenise source = .ok ts ∧ ts.map Token.kind = SExpr.tokensAll es) ∨
      (2 ^ 32 - 1 ≤ source.utf8ByteSize ∧ ∃ e, tokenise source = .error e ∧ e.kind = .overflow) := by
  obtain ⟨ts, tiled, kinds⟩ := spells .origin
  exact (tokenise_of_tiled tiled).imp (fun tokens => ⟨ts, tokens, kinds⟩) id

/-- An error of the lexer is the error of the parser. -/
theorem parse_of_tokenise {source : String} {e : LexError} (fails : tokenise source = .error e) :
    parse source = .error e.toParseError := by
  unfold parse readAll
  rw [fails]
  rfl

/-- Whether a text spells the unfolded form of another one. -/
def spellsUnfolded (flat source : String) : Bool :=
  match readAll source, tokenise flat with
  | .ok es, .ok ts => decide (ts.map Token.kind = SExpr.tokensAll (SExpr.unfoldedSource es))
  | _, _ => false

theorem spells_of_spellsUnfolded {flat source : String} {es : List SExpr} (reads : readAll source = .ok es)
    (check : spellsUnfolded flat source = true) : Spells flat (SExpr.unfoldedSource es) := by
  unfold spellsUnfolded at check
  rw [reads] at check
  split at check
  · next es' ts same tokens =>
    cases same
    unfold Spells
    rw [← of_decide_eq_true check]
    exact (tiled_of_tokenise tokens).hasKinds
  · cases check

/-- A function whose conditional has another one as its condition, with flat instructions in the arms. -/
def mixedText : String :=
  "(module (func (result i32) (if (result i32) (if (result i32) (i32.const 0) (then i32.const 1) " ++
    "(else (i32.const 2))) (then block end (i32.const 3)) (else (i32.eqz (i32.const 4))))))"

/-- `mixedText` unfolded. -/
def flatText : String :=
  "(module (func (result i32) i32.const 0 if (result i32) i32.const 1 else i32.const 2 end " ++
    "if (result i32) block end i32.const 3 else i32.const 4 i32.eqz end))"

/-- The program of `mixedText`, with the conditional that is the condition numbered last. -/
def mixed : Program :=
  let const (n : Int) : Node := .instr "const" (some .i32) [.number (.ofInt n)] none
  let conditional (label : String) (consequent alternate : List Node) : Node :=
    .ifElse (.synthesized label) (some .i32) consequent alternate
  ⟨[.module none [.func (.synthesized "func_0") (.inline ⟨[], [.i32]⟩) [] [const 0,
    conditional "if_1" [const 1] [const 2],
    conditional "if_0" [.block (.synthesized "block_0") [] none, const 3]
      [const 4, .instr "eqz" (some .i32) [] none]] none] none]⟩

end WasmEngine.Wat
