import WasmEngine.Proofs.Wat.Importable
import WasmEngine.Proofs.Wat.Nesting
import WasmEngine.Proofs.Wat.OpenConstructs
import WasmEngine.Proofs.Wat.Sequences

/-!
# Constructs that are refused for their depth

A construct is refused only inside as many others of the same field as are allowed (`sited_of_parse`), with
the operands of a folded conditional inside of it.  No field leaves a construct open, so the count starts anew
with every field (`calm_of_parse`).
-/

namespace WasmEngine.Wat

open Outcome

/-- The place of a construct among expressions before which `n` constructs are open, inside as many
constructs as are allowed. -/
def Sited (n : Nat) (es : List SExpr) (span : Span) : Prop :=
  ∃ site, Opens n es site Binary.maxNesting ∧ span = site.span

/-- A reader that takes names of labels and heeds the limit. -/
def HeedsM {α : Type} (p : α → Prop) (place : Span → Prop) (r : ParseM α) : Prop :=
  ∀ g, Heeds (fun q : α × NameGenerator => p q.1) place (r g)

section HeedsM

variable {α β : Type} {p : α → Prop} {q : β → Prop} {place : Span → Prop}

/-- Readings in sequence heed the places of deep constructs when both parts do. -/
theorem HeedsM.bind {r : ParseM α} {f : α → ParseM β} (first : HeedsM p place r)
    (rest : ∀ a, p a → HeedsM q place (f a)) : HeedsM q place (r >>= f) := by
  intro g
  exact (first g).bind fun a now => rest a.1 now a.2

theorem heedsM_pure {a : α} (now : p a) : HeedsM p place (pure a) := fun _ => now

theorem heedsM_lift {r : Parsed α} (heeds : Heeds p place r) : HeedsM p place (liftM r) := by
  intro g
  exact heeds.bind fun a now => now

theorem heedsM_throw {e : ParseError} (other : e.kind.isTooDeep = false) :
    HeedsM p place (throw e) := fun _ => heeds_error other

theorem heedsM_error {e : ParseError} (other : e.kind.isTooDeep = false) :
    HeedsM p place (liftM (.error e : Parsed α)) := heedsM_lift (heeds_error other)

theorem HeedsM.mono {p' : α → Prop} {r : ParseM α} (first : HeedsM p place r)
    (weaker : ∀ a, p a → p' a) : HeedsM p' place r :=
  fun g => (first g).mono fun a now => weaker a.1 now

/-- A place among fewer expressions. -/
theorem HeedsM.move {place' : Span → Prop} {r : ParseM α} (first : HeedsM p place r)
    (moves : ∀ span, place span → place' span) : HeedsM p place' r := by
  intro g
  have heeds := first g
  unfold Heeds at heeds ⊢
  split
  · next ends => rwa [ends] at heeds
  · next ends =>
    rw [ends] at heeds
    intro n same
    obtain ⟨limit, here⟩ := heeds n same
    exact ⟨limit, moves _ here⟩

theorem heedsM_nameOrFresh (i : Items) (stem : String) :
    HeedsM (fun r => CalmTo i r.2) place (nameOrFresh i stem) := by
  have calm := calmTo_takeId i
  unfold nameOrFresh
  split
  · next taken =>
    rw [taken] at calm
    exact heedsM_pure calm
  · next taken =>
    rw [taken] at calm
    exact fun _ => calm

end HeedsM

section Sited

variable {n : Nat} {span : Span} {e : SExpr} {es es' : List SExpr} {i rest : Items} {word : String}

/-- A site stays one before further expressions. -/
theorem Sited.append (sited : Sited n es span) (es' : List SExpr) : Sited n (es ++ es') span :=
  let ⟨site, opens, here⟩ := sited
  ⟨site, opens.append es', here⟩

/-- A site in what follows calm expressions is one. -/
theorem Sited.beyond (calm : CalmAll es) (sited : Sited n es' span) : Sited n (es ++ es') span :=
  let ⟨site, opens, here⟩ := sited
  ⟨site, opens.after calm, here⟩

/-- A site behind items that are passed over is one. -/
theorem Sited.past (calm : CalmTo i rest) (sited : Sited n rest.rest span) : Sited n i.rest span := by
  obtain ⟨xs, split, before⟩ := calm
  rw [split]
  exact sited.beyond before

/-- A place after the word of a block. -/
theorem Sited.within (keyword : e.keyword? = some word) (isBlock : isBlockWord word = true)
    (sited : Sited (n + 1) es span) : Sited n (e :: es) span := by
  obtain ⟨site, opens, here⟩ := sited
  refine ⟨site, .later ?_, here⟩
  rwa [openAfter_of_blockWord keyword isBlock]

/-- A place in a list. -/
theorem Sited.inList {place : Span} (sited : Sited n es place) : Sited n [.list span es] place :=
  let ⟨site, opens, here⟩ := sited
  ⟨site, .inside opens, here⟩

/-- A place in a list whose head is no word of a block. -/
theorem Sited.headed (headed : e.isHeadedBy word = true) (neutral : Neutral word)
    (sited : Sited n (Items.ofExpr e).rest span) : Sited n [e] span := by
  obtain ⟨_, first, items, rfl, keyword, here⟩ := exists_of_head? (beq_iff_eq.1 headed)
  rw [here] at sited
  exact (sited.beyond ((calm_of_keyword keyword neutral).cons calmAll_nil)).inList

end Sited

/-! ## Instructions -/

/-- What is read as instructions leaves no construct open, and the limit is heeded, whatever fuel the
readers have. -/
structure Heeding (fuel : Nat) : Prop where
  sequence : ∀ depth stops i, depth ≤ Binary.maxNesting →
    HeedsM (fun r : List Node × Option String × Items =>
        ∃ tail, CalmTo i ⟨tail, i.span⟩ ∧ StopsAt stops tail r.2.1 r.2.2.rest)
      (Sited depth i.rest) (parseSequence fuel depth stops i)
  plain : ∀ depth word e i, depth ≤ Binary.maxNesting → e.keyword? = some word → word ≠ "end" →
    HeedsM (fun r : Node × Items => CalmTo ⟨e :: i.rest, i.span⟩ r.2) (Sited depth (e :: i.rest))
      (parsePlain fuel depth word e i)
  folded : ∀ depth e, depth ≤ Binary.maxNesting →
    HeedsM (fun _ => Calm e) (Sited depth [e]) (parseFolded fuel depth e)
  arms : ∀ depth es consequent alternate, depth ≤ Binary.maxNesting →
    HeedsM (fun _ => CalmAll es) (Sited depth es) (parseArms fuel depth es consequent alternate)
  operands : ∀ depth es, depth ≤ Binary.maxNesting →
    HeedsM (fun _ => CalmAll es) (Sited depth es) (parseOperands fuel depth es)

theorem heeds_requireDepth {depth : Nat} {site : SExpr} (within : depth ≤ Binary.maxNesting)
    (begins : site.begins = true) (rest : List SExpr) :
    Heeds (fun _ => depth < Binary.maxNesting) (Sited depth (site :: rest)) (requireDepth depth site) := by
  unfold requireDepth
  split
  · next full =>
    intro n same
    cases same
    refine ⟨rfl, site, ?_, rfl⟩
    rw [Nat.le_antisymm full within]
    exact .here begins
  · next below => exact heeds_ok (Nat.lt_of_not_le below)

/-- An opening word begins a construct. -/
theorem begins_of_keyword {e : SExpr} {word : String} (keyword : e.keyword? = some word)
    (isBlock : isBlockWord word = true) : e.begins = true := by
  simp [SExpr.begins, keyword, isBlock]

/-- What stands between the word of a block and the end of the block leaves open what was open. -/
theorem calmTo_of_closed {e close : SExpr} {word : String} {i final : Items} {after : List SExpr}
    {span span' : Span} (keyword : e.keyword? = some word) (isBlock : isBlockWord word = true)
    (inside : CalmTo i ⟨close :: after, span'⟩) (closes : close.keyword? = some "end")
    (rest : CalmTo ⟨after, span⟩ final) : CalmTo ⟨e :: i.rest, i.span⟩ final := by
  obtain ⟨xs, split, calm⟩ := inside
  obtain ⟨ys, split', calm'⟩ := rest
  refine ⟨e :: (xs ++ close :: ys), ?_, fun n => ?_⟩
  · have split' : after = ys ++ final.rest := split'
    show e :: i.rest = _
    rw [split, split', List.cons_append, List.append_assoc, List.cons_append]
  · rw [SExpr.openAfterAll, openAfter_of_blockWord keyword isBlock, openAfterAll_append, calm,
      SExpr.openAfterAll, openAfter_of_end closes]
    exact calm' n

theorem heeding_zero : Heeding 0 where
  sequence _ _ _ _ := by
    rw [parseSequence]
    exact heedsM_error rfl
  plain _ _ _ _ _ _ _ := by
    rw [parsePlain]
    exact heedsM_error rfl
  folded _ _ _ := by
    rw [parseFolded]
    exact heedsM_error rfl
  arms _ _ _ _ _ := by
    rw [parseArms]
    exact heedsM_error rfl
  operands _ _ _ := by
    rw [parseOperands]
    exact heedsM_error rfl

section Step

variable {fuel : Nat} (ih : Heeding fuel) {depth : Nat} (within : depth ≤ Binary.maxNesting)
include ih within

theorem heeds_parseSequence (stops : List String) (i : Items) :
    HeedsM (fun r : List Node × Option String × Items =>
        ∃ tail, CalmTo i ⟨tail, i.span⟩ ∧ StopsAt stops tail r.2.1 r.2.2.rest)
      (Sited depth i.rest) (parseSequence (fuel + 1) depth stops i) := by
  obtain ⟨items, span⟩ := i
  rw [parseSequence]
  cases items with
  | nil => exact heedsM_pure ⟨[], .refl _, .finish⟩
  | cons e rest =>
    dsimp only
    split
    · refine ((ih.folded depth e within).move fun _ sited => sited.append rest).bind fun _ calm => ?_
      have passed : CalmTo ⟨e :: rest, span⟩ ⟨rest, span⟩ := calmTo_of_cons rfl calm
      refine ((ih.sequence depth stops _ within).move fun _ sited => sited.past passed).bind
        fun r others => ?_
      obtain ⟨tail, calm', stop⟩ := others
      exact heedsM_pure ⟨tail, passed.trans calm', stop⟩
    · cases keyword : e.keyword? with
      | none => exact heedsM_lift (heeds_unexpected _ _)
      | some word =>
        dsimp only
        split
        · next listed =>
          exact heedsM_pure ⟨e :: rest, .refl _, .word keyword (by simpa using listed)⟩
        · split
          · exact heedsM_lift (heeds_unexpected _ _)
          · next going =>
            have going : word ≠ "end" ∧ word ≠ "else" := by simpa using going
            refine (ih.plain depth word e ⟨rest, span⟩ within keyword going.1).bind fun r passed => ?_
            refine ((ih.sequence depth stops r.2 within).move fun _ sited => sited.past passed).bind
              fun r' others => ?_
            obtain ⟨tail, calm', stop⟩ := others
            exact heedsM_pure ⟨tail, passed.trans calm', stop⟩

omit within in
/-- A block that is closed by `end`. -/
theorem heeds_flatBlock {e : SExpr} {word : String} (keyword : e.keyword? = some word)
    (isBlock : isBlockWord word = true) (below : depth < Binary.maxNesting) {i inner : Items}
    (passed : CalmTo i inner) {α : Type} {make : List Node → α} :
    HeedsM (fun r : α × Items => CalmTo ⟨e :: i.rest, i.span⟩ r.2) (Sited depth (e :: i.rest)) (do
      let (body, stop, items) ← parseSequence fuel (depth + 1) ["end"] inner
      if stop.isNone then throw ⟨.missingEnd word, e.span⟩
      return (make body, items.takeId.2)) := by
  refine ((ih.sequence (depth + 1) ["end"] inner below).move fun _ sited =>
    Sited.within keyword isBlock (sited.past passed)).bind fun r holds => ?_
  obtain ⟨body, stop?, after, span⟩ := r
  obtain ⟨tail, calm, stop⟩ := holds
  dsimp only at stop ⊢
  cases stop with
  | finish =>
    refine HeedsM.bind (p := fun _ => False) ?_ fun _ => False.elim
    exact heedsM_throw rfl
  | word closes listed =>
    obtain rfl := List.mem_singleton.1 listed
    exact heedsM_pure (calmTo_of_closed keyword isBlock (passed.trans calm) closes (calmTo_takeId _))

theorem heeds_parsePlain {word : String} {e : SExpr} (i : Items) (keyword : e.keyword? = some word)
    (notEnd : word ≠ "end") :
    HeedsM (fun r : Node × Items => CalmTo ⟨e :: i.rest, i.span⟩ r.2) (Sited depth (e :: i.rest))
      (parsePlain (fuel + 1) depth word e i) := by
  rw [parsePlain]
  split
  · next isIf =>
    obtain rfl := beq_iff_eq.1 isIf
    have isBlock : isBlockWord "if" = true := by decide
    have opens := heeds_requireDepth within (begins_of_keyword keyword isBlock) i.rest
    refine (heedsM_lift opens).bind fun _ below => ?_
    refine (heedsM_nameOrFresh i _).bind fun r label => ?_
    refine (heedsM_lift (heeds_parseBlockResult r.2)).bind fun r' result => ?_
    have header := label.trans result
    refine ((ih.sequence (depth + 1) ["else", "end"] r'.2 below).move fun _ sited =>
      Sited.within keyword isBlock (sited.past header)).bind fun q holds => ?_
    obtain ⟨consequent, stop?, after, span⟩ := q
    obtain ⟨tail, calm, stop⟩ := holds
    dsimp only at stop ⊢
    cases stop with
    | finish => exact heedsM_throw rfl
    | @word middle word _ keyword' listed =>
      obtain rfl | rfl : word = "else" ∨ word = "end" := by simpa using listed
      · have divides : CalmTo ⟨middle :: after, span⟩ ⟨after, span⟩ :=
          calmTo_of_cons rfl (calm_of_keyword keyword' (by decide))
        have passed := header.trans (calm.trans (divides.trans (calmTo_takeId _)))
        exact heeds_flatBlock ih keyword isBlock below passed
      · exact heedsM_pure
          (calmTo_of_closed keyword isBlock (header.trans calm) keyword' (calmTo_takeId ⟨after, span⟩))
  · split
    · next isBlock =>
      have opens := heeds_requireDepth within (begins_of_keyword keyword isBlock) i.rest
      refine (heedsM_lift opens).bind fun _ below => ?_
      refine (heedsM_nameOrFresh i _).bind fun r label => ?_
      refine (heedsM_lift (heeds_parseBlockResult r.2)).bind fun r' result => ?_
      exact heeds_flatBlock ih keyword isBlock below (label.trans result)
    · next notBlock =>
      have calm : Calm e := calm_of_keyword keyword ⟨by simpa using notBlock, notEnd⟩
      refine heedsM_lift ((heeds_parseOp word e i).mono fun r passed => ?_)
      have first : CalmTo ⟨e :: i.rest, i.span⟩ i := calmTo_of_cons rfl calm
      exact first.trans passed

/-- A list of instructions that nothing ends early. -/
theorem heeds_all (i : Items) : HeedsM (fun _ => CalmAll i.rest) (Sited depth i.rest)
    (parseSequence fuel depth [] i) := by
  refine (ih.sequence depth [] i within).mono fun r holds => ?_
  obtain ⟨tail, calm, stop⟩ := holds
  generalize r.2.1 = stop?, r.2.2.rest = after at stop
  cases stop with
  | finish => exact calm.all calmAll_nil
  | word _ listed => cases listed

theorem heeds_parseFolded (e : SExpr) :
    HeedsM (fun _ => Calm e) (Sited depth [e]) (parseFolded (fuel + 1) depth e) := by
  rw [parseFolded]
  cases head : e.head? with
  | none => exact heedsM_lift (heeds_unexpected _ _)
  | some word =>
    obtain ⟨span, first, items, rfl, keyword, here⟩ := exists_of_head? head
    -- what is among the items after the head of a block is inside of the block
    have enter (isBlock : isBlockWord word = true) (place : Span) (sited : Sited (depth + 1) items place) :
        Sited depth [.list span (first :: items)] place :=
      (sited.within keyword isBlock).inList
    dsimp only
    rw [here]
    split
    · next isIf =>
      obtain rfl := beq_iff_eq.1 isIf
      have isBlock : isBlockWord "if" = true := by decide
      have begins : (SExpr.list span (first :: items)).begins = true :=
        (begins_of_head keyword).trans isBlock
      refine (heedsM_lift (heeds_requireDepth within begins [])).bind fun _ below => ?_
      refine (heedsM_nameOrFresh _ _).bind fun r label => ?_
      refine (heedsM_lift (heeds_parseBlockResult r.2)).bind fun r' result => ?_
      have header := label.trans result
      refine ((ih.arms (depth + 1) r'.2.rest [] [] below).move fun place sited =>
        enter isBlock place (sited.past header)).bind fun q calm => ?_
      exact heedsM_pure (calm_list_of_blockWord keyword isBlock (header.all calm))
    · split
      · next isBlock =>
        have begins : (SExpr.list span (first :: items)).begins = true :=
          (begins_of_head keyword).trans isBlock
        refine (heedsM_lift (heeds_requireDepth within begins [])).bind fun _ below => ?_
        refine (heedsM_nameOrFresh _ _).bind fun r label => ?_
        refine (heedsM_lift (heeds_parseBlockResult r.2)).bind fun r' result => ?_
        have header := label.trans result
        refine ((heeds_all ih below r'.2).move fun place sited =>
          enter isBlock place (sited.past header)).bind fun q calm => ?_
        exact heedsM_pure (calm_list_of_blockWord keyword isBlock (header.all calm))
      · next notBlock =>
        split
        · exact heedsM_lift (heeds_unexpected _ _)
        · next going =>
          have going : (word ≠ "then" ∧ word ≠ "else") ∧ word ≠ "end" := by simpa using going
          have neutral : Neutral word := ⟨by simpa using notBlock, going.2⟩
          refine (heedsM_lift (heeds_parseOp _ _ _)).bind fun r immediates => ?_
          have first_ := (calm_of_keyword keyword neutral).cons calmAll_nil
          refine ((ih.operands depth r.2.rest within).move fun place sited =>
            ((sited.past immediates).beyond first_).inList).bind fun nodes calm => ?_
          exact heedsM_pure (calm_list keyword neutral (immediates.all calm))

theorem heeds_parseOperands (es : List SExpr) :
    HeedsM (fun _ => CalmAll es) (Sited depth es) (parseOperands (fuel + 1) depth es) := by
  cases es with
  | nil =>
    rw [parseOperands]
    exact heedsM_pure calmAll_nil
  | cons e rest =>
    rw [parseOperands]
    split
    · refine ((ih.folded depth e within).move fun _ sited => sited.append rest).bind fun _ calm => ?_
      refine ((ih.operands depth rest within).move fun _ sited =>
        sited.beyond (calm.cons calmAll_nil)).bind fun _ others => ?_
      exact heedsM_pure (calm.cons others)
    · exact heedsM_lift (heeds_unexpected _ _)

/-- An arm of a folded conditional. -/
theorem heeds_arm {e : SExpr} {word : String} (headed : e.isHeadedBy word = true) (neutral : Neutral word) :
    HeedsM (fun _ => Calm e) (Sited depth [e]) (parseSequence fuel depth [] (.ofExpr e)) :=
  ((heeds_all ih within _).move fun _ sited => sited.headed headed neutral).mono
    fun _ calm => calm_of_headed headed neutral calm

theorem heeds_parseArms (es : List SExpr) (consequent alternate : List Node) :
    HeedsM (fun _ => CalmAll es) (Sited depth es) (parseArms (fuel + 1) depth es consequent alternate) := by
  cases es with
  | nil =>
    rw [parseArms]
    exact heedsM_pure calmAll_nil
  | cons e rest =>
    have others (calm : Calm e) (consequent alternate : List Node) :
        HeedsM (fun _ => CalmAll (e :: rest)) (Sited depth (e :: rest))
          (parseArms fuel depth rest consequent alternate) :=
      ((ih.arms depth rest consequent alternate within).move fun _ sited =>
        sited.beyond (calm.cons calmAll_nil)).mono fun _ => calm.cons
    rw [parseArms]
    split
    · next headed =>
      have arm := heeds_arm ih within headed (by decide)
      exact (arm.move fun _ sited => sited.append rest).bind fun r calm => others calm r.1 alternate
    · split
      · next headed =>
        have arm := heeds_arm ih within headed (by decide)
        exact (arm.move fun _ sited => sited.append rest).bind fun r calm => others calm consequent r.1
      · split
        · refine ((ih.folded depth e within).move fun _ sited => sited.append rest).bind fun _ calm => ?_
          exact (others calm consequent alternate).bind fun r both => heedsM_pure both
        · exact heedsM_lift (heeds_unexpected _ _)

end Step

/-- The readers call each other with less fuel, so that they heed the limit under one fuel after the
other. -/
theorem heeding (fuel : Nat) : Heeding fuel := by
  induction fuel with
  | zero => exact heeding_zero
  | succ fuel ih =>
    constructor
    · intro depth stops i within
      exact heeds_parseSequence ih within stops i
    · intro depth word e i within keyword notEnd
      exact heeds_parsePlain ih within i keyword notEnd
    · intro depth e within
      exact heeds_parseFolded ih within e
    · intro depth es consequent alternate within
      exact heeds_parseArms ih within es consequent alternate
    · intro depth es within
      exact heeds_parseOperands ih within es

theorem heeds_parseBody (fuel : Nat) (i : Items) :
    HeedsM (fun _ => CalmAll i.rest) (Sited 0 i.rest) (parseBody fuel i) :=
  (heeds_all (heeding fuel) (Nat.zero_le _) i).bind fun _ calm => heedsM_pure calm

/-! ## Fields without instructions -/

section Fields

variable {place : Span → Prop} {e : SExpr}

theorem heeds_takeExports (i : Items) (kind : ExportKind) (id : Identifier) :
    Heeds (fun r => CalmTo i r.2) place (takeExports i kind id) := by
  unfold takeExports
  refine (heeds_takeLists i fun e headed => heeds_parseInlineExport headed).bind fun _ calm => ?_
  exact heeds_ok calm

theorem heeds_parseType (headed : e.isHeadedBy "type" = true) :
    Heeds (fun _ => Calm e) place (parseType e) := by
  have id := calmTo_takeId (Items.ofExpr e)
  unfold parseType
  dsimp only
  obtain ⟨none_, -⟩ | ⟨func, rest, here, headed', some_⟩ := takeList_cases (Items.ofExpr e).takeId.2 "func"
  · rw [none_]
    exact heeds_error rfl
  · rw [some_]
    refine (heeds_expectEnd _ _).bind fun _ ends => ?_
    refine (heeds_parseSignature _).bind fun r signature => ?_
    refine (heeds_expectEnd r.2 _).bind fun _ ends' => ?_
    have only := calm_of_single headed' (by decide) signature ends'
    exact heeds_ok (calm_of_single headed (by decide) (id.trans (calmTo_of_cons here only)) ends)

theorem heeds_parseImportDescr (module name : String) (descr : SExpr) :
    Heeds (fun r => CalmTo (Items.ofExpr descr) r.2.2 ∧ ∃ word, descr.isHeadedBy word = true ∧ Neutral word)
      place (parseImportDescr module name descr) := by
  have id := calmTo_takeId (Items.ofExpr descr)
  unfold parseImportDescr
  dsimp only
  split
  · next head =>
    refine (heeds_parseTypeUse _).bind fun r type => ?_
    exact heeds_ok ⟨id.trans type, _, beq_iff_eq.2 head, by decide⟩
  · next head =>
    refine (heeds_parseGlobalType _).bind fun r type => ?_
    exact heeds_ok ⟨id.trans type, _, beq_iff_eq.2 head, by decide⟩
  · next head =>
    refine (heeds_parseLimits _).bind fun r limits => ?_
    exact heeds_ok ⟨id.trans limits, _, beq_iff_eq.2 head, by decide⟩
  · next head =>
    refine (heeds_parseLimits _).bind fun r limits => ?_
    refine (heeds_parseElementType r.2).bind fun r' element => ?_
    exact heeds_ok ⟨id.trans (limits.trans element), _, beq_iff_eq.2 head, by decide⟩
  · exact heeds_unexpected _ _

theorem heeds_parseImport (headed : e.isHeadedBy "import" = true) :
    Heeds (fun _ => Calm e) place (parseImport e) := by
  unfold parseImport
  refine (heeds_expectString _ _).bind fun r module => ?_
  refine (heeds_expectString r.2 _).bind fun r' name => ?_
  obtain ⟨name', rest, span⟩ := r'
  cases rest with
  | nil => exact heeds_error rfl
  | cons descr rest =>
    refine (heeds_expectEnd _ _).bind fun _ ends => ?_
    refine (heeds_parseImportDescr _ _ descr).bind fun r inner => ?_
    obtain ⟨passed, word, headed', neutral⟩ := inner
    refine (heeds_expectEnd r.2.2 _).bind fun _ ends' => ?_
    have last : CalmTo ⟨descr :: rest, span⟩ ⟨rest, span⟩ :=
      calmTo_of_cons rfl (calm_of_single headed' neutral passed ends')
    exact heeds_ok (calm_of_single headed (by decide) (module.trans (name.trans last)) ends)

theorem neutral_of_ofKeyword? {word : String} {kind : ExportKind}
    (known : ExportKind.ofKeyword? word = some kind) : Neutral word := by
  have same := List.find?_some known
  rw [← beq_iff_eq.1 same]
  cases kind <;> decide

theorem heeds_parseExport (headed : e.isHeadedBy "export" = true) :
    Heeds (fun _ => Calm e) place (parseExport e) := by
  unfold parseExport
  refine (heeds_expectString _ _).bind fun r name => ?_
  obtain ⟨name', rest, span⟩ := r
  cases rest with
  | nil => exact heeds_error rfl
  | cons descr rest =>
    refine (heeds_expectEnd _ _).bind fun _ ends => ?_
    split
    · exact heeds_error rfl
    · next kind known =>
      obtain ⟨word, head, known⟩ := Option.bind_eq_some_iff.1 known
      have neutral := neutral_of_ofKeyword? known
      obtain ⟨span', first, items, rfl, keyword, inner⟩ := exists_of_head? head
      rw [inner]
      cases items with
      | nil => exact heeds_error rfl
      | cons index items =>
        refine (heeds_parseIndex index).bind fun _ calm => ?_
        refine (heeds_expectEnd _ _).bind fun _ ends' => ?_
        have only : CalmTo ⟨index :: items, span'⟩ ⟨items, span'⟩ := calmTo_of_cons rfl calm
        have inside : CalmAll (index :: items) := only.all (ends' ▸ calmAll_nil)
        have last : CalmTo ⟨.list span' (first :: index :: items) :: rest, span⟩ ⟨rest, span⟩ :=
          calmTo_of_cons rfl (calm_list keyword neutral inside)
        exact heeds_ok (calm_of_single headed (by decide) (name.trans last) ends)

theorem heeds_parseStart (headed : e.isHeadedBy "start" = true) :
    Heeds (fun _ => Calm e) place (parseStart e) := by
  obtain ⟨span, first, items, rfl, keyword, here⟩ := exists_of_head? (beq_iff_eq.1 headed)
  unfold parseStart
  rw [here]
  cases items with
  | nil => exact heeds_error rfl
  | cons index items =>
    refine (heeds_parseIndex index).bind fun _ calm => ?_
    refine (heeds_expectEnd _ _).bind fun _ ends => ?_
    have only : CalmTo ⟨index :: items, span⟩ ⟨items, span⟩ := calmTo_of_cons rfl calm
    exact heeds_ok (calm_list keyword (by decide) (only.all (ends ▸ calmAll_nil)))

theorem heeds_parseDataStrings (es : List SExpr) :
    Heeds (fun _ => CalmAll es) place (parseDataStrings es) := by
  unfold parseDataStrings
  refine (heeds_mapM fun e _ => ?_).bind fun _ calm => heeds_ok calm
  split
  · next text => exact heeds_ok (calm_of_string text)
  · exact heeds_unexpected _ _

theorem heeds_takeElements (i : Items) : Heeds (fun r => CalmTo i r.2) place (takeElements i) := by
  unfold takeElements
  obtain ⟨none_, -⟩ | ⟨form, rest, here, headed, some_⟩ := takeList_cases i "elem"
  · rw [none_]
    exact heeds_ok (.refl i)
  · rw [some_]
    refine (heeds_mapM fun e _ => heeds_parseIndex e).bind fun _ calm => ?_
    exact heeds_ok (calmTo_of_cons here (calm_of_headed headed (by decide) calm))

/-! ## Definitions -/

/-- The name of a definition, the exports and the import inside it leave open what was open. -/
theorem heedsM_readImportable {p : List Node → Prop} (stem : String) (kind : ExportKind)
    {imported : Identifier → List Node → String × String → Items → ParseM (List Node)}
    {defined : Identifier → List Node → Items → ParseM (List Node)}
    (imports : ∀ name exports origin i, CalmTo (Items.ofExpr e) i → HeedsM p place (imported name exports origin i))
    (defines : ∀ name exports i, CalmTo (Items.ofExpr e) i → HeedsM p place (defined name exports i)) :
    HeedsM p place (readImportable stem kind imported defined e) := by
  unfold readImportable
  refine (heedsM_nameOrFresh _ _).bind fun r name => ?_
  refine (heedsM_lift (heeds_takeExports r.2 _ _)).bind fun r' exports => ?_
  have passed := name.trans exports
  obtain ⟨exported, items⟩ := r'
  dsimp only at passed ⊢
  obtain ⟨none_, -⟩ | ⟨form, rest, here, headed, some_⟩ := takeList_cases items "import"
  · rw [none_]
    exact defines _ _ items passed
  · rw [some_]
    refine (heedsM_lift (heeds_parseInlineImport headed)).bind fun origin calm => ?_
    have inline : CalmTo items ⟨rest, items.span⟩ := calmTo_of_cons here calm
    exact imports _ _ origin _ (passed.trans inline)

theorem heeds_parseTable (headed : e.isHeadedBy "table" = true) :
    HeedsM (fun _ => Calm e) place (parseTable e) := by
  rw [parseTable_eq_readImportable]
  refine heedsM_readImportable _ _ (fun name exports origin i passed => ?_) fun name exports i passed => ?_
  · refine (heedsM_lift (heeds_parseLimits i)).bind fun q limits => ?_
    refine (heedsM_lift (heeds_parseElementType q.2)).bind fun q' element => ?_
    refine (heedsM_lift (heeds_expectEnd _ _)).bind fun _ ends => ?_
    exact heedsM_pure (calm_of_single headed (by decide) (passed.trans (limits.trans element)) ends)
  · unfold definedTable
    split
    · refine (heedsM_lift (heeds_parseLimits i)).bind fun q limits => ?_
      refine (heedsM_lift (heeds_parseElementType q.2)).bind fun q' element => ?_
      refine (heedsM_lift (heeds_expectEnd _ _)).bind fun _ ends => ?_
      exact heedsM_pure (calm_of_single headed (by decide) (passed.trans (limits.trans element)) ends)
    · refine (heedsM_lift (heeds_parseElementType i)).bind fun q element => ?_
      refine (heedsM_lift (heeds_takeElements q)).bind fun q' elements => ?_
      refine (heedsM_lift (heeds_expectEnd _ _)).bind fun _ ends => ?_
      exact heedsM_pure (calm_of_single headed (by decide) (passed.trans (element.trans elements)) ends)

theorem heeds_parseMemory (headed : e.isHeadedBy "memory" = true) :
    HeedsM (fun _ => Calm e) place (parseMemory e) := by
  rw [parseMemory_eq_readImportable]
  refine heedsM_readImportable _ _ (fun name exports origin i passed => ?_) fun name exports i passed => ?_
  · refine (heedsM_lift (heeds_parseLimits i)).bind fun q limits => ?_
    refine (heedsM_lift (heeds_expectEnd _ _)).bind fun _ ends => ?_
    exact heedsM_pure (calm_of_single headed (by decide) (passed.trans limits) ends)
  · unfold definedMemory
    obtain ⟨none_, -⟩ | ⟨form, rest, here, headed', some_⟩ := takeList_cases i "data"
    · rw [none_]
      refine (heedsM_lift (heeds_parseLimits i)).bind fun q limits => ?_
      refine (heedsM_lift (heeds_expectEnd _ _)).bind fun _ ends => ?_
      exact heedsM_pure (calm_of_single headed (by decide) (passed.trans limits) ends)
    · rw [some_]
      refine (heedsM_lift (heeds_expectEnd _ _)).bind fun _ ends => ?_
      refine (heedsM_lift (heeds_parseDataStrings _)).bind fun _ strings => ?_
      have inline : CalmTo i ⟨rest, i.span⟩ := calmTo_of_cons here (calm_of_headed headed' (by decide) strings)
      exact heedsM_pure (calm_of_single headed (by decide) (passed.trans inline) ends)

variable {fuel : Nat}

/-- What is left of a field is a body. -/
theorem heeds_body {word : String} (headed : e.isHeadedBy word = true) (neutral : Neutral word)
    {i : Items} (passed : CalmTo (Items.ofExpr e) i) :
    HeedsM (fun _ => Calm e) (Sited 0 [e]) (parseBody fuel i) :=
  ((heeds_parseBody fuel i).move fun _ sited => (sited.past passed).headed headed neutral).mono
    fun _ calm => calm_of_headed headed neutral (passed.all calm)

theorem heeds_parseFunc (headed : e.isHeadedBy "func" = true) :
    HeedsM (fun _ => Calm e) (Sited 0 [e]) (parseFunc fuel e) := by
  rw [parseFunc_eq_readImportable]
  refine heedsM_readImportable _ _ (fun name exports origin i passed => ?_) fun name exports i passed => ?_
  · refine (heedsM_lift (heeds_parseTypeUse i)).bind fun q type => ?_
    refine (heedsM_lift (heeds_expectEnd _ _)).bind fun _ ends => ?_
    exact heedsM_pure (calm_of_single headed (by decide) (passed.trans type) ends)
  · refine (heedsM_lift (heeds_parseTypeUse i)).bind fun q type => ?_
    dsimp only
    rw [lift_mapM]
    refine (heedsM_lift (heeds_takeLists q.2 fun e headed => heeds_parseParams headed (by decide))).bind
      fun _ locals => ?_
    refine (heeds_body headed (by decide) (passed.trans (type.trans locals))).bind fun _ calm => ?_
    exact heedsM_pure calm

theorem heeds_parseGlobal (headed : e.isHeadedBy "global" = true) :
    HeedsM (fun _ => Calm e) (Sited 0 [e]) (parseGlobal fuel e) := by
  rw [parseGlobal_eq_readImportable]
  refine heedsM_readImportable _ _ (fun name exports origin i passed => ?_) fun name exports i passed => ?_
  · refine (heedsM_lift (heeds_parseGlobalType i)).bind fun q type => ?_
    refine (heedsM_lift (heeds_expectEnd _ _)).bind fun _ ends => ?_
    exact heedsM_pure (calm_of_single headed (by decide) (passed.trans type) ends)
  · refine (heedsM_lift (heeds_parseGlobalType i)).bind fun q type => ?_
    refine (heeds_body headed (by decide) (passed.trans type)).bind fun _ calm => ?_
    exact heedsM_pure calm

/-! ## Segments -/

theorem heeds_parseOffset (i : Items) (context : String) :
    HeedsM (fun r => CalmTo i r.2) (Sited 0 i.rest) (parseOffset fuel i context) := by
  unfold parseOffset
  obtain ⟨none_, -⟩ | ⟨form, rest, here, headed, some_⟩ := takeList_cases i "offset"
  · rw [none_]
    obtain ⟨rest, span⟩ := i
    cases rest with
    | nil => exact heedsM_throw rfl
    | cons e rest =>
      dsimp only [Items.next]
      split
      · refine (((heeding fuel).folded 0 e (Nat.zero_le _)).move fun _ sited => sited.append rest).bind
          fun _ calm => ?_
        exact heedsM_pure (calmTo_of_cons rfl calm)
      · exact heedsM_lift (heeds_unexpected _ _)
  · rw [some_]
    refine ((heeds_body headed (by decide) (.refl _)).move fun _ sited => ?_).bind fun _ calm => ?_
    · rw [here]
      exact sited.append rest
    · exact heedsM_pure (calmTo_of_cons here calm)

theorem heeds_parseData (headed : e.isHeadedBy "data" = true) :
    HeedsM (fun _ => Calm e) (Sited 0 [e]) (parseData fuel e) := by
  unfold parseData
  refine (heedsM_lift (heeds_parseOptionalIndex _)).bind fun r target => ?_
  refine ((heeds_parseOffset r.2 "data").move fun _ sited =>
    (sited.past target).headed headed (by decide)).bind fun r' offset => ?_
  refine (heedsM_lift (heeds_parseDataStrings _)).bind fun _ strings => ?_
  exact heedsM_pure (calm_of_headed headed (by decide) ((target.trans offset).all strings))

theorem heeds_parseElem (headed : e.isHeadedBy "elem" = true) :
    HeedsM (fun _ => Calm e) (Sited 0 [e]) (parseElem fuel e) := by
  unfold parseElem
  refine (heedsM_lift (heeds_parseOptionalIndex _)).bind fun r target => ?_
  refine ((heeds_parseOffset r.2 "elem").move fun _ sited =>
    (sited.past target).headed headed (by decide)).bind fun r' offset => ?_
  obtain ⟨nodes, items⟩ := r'
  dsimp only at offset ⊢
  rw [lift_mapM]
  refine (heedsM_lift (heeds_mapM fun e _ => heeds_parseIndex e)).bind fun _ funcs => ?_
  exact heedsM_pure (calm_of_headed headed (by decide) ((target.trans offset).all funcs))

/-! ## Modules -/

theorem heeds_parseField (fuel : Nat) (e : SExpr) :
    HeedsM (fun _ => Calm e) (Sited 0 [e]) (parseField fuel e) := by
  unfold parseField
  split
  · next head => exact heedsM_lift (heeds_parseType (beq_iff_eq.2 head))
  · next head => exact heedsM_lift (heeds_parseImport (beq_iff_eq.2 head))
  · next head => exact heedsM_lift (heeds_parseExport (beq_iff_eq.2 head))
  · next head => exact heeds_parseFunc (beq_iff_eq.2 head)
  · next head => exact heeds_parseGlobal (beq_iff_eq.2 head)
  · next head => exact heeds_parseMemory (beq_iff_eq.2 head)
  · next head => exact heeds_parseTable (beq_iff_eq.2 head)
  · next head => exact heeds_parseData (beq_iff_eq.2 head)
  · next head => exact heeds_parseElem (beq_iff_eq.2 head)
  · next head => exact heedsM_lift (heeds_parseStart (beq_iff_eq.2 head))
  · exact heedsM_lift (heeds_unexpected _ _)

/-- After a field that is read, as many constructs are open as before it. -/
theorem calm_of_parseField {fuel : Nat} {e : SExpr} {names : NameGenerator} {r : List Node × NameGenerator}
    (read : parseField fuel e names = .ok r) : Calm e := by
  have heeds := heeds_parseField fuel e names
  rwa [read] at heeds

theorem heeds_parseFields (fuel : Nat) (es : List SExpr) :
    HeedsM (fun _ => ∀ e ∈ es, Calm e) (Sited 0 es) (parseFields fuel es) := by
  induction es with
  | nil => exact heedsM_pure fun _ => nofun
  | cons e es ih =>
    rw [parseFields]
    refine ((heeds_parseField fuel e).move fun _ sited => sited.append es).bind fun _ calm => ?_
    refine (ih.move fun _ sited => sited.beyond (calm.cons calmAll_nil)).bind fun _ others => ?_
    exact heedsM_pure (List.forall_mem_cons.2 ⟨calm, others⟩)

/-- The fields of a module in parentheses. -/
def SExpr.fields (e : SExpr) : List SExpr := (Items.ofExpr e).takeId.2.rest

theorem heeds_parseModule (fuel : Nat) (headed : e.isHeadedBy "module" = true) :
    HeedsM (fun _ => Calm e ∧ ∀ field ∈ e.fields, Calm field) (Sited 0 [e]) (parseModule fuel e) := by
  have id := calmTo_takeId (Items.ofExpr e)
  unfold parseModule
  refine ((heeds_parseFields fuel _).move fun _ sited =>
    (sited.past id).headed headed (by decide)).bind fun _ calm => ?_
  exact heedsM_pure ⟨calm_of_headed headed (by decide) (id.all (calmAll_of_forall calm)), calm⟩

theorem heeds_parseModules (fuel : Nat) {es : List SExpr} (headed : ∀ e ∈ es, e.isHeadedBy "module" = true) :
    HeedsM (fun _ => ∀ field ∈ es.flatMap SExpr.fields, Calm field) (Sited 0 es) (parseModules fuel es) := by
  induction es with
  | nil => exact heedsM_pure fun _ => nofun
  | cons e es ih =>
    obtain ⟨first, rest⟩ := List.forall_mem_cons.1 headed
    rw [parseModules]
    refine ((heeds_parseModule fuel first).move fun _ sited => sited.append es).bind fun _ holds => ?_
    refine ((ih rest).move fun _ sited => sited.beyond (holds.1.cons calmAll_nil)).bind fun _ others => ?_
    rw [List.flatMap_cons]
    exact heedsM_pure (List.forall_mem_append.2 ⟨holds.2, others⟩)

end Fields

/-! ## Sources -/

/-- The fields of the modules of a source, or of the one module whose fields it lists. -/
def sourceFields (tree : List SExpr) : List SExpr :=
  if tree.all (·.isHeadedBy "module") then tree.flatMap SExpr.fields else tree

theorem heeds_nest {place : Span → Prop} (tokens : List Token) :
    Heeds (fun _ => True) place (nest tokens) := by
  have read (n : Nesting) (t : Token) : Heeds (fun _ => True) place (n.read t) := by
    unfold Nesting.read
    split
    · split
      · exact heeds_error rfl
      · exact heeds_ok trivial
    · split
      · exact heeds_error rfl
      · exact heeds_ok trivial
    · exact heeds_ok trivial
  have all (n : Nesting) : Heeds (fun _ => True) place (n.readAll tokens) := by
    induction tokens generalizing n with
    | nil => exact heeds_ok trivial
    | cons t ts ih =>
      rw [Nesting.readAll_cons]
      exact (read n t).bind fun n _ => ih n
  refine (all .empty).bind fun n _ => ?_
  unfold Nesting.finish
  split
  · exact heeds_ok trivial
  · exact heeds_error rfl

theorem heeds_readAll {place : Span → Prop} (source : String) :
    Heeds (fun _ => True) place (readAll source) := by
  unfold readAll
  cases tokenise source with
  | error e => exact heeds_error rfl
  | ok tokens => exact heeds_nest tokens

theorem heeds_parse {source : String} {tree : List SExpr} (read : readAll source = .ok tree) :
    Heeds (fun _ => ∀ field ∈ sourceFields tree, Calm field) (Sited 0 tree) (parse source) := by
  have fields (fuel : Nat) : HeedsM (fun _ => ∀ field ∈ sourceFields tree, Calm field) (Sited 0 tree)
      (if tree.all (·.isHeadedBy "module") then return Program.mk (← parseModules fuel tree)
        else return Program.mk [.module none (← parseFields fuel tree) none]) := by
    unfold sourceFields
    split
    · next all =>
      have headed := List.all_eq_true.1 all
      exact (heeds_parseModules fuel headed).bind fun _ calm => heedsM_pure calm
    · exact (heeds_parseFields fuel tree).bind fun _ calm => heedsM_pure calm
  unfold parse
  rw [read]
  exact (fields _ _).bind fun _ calm => heeds_ok calm

/-- After each field of a source that is read, as many constructs are open as before it. -/
theorem calm_of_parse {source : String} {p : Program} (read : parse source = .ok p) :
    ∃ tree, readAll source = .ok tree ∧ ∀ field ∈ sourceFields tree, Calm field := by
  obtain ⟨tree, lists, -⟩ := bind_eq_ok_iff.1 read
  have heeds := heeds_parse lists
  rw [read] at heeds
  exact ⟨tree, lists, heeds⟩

/-- A construct is refused for its depth inside as many others as are allowed. -/
theorem sited_of_parse {source : String} {e : ParseError} {n : Nat} (fails : parse source = .error e)
    (deep : e.kind = .blocksTooDeep n) :
    n = Binary.maxNesting ∧ ∃ tree, readAll source = .ok tree ∧ Sited 0 tree e.span := by
  cases lists : readAll source with
  | error e' =>
    have heeds : Heeds (fun _ => True) (fun _ => False) (readAll source) := heeds_readAll source
    have same : e' = e := by
      unfold parse at fails
      rw [lists] at fails
      cases fails
      rfl
    rw [lists, same] at heeds
    exact (heeds n deep).2.elim
  | ok tree =>
    have heeds := heeds_parse lists
    rw [fails] at heeds
    obtain ⟨limit, sited⟩ := heeds n deep
    exact ⟨limit, tree, rfl, sited⟩

end WasmEngine.Wat
