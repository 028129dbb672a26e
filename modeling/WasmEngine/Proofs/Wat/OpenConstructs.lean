import WasmEngine.Proofs.Wat.Grammar
import WasmEngine.Wat.Parse

/-!
# Constructs that are open in a text

A word of a block opens a construct, `end` closes one, and a list closes what its head opened.  Readers of
what stands in front of instructions and beside them take expressions that leave open as many constructs as
before (`Calm`), and never refuse a construct for its depth (`Heeds`).
-/

namespace WasmEngine.Wat

open Outcome

/-! ## Counting -/

/-- Whether an expression begins a construct: the word of a block, or a list headed by one. -/
def SExpr.begins (e : SExpr) : Bool := e.keyword?.any isBlockWord || e.head?.any isBlockWord

mutual

/-- How many constructs are open after an expression, if so many are open before it. -/
def SExpr.openAfter : SExpr → Nat → Nat
  | .atom token, n =>
    match (SExpr.atom token).keyword? with
    | none => n
    | some word => if isBlockWord word then n + 1 else if word = "end" then n - 1 else n
  | .list span items, n =>
    let inside := openAfterAll items n
    if (SExpr.list span items).begins then inside - 1 else inside

/-- How many constructs are open after expressions in a row. -/
def SExpr.openAfterAll : List SExpr → Nat → Nat
  | [], n => n
  | e :: es, n => openAfterAll es (openAfter e n)

end

/-- A construct begins at `site`, which stands among expressions before which `n` constructs are open, and
`m` constructs are open around it. -/
inductive Opens : Nat → List SExpr → SExpr → Nat → Prop
  | here {n : Nat} {site : SExpr} {rest : List SExpr} (begins : site.begins = true) :
    Opens n (site :: rest) site n
  | inside {n m : Nat} {span : Span} {items rest : List SExpr} {site : SExpr}
    (within : Opens n items site m) : Opens n (.list span items :: rest) site m
  | later {n m : Nat} {e site : SExpr} {rest : List SExpr} (after : Opens (e.openAfter n) rest site m) :
    Opens n (e :: rest) site m

/-- An expression that leaves open as many constructs as before. -/
def Calm (e : SExpr) : Prop := ∀ n, e.openAfter n = n

/-- Expressions that leave open as many constructs as before. -/
def CalmAll (es : List SExpr) : Prop := ∀ n, SExpr.openAfterAll es n = n

/-- A word that neither opens nor closes a construct. -/
def Neutral (word : String) : Prop := isBlockWord word = false ∧ word ≠ "end"

instance (word : String) : Decidable (Neutral word) := inferInstanceAs (Decidable (_ ∧ _))

section Calm

variable {e : SExpr} {es es' : List SExpr} {word : String} {n m : Nat} {site : SExpr}

/-- Constructs are counted along a list. -/
theorem openAfterAll_append (es es' : List SExpr) (n : Nat) :
    SExpr.openAfterAll (es ++ es') n = SExpr.openAfterAll es' (SExpr.openAfterAll es n) := by
  induction es generalizing n with
  | nil => rfl
  | cons e es ih => exact ih (e.openAfter n)

theorem calmAll_nil : CalmAll [] := fun _ => rfl

/-- A calm expression in front keeps a list calm. -/
theorem Calm.cons (first : Calm e) (rest : CalmAll es) : CalmAll (e :: es) := by
  intro n
  rw [SExpr.openAfterAll, first]
  exact rest n

/-- Calm lists, in sequence, are calm. -/
theorem CalmAll.append (first : CalmAll es) (rest : CalmAll es') : CalmAll (es ++ es') := by
  intro n
  rw [openAfterAll_append, first]
  exact rest n

theorem calmAll_of_forall (each : ∀ e ∈ es, Calm e) : CalmAll es := by
  induction es with
  | nil => exact calmAll_nil
  | cons e es ih =>
    obtain ⟨first, rest⟩ := List.forall_mem_cons.1 each
    exact first.cons (ih rest)

/-- A word opens a construct, closes one or does neither. -/
theorem openAfter_of_keyword (keyword : e.keyword? = some word) (n : Nat) :
    e.openAfter n = if isBlockWord word then n + 1 else if word = "end" then n - 1 else n := by
  cases e with
  | atom token => simp only [SExpr.openAfter, keyword]
  | list => cases keyword

theorem openAfter_of_blockWord (keyword : e.keyword? = some word) (isBlock : isBlockWord word = true)
    (n : Nat) : e.openAfter n = n + 1 := by
  rw [openAfter_of_keyword keyword, if_pos isBlock]

theorem openAfter_of_end (keyword : e.keyword? = some "end") (n : Nat) : e.openAfter n = n - 1 := by
  rw [openAfter_of_keyword keyword, if_neg (by decide), if_pos rfl]

/-- A word that opens and closes nothing is calm. -/
theorem calm_of_keyword (keyword : e.keyword? = some word) (neutral : Neutral word) : Calm e := by
  intro n
  rw [openAfter_of_keyword keyword, if_neg (by simp [neutral.1]), if_neg neutral.2]

/-- A name, a number or a string opens and closes nothing. -/
theorem calm_of_wordless (atom : e.isList = false) (wordless : e.keyword? = none) : Calm e := by
  cases e with
  | atom token =>
    intro n
    simp only [SExpr.openAfter, wordless]
  | list => cases atom

theorem calm_of_id {name : String} (named : e.id? = some name) : Calm e := by
  refine calm_of_wordless (isList_of_id? named) ?_
  cases e with
  | atom token =>
    obtain ⟨kind, span⟩ := token
    cases kind <;> first | rfl | cases named
  | list => rfl

theorem calm_of_number {raw : String} (number : e.number? = some raw) : Calm e := by
  refine calm_of_wordless (isList_of_number? number) ?_
  cases e with
  | atom token =>
    obtain ⟨kind, span⟩ := token
    cases kind <;> first | rfl | cases number
  | list => rfl

theorem calm_of_string {bytes : List UInt8} (text : e.string? = some bytes) : Calm e := by
  cases e with
  | atom token =>
    obtain ⟨kind, span⟩ := token
    refine calm_of_wordless rfl ?_
    cases kind <;> first | rfl | cases text
  | list => cases text

theorem begins_of_head {span : Span} {first : SExpr} {items : List SExpr}
    (keyword : first.keyword? = some word) :
    (SExpr.list span (first :: items)).begins = isBlockWord word := by
  show (Option.any isBlockWord none || first.keyword?.any isBlockWord) = isBlockWord word
  rw [keyword]
  rfl

/-- A list under a neutral word is calm when its items are. -/
theorem calm_list {span : Span} {first : SExpr} {items : List SExpr}
    (keyword : first.keyword? = some word) (neutral : Neutral word) (inside : CalmAll items) :
    Calm (.list span (first :: items)) := by
  intro n
  have whole : CalmAll (first :: items) := (calm_of_keyword keyword neutral).cons inside
  rw [SExpr.openAfter, begins_of_head keyword, neutral.1]
  exact whole n

/-- The construct that a list begins is closed at the end of the list. -/
theorem calm_list_of_blockWord {span : Span} {first : SExpr} {items : List SExpr}
    (keyword : first.keyword? = some word) (isBlock : isBlockWord word = true) (inside : CalmAll items) :
    Calm (.list span (first :: items)) := by
  intro n
  rw [SExpr.openAfter, begins_of_head keyword, isBlock, SExpr.openAfterAll,
    openAfter_of_blockWord keyword isBlock, inside]
  rfl

/-- A list with a neutral head is calm when its items are. -/
theorem calm_of_headed (headed : e.isHeadedBy word = true) (neutral : Neutral word)
    (inside : CalmAll (Items.ofExpr e).rest) : Calm e := by
  obtain ⟨span, first, items, rfl, keyword, here⟩ := exists_of_head? (beq_iff_eq.1 headed)
  rw [here] at inside
  exact calm_list keyword neutral inside

/-- A place is opened at the same depth before further expressions. -/
theorem Opens.append (opens : Opens n es site m) (es' : List SExpr) : Opens n (es ++ es') site m := by
  induction opens with
  | here begins => exact .here begins
  | inside within => exact .inside within
  | later _ ih => exact .later ih

/-- A place in what follows is opened at the depth left by what stands before. -/
theorem Opens.afterAll (opens : Opens (SExpr.openAfterAll es n) es' site m) : Opens n (es ++ es') site m := by
  induction es generalizing n with
  | nil => exact opens
  | cons e es ih => exact .later (ih opens)

/-- A place behind calm expressions is opened at its own depth. -/
theorem Opens.after (calm : CalmAll es) (opens : Opens n es' site m) : Opens n (es ++ es') site m := by
  refine Opens.afterAll ?_
  rwa [calm]

end Calm

/-! ## Readers that open no construct -/

/-- Whether an error is that blocks are nested too deep. -/
def ParseErrorKind.isTooDeep : ParseErrorKind → Bool
  | blocksTooDeep _ => true
  | _ => false

/-- What a reader gives has a property, and a construct is refused for its depth only inside as many as are
allowed, at a place of which another property holds. -/
def Heeds {α : Type} (p : α → Prop) (place : Span → Prop) : Parsed α → Prop
  | .ok a => p a
  | .error e => ∀ n, e.kind = .blocksTooDeep n → n = Binary.maxNesting ∧ place e.span

/-- Items that are left after some that leave open as many constructs as before. -/
def CalmTo (i after : Items) : Prop := ∃ xs, i.rest = xs ++ after.rest ∧ CalmAll xs

section Heeds

variable {α β : Type} {p : α → Prop} {q : β → Prop} {place : Span → Prop}

theorem heeds_ok {a : α} (now : p a) : Heeds p place (.ok a) := now

theorem heeds_error {e : ParseError} (other : e.kind.isTooDeep = false) :
    Heeds p place (.error e : Parsed α) := by
  intro n same
  rw [same] at other
  cases other

/-- Readings in sequence heed the places of deep constructs when both parts do. -/
theorem Heeds.bind {r : Parsed α} {f : α → Parsed β} (first : Heeds p place r)
    (rest : ∀ a, p a → Heeds q place (f a)) : Heeds q place (r >>= f) := by
  cases r with
  | ok a => exact rest a first
  | error e => exact first

/-- A reading that heeds places gives whatever is weaker. -/
theorem Heeds.mono {p' : α → Prop} {r : Parsed α} (first : Heeds p place r) (weaker : ∀ a, p a → p' a) :
    Heeds p' place r := by
  cases r with
  | ok a => exact weaker a first
  | error e => exact first

theorem heeds_mapM {f : SExpr → Parsed β} {es : List SExpr}
    (each : ∀ e ∈ es, Heeds (fun _ => Calm e) place (f e)) :
    Heeds (fun _ => CalmAll es) place (es.mapM f) := by
  induction es with
  | nil => exact heeds_ok calmAll_nil
  | cons e es ih =>
    obtain ⟨first, rest⟩ := List.forall_mem_cons.1 each
    rw [List.mapM_cons]
    refine first.bind fun _ now => ?_
    refine (ih rest).bind fun _ others => ?_
    exact heeds_ok (now.cons others)

theorem heeds_unexpected (e : SExpr) (context : String) :
    Heeds p place (unexpected e context : Parsed α) :=
  heeds_error rfl

end Heeds

section CalmTo

variable {i mid after : Items} {e : SExpr}

theorem CalmTo.refl (i : Items) : CalmTo i i := ⟨[], rfl, calmAll_nil⟩

/-- Passing over calm items is transitive. -/
theorem CalmTo.trans (first : CalmTo i mid) (rest : CalmTo mid after) : CalmTo i after := by
  obtain ⟨xs, split, calm⟩ := first
  obtain ⟨ys, split', calm'⟩ := rest
  refine ⟨xs ++ ys, ?_, calm.append calm'⟩
  rw [split, split', List.append_assoc]

/-- Passing over a calm item passes over calm items. -/
theorem calmTo_of_cons (here : i.rest = e :: after.rest) (calm : Calm e) : CalmTo i after :=
  ⟨[e], here, calm.cons calmAll_nil⟩

/-- Nothing is left to open or close a construct. -/
theorem CalmTo.all (calm : CalmTo i after) (rest : CalmAll after.rest) : CalmAll i.rest := by
  obtain ⟨xs, split, before⟩ := calm
  rw [split]
  exact before.append rest

end CalmTo

/-! ## Single items -/

section Items

variable {place : Span → Prop} (i : Items) (e : SExpr)

theorem calmTo_takeId : CalmTo i i.takeId.2 := by
  obtain none_ | ⟨e, rest, name, here, named, some_⟩ := takeId_cases i
  · rw [none_]
    exact .refl i
  · rw [some_]
    exact calmTo_of_cons here (calm_of_id named)

/-- Lists that are calm are passed over. -/
theorem calmTo_takeLists {word : String} (each : CalmAll (i.takeLists word).1) :
    CalmTo i (i.takeLists word).2 :=
  ⟨_, List.takeWhile_append_dropWhile.symm, each⟩

theorem heeds_expectEnd (context : String) :
    Heeds (fun _ => i.rest = []) place (i.expectEnd context) := by
  unfold Items.expectEnd
  split
  · exact heeds_unexpected _ _
  · next none_ => exact heeds_ok none_

theorem heeds_expectString (context : String) :
    Heeds (fun r => CalmTo i r.2) place (i.expectString context) := by
  obtain ⟨rest, span⟩ := i
  unfold Items.expectString
  dsimp only
  split
  · exact heeds_error rfl
  · next bytes text =>
    obtain ⟨e, first, text⟩ := Option.bind_eq_some_iff.1 text
    cases rest with
    | nil => cases first
    | cons e' rest =>
      cases first
      split
      · exact heeds_ok (calmTo_of_cons rfl (calm_of_string text))
      · exact heeds_error rfl

theorem heeds_parseIndex : Heeds (fun _ => Calm e) place (parseIndex e) := by
  unfold parseIndex
  split
  · next named => exact heeds_ok (calm_of_id named)
  · next number =>
    split
    · exact heeds_ok (calm_of_number number)
    · exact heeds_unexpected _ _
  · exact heeds_unexpected _ _

theorem heeds_parseOptionalIndex : Heeds (fun r => CalmTo i r.2) place (parseOptionalIndex i) := by
  unfold parseOptionalIndex
  split
  · next e rest here =>
    split
    · exact (heeds_parseIndex e).bind fun _ calm => heeds_ok (calmTo_of_cons here calm)
    · exact heeds_ok (.refl i)
  · exact heeds_ok (.refl i)

theorem neutral_of_ofName? {word : String} {t : Valtype} (known : Valtype.ofName? word = some t) :
    Neutral word := by
  rw [name_of_ofName? known]
  cases t <;> decide

theorem heeds_parseValtype : Heeds (fun _ => Calm e) place (parseValtype e) := by
  unfold parseValtype
  split
  · next t known =>
    obtain ⟨word, keyword, known⟩ := Option.bind_eq_some_iff.1 known
    exact heeds_ok (calm_of_keyword keyword (neutral_of_ofName? known))
  · exact heeds_unexpected _ _

theorem heeds_parseLimits : Heeds (fun r => CalmTo i r.2) place (parseLimits i) := by
  obtain ⟨rest, span⟩ := i
  unfold parseLimits
  dsimp only
  split
  · exact heeds_error rfl
  · next min lower =>
    obtain ⟨raw, number, -⟩ := Option.bind_eq_some_iff.1 lower
    obtain ⟨e, first, number⟩ := Option.bind_eq_some_iff.1 number
    cases rest with
    | nil => cases first
    | cons e' rest =>
      cases first
      have lower : CalmTo ⟨e :: rest, span⟩ ⟨rest, span⟩ := calmTo_of_cons rfl (calm_of_number number)
      cases rest with
      | nil => exact heeds_ok lower
      | cons e' after =>
        dsimp only [Items.next]
        split
        · exact heeds_ok lower
        · next upper =>
          have more : CalmTo ⟨e' :: after, span⟩ ⟨after, span⟩ := calmTo_of_cons rfl (calm_of_number upper)
          split
          · exact heeds_ok (lower.trans more)
          · exact heeds_error rfl

theorem heeds_parseElementType : Heeds (CalmTo i) place (parseElementType i) := by
  obtain ⟨rest, span⟩ := i
  unfold parseElementType
  cases rest with
  | nil => exact heeds_error rfl
  | cons e rest =>
    dsimp only [Items.next]
    split
    · next known =>
      refine heeds_ok (calmTo_of_cons rfl ?_)
      rw [Bool.or_eq_true, beq_iff_eq, beq_iff_eq] at known
      obtain keyword | keyword := known
      · exact calm_of_keyword keyword (by decide)
      · exact calm_of_keyword keyword (by decide)
    · exact heeds_unexpected _ _

end Items

/-! ## Lists -/

section Lists

variable {place : Span → Prop} {e : SExpr} {word : String}

/-- The only item of a list. -/
theorem calm_of_single (headed : e.isHeadedBy word = true) (neutral : Neutral word) {after : Items}
    (only : CalmTo (Items.ofExpr e) after) (ends : after.rest = []) : Calm e :=
  calm_of_headed headed neutral (only.all (ends ▸ calmAll_nil))

theorem heeds_parseInlineExport (headed : e.isHeadedBy "export" = true) :
    Heeds (fun _ => Calm e) place (parseInlineExport e) := by
  unfold parseInlineExport
  refine (heeds_expectString _ _).bind fun r name => ?_
  refine (heeds_expectEnd r.2 _).bind fun _ ends => ?_
  exact heeds_ok (calm_of_single headed (by decide) name ends)

theorem heeds_parseInlineImport (headed : e.isHeadedBy "import" = true) :
    Heeds (fun _ => Calm e) place (parseInlineImport e) := by
  unfold parseInlineImport
  refine (heeds_expectString _ _).bind fun r module => ?_
  refine (heeds_expectString r.2 _).bind fun r' name => ?_
  refine (heeds_expectEnd r'.2 _).bind fun _ ends => ?_
  exact heeds_ok (calm_of_single headed (by decide) (module.trans name) ends)

theorem heeds_parseParams (headed : e.isHeadedBy word = true) (neutral : Neutral word) :
    Heeds (fun _ => Calm e) place (parseParams e) := by
  have calm := calmTo_takeId (Items.ofExpr e)
  unfold parseParams
  split
  · next name items taken =>
    obtain ⟨rest, span⟩ := items
    rw [taken] at calm
    cases rest with
    | nil => exact heeds_error rfl
    | cons t rest =>
      refine (heeds_parseValtype t).bind fun _ type => ?_
      refine (heeds_expectEnd _ _).bind fun _ ends => ?_
      have rest_ : CalmTo ⟨t :: rest, span⟩ ⟨rest, span⟩ := calmTo_of_cons rfl type
      exact heeds_ok (calm_of_single headed neutral (calm.trans rest_) ends)
  · next items taken =>
    rw [taken] at calm
    refine (heeds_mapM fun t _ => ?_).mono fun _ types => ?_
    · exact (heeds_parseValtype t).bind fun _ type => heeds_ok type
    · exact calm_of_headed headed neutral (calm.all types)

theorem heeds_parseResults (headed : e.isHeadedBy "result" = true) :
    Heeds (fun _ => Calm e) place (parseResults e) :=
  (heeds_mapM fun t _ => heeds_parseValtype t).mono fun _ types => calm_of_headed headed (by decide) types

/-- Lists in a row with the same head. -/
theorem heeds_takeLists {α : Type} (i : Items) {parse : SExpr → Parsed α}
    (each : ∀ e, e.isHeadedBy word = true → Heeds (fun _ => Calm e) place (parse e)) :
    Heeds (fun _ => CalmTo i (i.takeLists word).2) place ((i.takeLists word).1.mapM parse) :=
  (heeds_mapM fun e inside => each e (headed_takeWhile word i.rest e inside)).mono
    fun _ calm => calmTo_takeLists i calm

theorem heeds_parseSignature (i : Items) : Heeds (fun r => CalmTo i r.2) place (parseSignature i) := by
  unfold parseSignature
  refine (heeds_takeLists i fun e headed => heeds_parseParams headed (by decide)).bind fun _ params => ?_
  refine (heeds_takeLists (i.takeLists "param").2 fun e headed => heeds_parseResults headed).bind
    fun _ results => ?_
  exact heeds_ok (params.trans results)

theorem heeds_parseTypeRef (i : Items) : Heeds (fun r => CalmTo i r.2) place (parseTypeRef i) := by
  unfold parseTypeRef
  obtain ⟨none_, -⟩ | ⟨e, rest, here, headed, some_⟩ := takeList_cases i "type"
  · rw [none_]
    exact heeds_ok (.refl i)
  · rw [some_]
    dsimp only
    obtain ⟨span, first, items, rfl, -, inner⟩ := exists_of_head? (beq_iff_eq.1 headed)
    rw [inner]
    cases items with
    | nil => exact heeds_error rfl
    | cons index items =>
      refine (heeds_parseIndex index).bind fun _ calm => ?_
      refine (heeds_expectEnd _ _).bind fun _ ends => ?_
      refine heeds_ok (calmTo_of_cons here (calm_of_single headed (by decide) ?_ ends))
      rw [inner]
      exact calmTo_of_cons rfl calm

theorem heeds_parseTypeUse (i : Items) : Heeds (fun r => CalmTo i r.2) place (parseTypeUse i) := by
  unfold parseTypeUse
  refine (heeds_parseTypeRef i).bind fun r type => ?_
  refine (heeds_parseSignature r.2).bind fun r' signature => ?_
  have both := type.trans signature
  dsimp only
  split
  · split
    · exact heeds_ok both
    · exact heeds_ok both
  · exact heeds_ok both

theorem heeds_parseBlockResult (i : Items) : Heeds (fun r => CalmTo i r.2) place (parseBlockResult i) := by
  unfold parseBlockResult
  obtain ⟨none_, -⟩ | ⟨e, rest, here, headed, some_⟩ := takeList_cases i "result"
  · rw [none_]
    exact heeds_ok (.refl i)
  · rw [some_]
    refine (heeds_parseResults headed).bind fun types calm => ?_
    have passed : CalmTo i ⟨rest, i.span⟩ := calmTo_of_cons here calm
    split
    · exact heeds_ok passed
    · exact heeds_ok passed
    · exact heeds_error rfl

theorem heeds_parseGlobalType (i : Items) : Heeds (fun r => CalmTo i r.2) place (parseGlobalType i) := by
  obtain ⟨rest, span⟩ := i
  unfold parseGlobalType
  cases rest with
  | nil => exact heeds_error rfl
  | cons e rest =>
    dsimp only [Items.next]
    split
    · next headed =>
      split
      · exact heeds_error rfl
      · next t inner taken =>
        refine (heeds_parseValtype t).bind fun _ calm => ?_
        refine (heeds_expectEnd _ _).bind fun _ ends => ?_
        refine heeds_ok (calmTo_of_cons rfl (calm_of_single headed (by decide) ?_ ends))
        split at taken
        · cases taken
        · next first others here =>
          cases taken
          exact calmTo_of_cons here calm
    · split
      · exact heeds_error rfl
      · exact (heeds_parseValtype e).bind fun _ calm => heeds_ok (calmTo_of_cons rfl calm)

end Lists

/-! ## Immediates -/

section Immediates

variable {place : Span → Prop}

theorem heeds_takeTargets (es : List SExpr) :
    Heeds (fun r => ∃ xs, es = xs ++ r.2 ∧ CalmAll xs) place (takeTargets es) := by
  induction es with
  | nil => exact heeds_ok ⟨[], rfl, calmAll_nil⟩
  | cons e es ih =>
    rw [takeTargets]
    split
    · refine (heeds_parseIndex e).bind fun _ first => ?_
      refine ih.bind fun r others => ?_
      obtain ⟨xs, rfl, calm⟩ := others
      exact heeds_ok ⟨e :: xs, rfl, first.cons calm⟩
    · exact heeds_ok ⟨[], rfl, calmAll_nil⟩

/-- A part of a memory argument is no word that opens or closes a construct. -/
theorem neutral_of_after? {start word value : String} (part : start = "offset=" ∨ start = "align=")
    (cut : Text.after? start word = some value) : Neutral word := by
  have others : ∀ other ∈ ["block", "loop", "if", "end"], Text.after? start other = none := by
    obtain rfl | rfl := part
    · decide
    · decide
  have differs (other : String) (listed : other ∈ ["block", "loop", "if", "end"]) : word ≠ other := by
    rintro rfl
    rw [others _ listed] at cut
    cases cut
  constructor
  · simp only [isBlockWord, Bool.or_eq_false_iff, beq_eq_false_iff_ne]
    exact ⟨⟨differs _ (by decide), differs _ (by decide)⟩, differs _ (by decide)⟩
  · exact differs _ (by decide)

theorem heeds_takeMemArg (m : MemArg) (es : List SExpr) :
    Heeds (fun r => ∃ xs, es = xs ++ r.2 ∧ CalmAll xs) place (takeMemArg m es) := by
  induction es generalizing m with
  | nil => exact heeds_ok ⟨[], rfl, calmAll_nil⟩
  | cons e es ih =>
    have none_ : Heeds (fun r : MemArg × List SExpr => ∃ xs, e :: es = xs ++ r.2 ∧ CalmAll xs) place
        (.ok (m, e :: es)) := heeds_ok ⟨[], rfl, calmAll_nil⟩
    have more (m' : MemArg) (calm : Calm e) :
        Heeds (fun r => ∃ xs, e :: es = xs ++ r.2 ∧ CalmAll xs) place (takeMemArg m' es) := by
      refine (ih m').mono fun r others => ?_
      obtain ⟨xs, rfl, rest⟩ := others
      exact ⟨e :: xs, rfl, calm.cons rest⟩
    unfold takeMemArg
    split
    · exact none_
    · next word keyword =>
      split
      · next value offset =>
        split
        · exact more _ (calm_of_keyword keyword (neutral_of_after? (.inl rfl) offset))
        · exact heeds_error rfl
      · next value align =>
        split
        · exact more _ (calm_of_keyword keyword (neutral_of_after? (.inr rfl) align))
        · exact heeds_error rfl
      · exact none_

theorem heeds_parseOp (word : String) (site : SExpr) (i : Items) :
    Heeds (fun r => CalmTo i r.2) place (parseOp word site i) := by
  obtain ⟨rest, span⟩ := i
  unfold parseOp
  split
  · exact heeds_error rfl
  · next op _ =>
    split
    · exact heeds_ok (.refl _)
    · exact heeds_ok (.refl _)
    · exact heeds_unexpected _ _
    · cases rest with
      | nil => exact heeds_error rfl
      | cons target rest =>
        refine (heeds_parseIndex target).bind fun _ calm => ?_
        have passed : CalmTo ⟨target :: rest, span⟩ ⟨rest, span⟩ := calmTo_of_cons rfl calm
        split
        · exact heeds_ok passed
        · exact heeds_ok passed
    · refine (heeds_takeTargets rest).bind fun r passed => ?_
      dsimp only
      split
      · exact heeds_error rfl
      · exact heeds_ok passed
    · exact (heeds_parseTypeUse _).bind fun r passed => heeds_ok passed
    · exact (heeds_takeMemArg _ rest).bind fun r passed => heeds_ok passed
    all_goals
      cases rest with
      | nil => exact heeds_error rfl
      | cons e rest =>
        dsimp only [Items.next]
        split
        · exact heeds_unexpected _ _
        · next raw number =>
          split
          · exact heeds_ok (calmTo_of_cons rfl (calm_of_number number))
          · exact heeds_error rfl

end Immediates

end WasmEngine.Wat
