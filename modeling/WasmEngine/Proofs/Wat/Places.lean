import WasmEngine.Wat.Parse
import WasmEngine.Proofs.Outcome

/-!
# Reading does not depend on places

Expressions that differ in their places only are read alike: the same is given of both, or both are refused for
the same reason (`Agrees`).  Places stand in errors and nowhere else.
-/

namespace WasmEngine.Wat

open Outcome

/-- Expressions with the same tokens, at whatever places. -/
inductive SExpr.Same : SExpr → SExpr → Prop
  | atom (kind : TokenKind) (span span' : Span) : Same (.atom ⟨kind, span⟩) (.atom ⟨kind, span'⟩)
  | list (span span' : Span) {items items' : List SExpr} (inside : List.Forall₂ Same items items') :
    Same (.list span items) (.list span' items')

namespace SExpr.Same

variable {e e' : SExpr}

theorem keyword? (same : Same e e') : e'.keyword? = e.keyword? := by
  cases same with
  | atom kind => cases kind <;> rfl
  | list => rfl

theorem id? (same : Same e e') : e'.id? = e.id? := by
  cases same with
  | atom kind => cases kind <;> rfl
  | list => rfl

theorem number? (same : Same e e') : e'.number? = e.number? := by
  cases same with
  | atom kind => cases kind <;> rfl
  | list => rfl

theorem string? (same : Same e e') : e'.string? = e.string? := by
  cases same with
  | atom kind => cases kind <;> rfl
  | list => rfl

theorem isList (same : Same e e') : e'.isList = e.isList := by cases same <;> rfl

theorem head? (same : Same e e') : e'.head? = e.head? := by
  cases same with
  | atom => rfl
  | list _ _ inside =>
    cases inside with
    | nil => rfl
    | cons first => exact first.keyword?

theorem isHeadedBy (same : Same e e') (word : String) : e'.isHeadedBy word = e.isHeadedBy word :=
  congrArg (· == some word) same.head?

theorem display (same : Same e e') : e'.display = e.display := by
  have head := same.head?
  cases same with
  | atom => rfl
  | list =>
    unfold SExpr.display
    dsimp only
    rw [head]

end SExpr.Same

/-- Whether all of them are headed by a word does not depend on places. -/
theorem all_isHeadedBy_of_same {es es' : List SExpr} (same : List.Forall₂ SExpr.Same es es') (word : String) :
    es'.all (·.isHeadedBy word) = es.all (·.isHeadedBy word) := by
  induction same with
  | nil => rfl
  | cons first _ ih => rw [List.all_cons, List.all_cons, first.isHeadedBy, ih]

/-- What goes with lists in a row is lists in a row. -/
theorem exists_append_of_forall₂ {α β : Type} {R : α → β → Prop} {xs ys : List α} {zs : List β}
    (each : List.Forall₂ R (xs ++ ys) zs) :
    ∃ xs' ys', zs = xs' ++ ys' ∧ List.Forall₂ R xs xs' ∧ List.Forall₂ R ys ys' := by
  induction xs generalizing zs with
  | nil => exact ⟨[], zs, rfl, .nil, each⟩
  | cons x xs ih =>
    cases each with
    | cons first rest =>
      obtain ⟨xs', ys', rfl, left, right⟩ := ih rest
      exact ⟨_ :: xs', ys', rfl, .cons first left, right⟩

/-- The items that are left are the same at whatever places. -/
def SameItems (i i' : Items) : Prop := List.Forall₂ SExpr.Same i.rest i'.rest

/-- Something and the items that are left after it. -/
def SameAfter {α : Type} (r r' : α × Items) : Prop := r.1 = r'.1 ∧ SameItems r.2 r'.2

/-- The items of an expression are the same at another place. -/
theorem sameItems_ofExpr {e e' : SExpr} (same : e.Same e') : SameItems (.ofExpr e) (.ofExpr e') := by
  have head := same.head?
  cases same with
  | atom => exact .nil
  | list span span' inside =>
    unfold Items.ofExpr SameItems
    dsimp only
    rw [head]
    split
    · cases inside with
      | nil => exact .nil
      | cons _ rest => exact rest
    · exact inside

section Follows

variable {α β γ δ : Type} {V : α → β → Prop} {W : γ → δ → Prop}

/-- If the first reading gives something, the second gives something that goes with it. -/
def Follows (V : α → β → Prop) (r : Parsed α) (r' : Parsed β) : Prop :=
  ∀ a, r = .ok a → ∃ b, r' = .ok b ∧ V a b

/-- Readings in sequence follow each other when both parts do. -/
theorem Follows.bind {r : Parsed α} {r' : Parsed β} {f : α → Parsed γ} {f' : β → Parsed δ}
    (first : Follows V r r') (rest : ∀ a b, V a b → Follows W (f a) (f' b)) :
    Follows W (r >>= f) (r' >>= f') := by
  intro c ends
  obtain ⟨a, here, there⟩ := bind_eq_ok_iff.1 ends
  obtain ⟨b, here', related⟩ := first a here
  obtain ⟨d, there', value⟩ := rest a b related c there
  exact ⟨d, bind_eq_ok_iff.2 ⟨b, here', there'⟩, value⟩

theorem follows_ok {a : α} {b : β} (value : V a b) : Follows V (.ok a) (.ok b) := by
  intro c ends
  cases ends
  exact ⟨b, rfl, value⟩

theorem follows_pure {a : α} {b : β} (value : V a b) : Follows V (pure a) (pure b) := follows_ok value

theorem follows_unexpected {e : SExpr} {context : String} {r : Parsed β} :
    Follows V (unexpected e context) r := nofun

theorem follows_mapM {es : List α} {es' : List β} {f : α → Parsed γ} {f' : β → Parsed γ}
    (each : List.Forall₂ V es es') (step : ∀ a b, V a b → Follows Eq (f a) (f' b)) :
    Follows Eq (es.mapM f) (es'.mapM f') := by
  induction each with
  | nil => exact follows_pure rfl
  | cons first _ ih =>
    rw [List.mapM_cons, List.mapM_cons]
    refine (step _ _ first).bind fun c d same => ih.bind fun cs ds sames => ?_
    exact follows_pure (congrArg₂ List.cons same sames)

end Follows

section Agrees

variable {α β γ δ : Type} {V : α → β → Prop} {W : γ → δ → Prop}

/-- Both readings give something, and what they give goes together, or both fail for the same reason. -/
inductive Agrees (V : α → β → Prop) : Parsed α → Parsed β → Prop
  | ok {a : α} {b : β} (value : V a b) : Agrees V (.ok a) (.ok b)
  | error {e e' : ParseError} (reason : e.kind = e'.kind) : Agrees V (.error e) (.error e')

/-- Readings in sequence agree when both parts do. -/
theorem Agrees.bind {r : Parsed α} {r' : Parsed β} {f : α → Parsed γ} {f' : β → Parsed δ}
    (first : Agrees V r r') (rest : ∀ a b, V a b → Agrees W (f a) (f' b)) :
    Agrees W (r >>= f) (r' >>= f') := by
  cases first with
  | ok value => exact rest _ _ value
  | error reason => exact .error reason

theorem agrees_pure {a : α} {b : β} (value : V a b) : Agrees V (pure a : Parsed α) (pure b) := .ok value

theorem agrees_unexpected {e e' : SExpr} (same : e.Same e') {context : String} :
    Agrees V (unexpected e context) (unexpected e' context) :=
  .error (congrArg (ParseErrorKind.unexpectedToken context) same.display.symm)

theorem Agrees.follows {r : Parsed α} {r' : Parsed β} (agrees : Agrees V r r') : Follows V r r' := by
  cases agrees with
  | ok value => exact follows_ok value
  | error => exact nofun

theorem agrees_mapM {es : List α} {es' : List β} {f : α → Parsed γ} {f' : β → Parsed γ}
    (each : List.Forall₂ V es es') (step : ∀ a b, V a b → Agrees Eq (f a) (f' b)) :
    Agrees Eq (es.mapM f) (es'.mapM f') := by
  induction each with
  | nil => exact agrees_pure rfl
  | cons first _ ih =>
    rw [List.mapM_cons, List.mapM_cons]
    refine (step _ _ first).bind fun c d same => ih.bind fun cs ds sames => ?_
    exact agrees_pure (congrArg₂ List.cons same sames)

end Agrees

/-! ## Items -/

section Items

variable {i i' : Items}

/-- A name is taken alike at another place. -/
theorem SameItems.takeId (same : SameItems i i') : SameAfter i.takeId i'.takeId := by
  obtain ⟨rest, span⟩ := i
  obtain ⟨rest', span'⟩ := i'
  cases same with
  | nil => exact ⟨rfl, .nil⟩
  | cons first others =>
    unfold Items.takeId
    dsimp only
    rw [first.id?]
    split
    · exact ⟨rfl, others⟩
    · exact ⟨rfl, .cons first others⟩

/-- What comes next is there for both or for none. -/
inductive SameNext : Option SExpr × Items → Option SExpr × Items → Prop
  | none {i i' : Items} (same : SameItems i i') : SameNext (none, i) (none, i')
  | some {e e' : SExpr} {i i' : Items} (here : e.Same e') (same : SameItems i i') :
    SameNext (some e, i) (some e', i')

/-- The next item is the same at another place. -/
theorem SameItems.next (same : SameItems i i') : SameNext i.next i'.next := by
  obtain ⟨rest, span⟩ := i
  obtain ⟨rest', span'⟩ := i'
  cases same with
  | nil => exact .none .nil
  | cons first others => exact .some first others

/-- A list is taken alike at another place. -/
theorem SameItems.takeList (same : SameItems i i') (head : String) :
    SameNext (i.takeList head) (i'.takeList head) := by
  obtain ⟨rest, span⟩ := i
  obtain ⟨rest', span'⟩ := i'
  cases same with
  | nil => exact .none .nil
  | cons first others =>
    unfold Items.takeList
    dsimp only
    rw [first.isHeadedBy]
    split
    · exact .some first others
    · exact .none (.cons first others)

/-- The lists of a head are the same at another place. -/
theorem forall₂_takeWhile {es es' : List SExpr} (same : List.Forall₂ SExpr.Same es es') (head : String) :
    List.Forall₂ SExpr.Same (es.takeWhile (·.isHeadedBy head)) (es'.takeWhile (·.isHeadedBy head)) ∧
      List.Forall₂ SExpr.Same (es.dropWhile (·.isHeadedBy head))
        (es'.dropWhile (·.isHeadedBy head)) := by
  induction same with
  | nil => exact ⟨.nil, .nil⟩
  | cons first others ih =>
    rw [List.takeWhile_cons, List.takeWhile_cons, List.dropWhile_cons, List.dropWhile_cons,
      first.isHeadedBy]
    split
    · exact ⟨.cons first ih.1, ih.2⟩
    · exact ⟨.nil, .cons first others⟩

/-- Lists are taken alike at another place. -/
theorem SameItems.takeLists (same : SameItems i i') (head : String) :
    List.Forall₂ SExpr.Same (i.takeLists head).1 (i'.takeLists head).1 ∧
      SameItems (i.takeLists head).2 (i'.takeLists head).2 :=
  forall₂_takeWhile same head

theorem agrees_expectEnd (same : SameItems i i') (context : String) :
    Agrees Eq (i.expectEnd context) (i'.expectEnd context) := by
  obtain ⟨rest, span⟩ := i
  obtain ⟨rest', span'⟩ := i'
  cases same with
  | nil => exact .ok rfl
  | cons first => exact agrees_unexpected first

theorem agrees_expectString (same : SameItems i i') (context : String) :
    Agrees SameAfter (i.expectString context) (i'.expectString context) := by
  have next := same.next
  unfold Items.expectString
  generalize i.next = r at next ⊢
  generalize i'.next = r' at next ⊢
  cases next with
  | none => exact .error rfl
  | some here others =>
    simp only [Option.bind_some, here.string?]
    split
    · exact .error rfl
    · split
      · exact .ok ⟨rfl, others⟩
      · exact .error rfl

end Items

/-! ## Small forms -/

section Forms

variable {e e' : SExpr} {i i' : Items}

theorem agrees_parseIndex (same : e.Same e') : Agrees Eq (parseIndex e) (parseIndex e') := by
  unfold parseIndex
  rw [same.id?, same.number?]
  split
  · exact .ok rfl
  · split
    · exact .ok rfl
    · exact agrees_unexpected same
  · exact agrees_unexpected same

theorem agrees_parseOptionalIndex (same : SameItems i i') :
    Agrees SameAfter (parseOptionalIndex i) (parseOptionalIndex i') := by
  obtain ⟨rest, span⟩ := i
  obtain ⟨rest', span'⟩ := i'
  cases same with
  | nil => exact .ok ⟨rfl, .nil⟩
  | cons first others =>
    unfold parseOptionalIndex
    dsimp only
    rw [first.id?, first.number?]
    split
    · exact (agrees_parseIndex first).bind fun _ _ index => agrees_pure ⟨index, others⟩
    · exact .ok ⟨rfl, .cons first others⟩

theorem agrees_parseValtype (same : e.Same e') : Agrees Eq (parseValtype e) (parseValtype e') := by
  unfold parseValtype
  rw [same.keyword?]
  split
  · exact .ok rfl
  · exact agrees_unexpected same

theorem agrees_parseLimits (same : SameItems i i') :
    Agrees SameAfter (parseLimits i) (parseLimits i') := by
  have next := same.next
  unfold parseLimits
  generalize i.next = r at next ⊢
  generalize i'.next = r' at next ⊢
  cases next with
  | none => exact .error rfl
  | @some e _ after after' here others =>
    obtain ⟨rest, span⟩ := after
    obtain ⟨rest', span'⟩ := after'
    simp only [Option.bind_some, here.number?]
    generalize e.number?.bind parseU32? = found
    cases found with
    | none => exact .error rfl
    | some min =>
      cases others with
      | nil => exact .ok ⟨rfl, .nil⟩
      | cons first others =>
        simp only [first.number?]
        split
        · exact .ok ⟨rfl, .cons first others⟩
        · split
          · exact .ok ⟨rfl, others⟩
          · exact .error rfl

theorem agrees_parseInlineExport (same : e.Same e') :
    Agrees Eq (parseInlineExport e) (parseInlineExport e') :=
  (agrees_expectString (sameItems_ofExpr same) _).bind fun _ _ name =>
    (agrees_expectEnd name.2 _).bind fun _ _ _ => agrees_pure name.1

theorem agrees_parseInlineImport (same : e.Same e') :
    Agrees Eq (parseInlineImport e) (parseInlineImport e') :=
  (agrees_expectString (sameItems_ofExpr same) _).bind fun _ _ module =>
    (agrees_expectString module.2 _).bind fun _ _ name =>
      (agrees_expectEnd name.2 _).bind fun _ _ _ => agrees_pure (congrArg₂ Prod.mk module.1 name.1)

theorem agrees_parseGlobalType (same : SameItems i i') :
    Agrees SameAfter (parseGlobalType i) (parseGlobalType i') := by
  have next := same.next
  unfold parseGlobalType
  generalize i.next = r at next ⊢
  generalize i'.next = r' at next ⊢
  cases next with
  | none => exact .error rfl
  | @some e e' after after' here others =>
    simp only [here.isHeadedBy, here.isList]
    split
    · have inside := (sameItems_ofExpr here).next
      generalize (Items.ofExpr e).next = q at inside ⊢
      generalize (Items.ofExpr e').next = q' at inside ⊢
      cases inside with
      | none => exact .error rfl
      | some type ends =>
        refine (agrees_parseValtype type).bind fun t t' types =>
          (agrees_expectEnd ends _).bind fun _ _ _ => agrees_pure ⟨?_, others⟩
        exact congrArg (GlobalType.mk · .var) types
    · split
      · exact .error rfl
      · exact (agrees_parseValtype here).bind fun t t' types =>
          agrees_pure ⟨congrArg (GlobalType.mk · .const) types, others⟩

theorem agrees_parseParams (same : e.Same e') : Agrees Eq (parseParams e) (parseParams e') := by
  have named := (sameItems_ofExpr same).takeId
  unfold parseParams
  generalize (Items.ofExpr e).takeId = r at named ⊢
  generalize (Items.ofExpr e').takeId = r' at named ⊢
  obtain ⟨name, items⟩ := r
  obtain ⟨name', items'⟩ := r'
  obtain ⟨rfl, others⟩ := named
  cases name with
  | none =>
    exact agrees_mapM others fun _ _ type => (agrees_parseValtype type).bind fun _ _ types =>
      agrees_pure (congrArg (Param.mk none) types)
  | some name =>
    have next := SameItems.next others
    dsimp only at next ⊢
    generalize items.next = q at next ⊢
    generalize items'.next = q' at next ⊢
    cases next with
    | none => exact .error rfl
    | some type ends =>
      exact (agrees_parseValtype type).bind fun _ _ types => (agrees_expectEnd ends _).bind
        fun _ _ _ => agrees_pure (congrArg (fun t => [Param.mk (some name) t]) types)

theorem agrees_parseResults (same : e.Same e') : Agrees Eq (parseResults e) (parseResults e') :=
  agrees_mapM (sameItems_ofExpr same) fun _ _ => agrees_parseValtype

theorem agrees_parseSignature (same : SameItems i i') :
    Agrees SameAfter (parseSignature i) (parseSignature i') := by
  obtain ⟨params, later⟩ := same.takeLists "param"
  obtain ⟨results, last⟩ := later.takeLists "result"
  refine (agrees_mapM params fun _ _ => agrees_parseParams).bind fun ps _ same => ?_
  subst same
  refine (agrees_mapM results fun _ _ => agrees_parseResults).bind fun rs _ same => ?_
  subst same
  exact agrees_pure ⟨rfl, last⟩

theorem agrees_parseTypeRef (same : SameItems i i') :
    Agrees SameAfter (parseTypeRef i) (parseTypeRef i') := by
  have taken := same.takeList "type"
  unfold parseTypeRef
  generalize i.takeList "type" = r at taken ⊢
  generalize i'.takeList "type" = r' at taken ⊢
  cases taken with
  | none others => exact .ok ⟨rfl, others⟩
  | @some e e' after after' here others =>
    have inside := (sameItems_ofExpr here).next
    dsimp only
    generalize (Items.ofExpr e).next = q at inside ⊢
    generalize (Items.ofExpr e').next = q' at inside ⊢
    cases inside with
    | none => exact .error rfl
    | some index ends =>
      exact (agrees_parseIndex index).bind fun _ _ indices => (agrees_expectEnd ends _).bind
        fun _ _ _ => agrees_pure ⟨congrArg some indices, others⟩

theorem agrees_parseTypeUse (same : SameItems i i') :
    Agrees SameAfter (parseTypeUse i) (parseTypeUse i') := by
  refine (agrees_parseTypeRef same).bind fun r r' types => ?_
  obtain ⟨type, items⟩ := r
  obtain ⟨type', items'⟩ := r'
  obtain ⟨rfl, others⟩ := types
  refine (agrees_parseSignature others).bind fun q q' signatures => ?_
  obtain ⟨signature, after⟩ := q
  obtain ⟨signature', after'⟩ := q'
  obtain ⟨rfl, last⟩ := signatures
  cases type with
  | none => exact agrees_pure ⟨rfl, last⟩
  | some index =>
    dsimp only
    split
    · exact agrees_pure ⟨rfl, last⟩
    · exact agrees_pure ⟨rfl, last⟩

theorem agrees_parseBlockResult (same : SameItems i i') :
    Agrees SameAfter (parseBlockResult i) (parseBlockResult i') := by
  have taken := same.takeList "result"
  unfold parseBlockResult
  generalize i.takeList "result" = r at taken ⊢
  generalize i'.takeList "result" = r' at taken ⊢
  cases taken with
  | none others => exact .ok ⟨rfl, others⟩
  | some here others =>
    refine (agrees_parseResults here).bind fun types _ same => ?_
    subst same
    split
    · exact agrees_pure ⟨rfl, others⟩
    · exact agrees_pure ⟨rfl, others⟩
    · exact .error rfl

theorem agrees_parseElementType (same : SameItems i i') :
    Agrees SameItems (parseElementType i) (parseElementType i') := by
  have next := same.next
  unfold parseElementType
  generalize i.next = r at next ⊢
  generalize i'.next = r' at next ⊢
  cases next with
  | none => exact .error rfl
  | some here others =>
    simp only [here.keyword?]
    split
    · exact .ok others
    · exact agrees_unexpected here

end Forms

end WasmEngine.Wat
