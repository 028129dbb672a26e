import WasmEngine.Proofs.Wat.Importable
import WasmEngine.Proofs.Wat.Places

/-!
# Fields do not depend on places

Readers that generate names on the way give the same for expressions that differ in their places only, if the
names handed out before are alike (`AgreesM`).  What that means for the generators is left open, so that the
names of labels may or may not count.
-/

namespace WasmEngine.Wat

open Outcome

/-! ## Readers that generate names -/

section AgreesM

variable {α β γ δ : Type} {G : NameGenerator → NameGenerator → Prop} {V : α → β → Prop} {W : γ → δ → Prop}

/-- With generators that are alike, both readers give something that goes together and leave generators that are
alike, or both fail for the same reason. -/
def AgreesM (G : NameGenerator → NameGenerator → Prop) (V : α → β → Prop) (m : ParseM α) (m' : ParseM β) : Prop :=
  ∀ g g', G g g' → Agrees (fun r r' => V r.1 r'.1 ∧ G r.2 r'.2) (m g) (m' g')

/-- Readings in sequence agree when both parts do. -/
theorem AgreesM.bind {m : ParseM α} {m' : ParseM β} {f : α → ParseM γ} {f' : β → ParseM δ}
    (first : AgreesM G V m m') (rest : ∀ a b, V a b → AgreesM G W (f a) (f' b)) :
    AgreesM G W (m >>= f) (m' >>= f') := fun g g' alike =>
  (first g g' alike).bind fun r r' ⟨value, alike⟩ => rest r.1 r'.1 value r.2 r'.2 alike

theorem agreesM_pure {a : α} {b : β} (value : V a b) : AgreesM G V (pure a) (pure b) :=
  fun _ _ alike => .ok ⟨value, alike⟩

theorem agreesM_lift {r : Parsed α} {r' : Parsed β} (agrees : Agrees V r r') :
    AgreesM G V (liftM r) (liftM r') := fun _ _ alike =>
  agrees.bind fun _ _ value => .ok ⟨value, alike⟩

theorem agreesM_throw {e e' : ParseError} (reason : e.kind = e'.kind) :
    AgreesM G V (throw e) (throw e') := fun _ _ _ => .error reason

/-- Generators that are alike hand out the same names but perhaps for labels. -/
def NamesAlike (G : NameGenerator → NameGenerator → Prop) : Prop :=
  ∀ stem, isBlockWord stem = false → AgreesM G Eq (freshName stem) (freshName stem)

end AgreesM

/-! ## Fields without instructions -/

section Fields

variable {G : NameGenerator → NameGenerator → Prop} {i i' : Items} {e e' : SExpr}

theorem agrees_takeExports (same : SameItems i i') (kind : ExportKind) (id : Identifier) :
    Agrees SameAfter (takeExports i kind id) (takeExports i' kind id) := by
  obtain ⟨taken, left⟩ := same.takeLists "export"
  refine (agrees_mapM taken fun _ _ => agrees_parseInlineExport).bind fun names _ same => ?_
  exact agrees_pure ⟨by rw [same], left⟩

theorem agrees_parseType (same : e.Same e') : Agrees Eq (parseType e) (parseType e') := by
  unfold parseType
  have named := (sameItems_ofExpr same).takeId
  generalize (Items.ofExpr e).takeId = r at named ⊢
  generalize (Items.ofExpr e').takeId = r' at named ⊢
  obtain ⟨id, items⟩ := r
  obtain ⟨id', items'⟩ := r'
  obtain ⟨rfl, left⟩ := named
  have taken := SameItems.takeList left "func"
  dsimp only at taken ⊢
  generalize items.takeList "func" = q at taken ⊢
  generalize items'.takeList "func" = q' at taken ⊢
  cases taken with
  | none => exact .error rfl
  | some here left =>
    refine (agrees_expectEnd left _).bind fun _ _ _ => ?_
    refine (agrees_parseSignature (sameItems_ofExpr here)).bind fun s s' ⟨signatures, inner⟩ => ?_
    refine (agrees_expectEnd inner _).bind fun _ _ _ => agrees_pure ?_
    rw [signatures]

theorem agrees_parseImportDescr (module name : String) (same : e.Same e') :
    Agrees (fun r r' => r.1 = r'.1 ∧ r.2.1 = r'.2.1 ∧ SameItems r.2.2 r'.2.2)
      (parseImportDescr module name e) (parseImportDescr module name e') := by
  unfold parseImportDescr
  have named := (sameItems_ofExpr same).takeId
  generalize (Items.ofExpr e).takeId = r at named ⊢
  generalize (Items.ofExpr e').takeId = r' at named ⊢
  obtain ⟨id, items⟩ := r
  obtain ⟨id', items'⟩ := r'
  obtain ⟨rfl, left⟩ := named
  dsimp only at left ⊢
  rw [same.head?]
  split
  · refine (agrees_parseTypeUse left).bind fun s s' ⟨signatures, inner⟩ => agrees_pure ⟨?_, rfl, inner⟩
    rw [signatures]
  · refine (agrees_parseGlobalType left).bind fun s s' ⟨types, inner⟩ => agrees_pure ⟨?_, rfl, inner⟩
    rw [types]
  · refine (agrees_parseLimits left).bind fun s s' ⟨limits, inner⟩ => agrees_pure ⟨?_, rfl, inner⟩
    rw [limits]
  · refine (agrees_parseLimits left).bind fun s s' ⟨limits, inner⟩ => ?_
    refine (agrees_parseElementType inner).bind fun _ _ inner => agrees_pure ⟨?_, rfl, inner⟩
    rw [limits]
  · exact agrees_unexpected same

theorem agrees_parseImport (same : e.Same e') : Agrees Eq (parseImport e) (parseImport e') := by
  refine (agrees_expectString (sameItems_ofExpr same) _).bind fun r r' ⟨modules, left⟩ => ?_
  refine (agrees_expectString left _).bind fun q q' ⟨names, left⟩ => ?_
  obtain ⟨module, rest⟩ := r
  obtain ⟨module', rest'⟩ := r'
  obtain ⟨name, items⟩ := q
  obtain ⟨name', items'⟩ := q'
  obtain rfl : module = module' := modules
  obtain rfl : name = name' := names
  have next := SameItems.next left
  dsimp only at next ⊢
  generalize items.next = p at next ⊢
  generalize items'.next = p' at next ⊢
  cases next with
  | none => exact .error rfl
  | some here left =>
    refine (agrees_expectEnd left _).bind fun _ _ _ => ?_
    refine (agrees_parseImportDescr module name here).bind fun d d' ⟨descrs, ids, inner⟩ => ?_
    refine (agrees_expectEnd inner _).bind fun _ _ _ => agrees_pure ?_
    rw [descrs, ids]

theorem agrees_parseExport (same : e.Same e') : Agrees Eq (parseExport e) (parseExport e') := by
  refine (agrees_expectString (sameItems_ofExpr same) _).bind fun r r' ⟨names, left⟩ => ?_
  obtain ⟨name, items⟩ := r
  obtain ⟨name', items'⟩ := r'
  obtain rfl : name = name' := names
  have next := SameItems.next left
  dsimp only at next ⊢
  generalize items.next = p at next ⊢
  generalize items'.next = p' at next ⊢
  cases next with
  | none => exact .error rfl
  | @some d d' _ _ here left =>
    refine (agrees_expectEnd left _).bind fun _ _ _ => ?_
    rw [here.head?]
    split
    · exact .error rfl
    · have inside := (sameItems_ofExpr here).next
      generalize (Items.ofExpr d).next = p at inside ⊢
      generalize (Items.ofExpr d').next = p' at inside ⊢
      cases inside with
      | none => exact .error rfl
      | some index inner =>
        refine (agrees_parseIndex index).bind fun _ _ indices => ?_
        refine (agrees_expectEnd inner _).bind fun _ _ _ => agrees_pure ?_
        rw [indices]

theorem agrees_parseStart (same : e.Same e') : Agrees Eq (parseStart e) (parseStart e') := by
  have next := (sameItems_ofExpr same).next
  unfold parseStart
  generalize (Items.ofExpr e).next = p at next ⊢
  generalize (Items.ofExpr e').next = p' at next ⊢
  cases next with
  | none => exact .error rfl
  | some index inner =>
    refine (agrees_parseIndex index).bind fun _ _ indices => ?_
    refine (agrees_expectEnd inner _).bind fun _ _ _ => agrees_pure ?_
    rw [indices]

theorem agrees_parseDataStrings {es es' : List SExpr} (same : List.Forall₂ SExpr.Same es es') :
    Agrees Eq (parseDataStrings es) (parseDataStrings es') := by
  refine (agrees_mapM same fun e e' same => ?_).bind fun _ _ strings => agrees_pure (strings ▸ rfl)
  rw [same.string?]
  split
  · exact .ok rfl
  · exact agrees_unexpected same

theorem agrees_takeElements (same : SameItems i i') :
    Agrees SameAfter (takeElements i) (takeElements i') := by
  have taken := same.takeList "elem"
  unfold takeElements
  generalize i.takeList "elem" = q at taken ⊢
  generalize i'.takeList "elem" = q' at taken ⊢
  cases taken with
  | none left => exact .ok ⟨rfl, left⟩
  | some here left =>
    exact (agrees_mapM (sameItems_ofExpr here) fun _ _ => agrees_parseIndex).bind
      fun _ _ indices => agrees_pure ⟨indices, left⟩

/-- A name that comes next, or else one that is generated alike. -/
theorem agreesM_nameOrFresh {stem : String} (fresh : AgreesM G Eq (freshName stem) (freshName stem))
    (same : SameItems i i') : AgreesM G SameAfter (nameOrFresh i stem) (nameOrFresh i' stem) := by
  have taken := same.takeId
  unfold nameOrFresh
  generalize i.takeId = r at taken ⊢
  generalize i'.takeId = r' at taken ⊢
  obtain ⟨name, items⟩ := r
  obtain ⟨name', items'⟩ := r'
  obtain ⟨rfl, left⟩ := taken
  cases name with
  | some name => exact agreesM_pure ⟨rfl, left⟩
  | none => exact fresh.bind fun _ _ names => agreesM_pure ⟨names, left⟩

/-- A definition is read alike if its rest is. -/
theorem agreesM_readImportable {stem : String} {kind : ExportKind}
    {imported : Identifier → List Node → String × String → Items → ParseM (List Node)}
    {defined : Identifier → List Node → Items → ParseM (List Node)}
    (fresh : AgreesM G Eq (freshName stem) (freshName stem))
    (imports : ∀ name exports origin i i', SameItems i i' →
      AgreesM G Eq (imported name exports origin i) (imported name exports origin i'))
    (defines : ∀ name exports i i', SameItems i i' → AgreesM G Eq (defined name exports i) (defined name exports i'))
    (same : e.Same e') :
    AgreesM G Eq (readImportable stem kind imported defined e) (readImportable stem kind imported defined e') := by
  unfold readImportable
  refine (agreesM_nameOrFresh fresh (sameItems_ofExpr same)).bind fun r r' ⟨names, left⟩ => ?_
  obtain ⟨id, items⟩ := r
  obtain ⟨id', items'⟩ := r'
  obtain rfl : id = id' := names
  refine (agreesM_lift (agrees_takeExports left _ _)).bind fun q q' ⟨same, left⟩ => ?_
  obtain ⟨exports, items⟩ := q
  obtain ⟨exports', items'⟩ := q'
  obtain rfl : exports = exports' := same
  have taken := SameItems.takeList left "import"
  dsimp only at taken ⊢
  generalize items.takeList "import" = p at taken ⊢
  generalize items'.takeList "import" = p' at taken ⊢
  cases taken with
  | some here left =>
    refine (agreesM_lift (agrees_parseInlineImport here)).bind fun _ _ origin => ?_
    subst origin
    exact imports _ _ _ _ _ left
  | none left => exact defines _ _ _ _ left

theorem agreesM_parseMemory (alike : NamesAlike G) (same : e.Same e') : AgreesM G Eq (parseMemory e) (parseMemory e') := by
  rw [parseMemory_eq_readImportable, parseMemory_eq_readImportable]
  refine agreesM_readImportable (alike _ rfl) (fun name exports origin i i' left => ?_)
    (fun name exports i i' left => ?_) same
  · refine (agreesM_lift (agrees_parseLimits left)).bind fun _ _ ⟨limits, left⟩ => ?_
    refine (agreesM_lift (agrees_expectEnd left _)).bind fun _ _ _ => agreesM_pure ?_
    rw [limits]
  · have data := SameItems.takeList left "data"
    unfold definedMemory
    generalize i.takeList "data" = p at data ⊢
    generalize i'.takeList "data" = p' at data ⊢
    cases data with
    | some here left =>
      refine (agreesM_lift (agrees_expectEnd left _)).bind fun _ _ _ => ?_
      refine (agreesM_lift (agrees_parseDataStrings (sameItems_ofExpr here))).bind fun _ _ bytes => ?_
      subst bytes
      exact agreesM_pure rfl
    | none left =>
      refine (agreesM_lift (agrees_parseLimits left)).bind fun _ _ ⟨limits, left⟩ => ?_
      refine (agreesM_lift (agrees_expectEnd left _)).bind fun _ _ _ => agreesM_pure ?_
      rw [limits]

theorem SameItems.number?_next {i i' : Items} (same : SameItems i i') :
    i'.next.1.bind SExpr.number? = i.next.1.bind SExpr.number? := by
  have next := same.next
  generalize i.next = p at next ⊢
  generalize i'.next = p' at next ⊢
  cases next with
  | none => rfl
  | some here => exact here.number?

theorem agreesM_parseTable (alike : NamesAlike G) (same : e.Same e') : AgreesM G Eq (parseTable e) (parseTable e') := by
  rw [parseTable_eq_readImportable, parseTable_eq_readImportable]
  refine agreesM_readImportable (alike _ rfl) (fun name exports origin i i' left => ?_)
    (fun name exports i i' left => ?_) same
  · refine (agreesM_lift (agrees_parseLimits left)).bind fun _ _ ⟨limits, left⟩ => ?_
    refine (agreesM_lift (agrees_parseElementType left)).bind fun _ _ left => ?_
    refine (agreesM_lift (agrees_expectEnd left _)).bind fun _ _ _ => agreesM_pure ?_
    rw [limits]
  · unfold definedTable
    rw [left.number?_next]
    split
    · refine (agreesM_lift (agrees_parseLimits left)).bind fun _ _ ⟨limits, left⟩ => ?_
      refine (agreesM_lift (agrees_parseElementType left)).bind fun _ _ left => ?_
      refine (agreesM_lift (agrees_expectEnd left _)).bind fun _ _ _ => agreesM_pure ?_
      rw [limits]
    · refine (agreesM_lift (agrees_parseElementType left)).bind fun _ _ left => ?_
      refine (agreesM_lift (agrees_takeElements left)).bind fun _ _ ⟨elements, left⟩ => ?_
      refine (agreesM_lift (agrees_expectEnd left _)).bind fun _ _ _ => agreesM_pure ?_
      rw [elements]

end Fields

end WasmEngine.Wat
