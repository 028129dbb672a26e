import WasmEngine.Proofs.Wat.OpenConstructs
import WasmEngine.Proofs.Wat.PlacedInstructions
import WasmEngine.Proofs.Wat.UnfoldedFields

/-!
# Modules do not depend on places

Fields, modules and programs that differ in their places only are read alike, names that are generated included,
if both readers have fuel enough (`agreesM_parseProgram`).
-/

namespace WasmEngine.Wat

open Outcome

section Definitions

variable {fuel fuel' : Nat} {e e' : SExpr} {i i' : Items}

/-- A definition is read alike if what comes after its header is. -/
theorem agreesM_readDefinition {α : Type} {stem : String} {words : List String}
    {header : Items → Parsed (α × Items)} {rest rest' : Identifier → α → Items → ParseM (List Node)}
    (reader : HeaderReader words header) (same : e.Same e')
    (agrees : ∀ name h (i i' : Items), SameItems i i' → SExpr.size i.rest < SExpr.size [e] →
      AgreesM Eq Eq (rest name h i) (rest' name h i')) :
    AgreesM Eq Eq (readDefinition stem header rest e) (readDefinition stem header rest' e') := by
  have less := size_ofExpr_lt e
  refine (agreesM_label (sameItems_ofExpr same) (Nat.le_refl _) stem).bind ?_
  rintro ⟨name, i⟩ ⟨_, i'⟩ ⟨rfl, left, few⟩
  dsimp only at left few
  refine (agreesM_lift ((reader.agrees i i' left).within few fun q read => ?_)).bind ?_
  · obtain ⟨-, xs, split, -⟩ := reader.takes i q.1 q.2 read
    exact ⟨xs, split⟩
  · rintro ⟨h, i⟩ ⟨_, i'⟩ ⟨rfl, left, few⟩
    exact agrees name h i i' left (Nat.lt_of_le_of_lt few less)

theorem agreesM_parseFunc (same : e.Same e') (enough : 2 * SExpr.size [e] ≤ min fuel fuel') :
    AgreesM Eq Eq (parseFunc fuel e) (parseFunc fuel' e') := by
  rw [parseFunc_eq, parseFunc_eq]
  refine agreesM_readDefinition headerReader_funcHeader same fun name h i i' left few => ?_
  unfold funcNodes
  split
  · exact (agreesM_lift (agrees_expectEnd left _)).bind fun _ _ _ => agreesM_pure rfl
  · refine (agreesM_parseBody left (by omega)).bind ?_
    rintro body _ rfl
    exact agreesM_pure rfl

/-- The type of a global, and the items after it. -/
theorem agreesM_parseGlobalType (same : SameItems i i') :
    AgreesM Eq (SameWithin (SExpr.size i.rest)) (liftM (parseGlobalType i)) (liftM (parseGlobalType i')) := by
  refine agreesM_lift ((agrees_parseGlobalType same).within (Nat.le_refl _) fun q read => ?_)
  obtain ⟨type, here, -⟩ := isGlobalType_of_read read
  exact ⟨[type], here⟩

/-- The reference with which a segment begins, and the items after it. -/
theorem agreesM_parseOptionalIndex (same : SameItems i i') :
    AgreesM Eq (SameWithin (SExpr.size i.rest)) (liftM (parseOptionalIndex i)) (liftM (parseOptionalIndex i')) := by
  refine agreesM_lift ((agrees_parseOptionalIndex same).within (Nat.le_refl _) fun q read => ?_)
  have heeds := @heeds_parseOptionalIndex (fun _ => True) i
  rw [read] at heeds
  obtain ⟨xs, split, -⟩ := heeds
  exact ⟨xs, split⟩

theorem agreesM_parseGlobal (same : e.Same e') (enough : 2 * SExpr.size [e] ≤ min fuel fuel') :
    AgreesM Eq Eq (parseGlobal fuel e) (parseGlobal fuel' e') := by
  rw [parseGlobal_eq, parseGlobal_eq]
  refine agreesM_readDefinition headerReader_globalHeader same fun name h i i' left few => ?_
  refine (agreesM_parseGlobalType left).bind ?_
  rintro ⟨type, i⟩ ⟨_, i'⟩ ⟨rfl, left, less⟩
  dsimp only at left less ⊢
  split
  · exact (agreesM_lift (agrees_expectEnd left _)).bind fun _ _ _ => agreesM_pure rfl
  · refine (agreesM_parseBody left (by omega)).bind ?_
    rintro init _ rfl
    exact agreesM_pure rfl

theorem agreesM_parseOffset (same : SameItems i i') (enough : 2 * SExpr.size i.rest ≤ min fuel fuel')
    (context : String) :
    AgreesM Eq SameAfter (parseOffset fuel i context) (parseOffset fuel' i' context) := by
  obtain ⟨rest, span⟩ := i
  obtain ⟨rest', span'⟩ := i'
  unfold parseOffset Items.takeList
  cases same with
  | nil => exact agreesM_throw rfl
  | @cons e e' es es' first others =>
    have less := size_ofExpr_lt e
    dsimp only at enough
    rw [SExpr.size_cons] at enough
    dsimp only
    rw [first.isHeadedBy]
    cases e.isHeadedBy "offset" with
    | true =>
      refine (agreesM_parseBody (sameItems_ofExpr first) (by omega)).bind ?_
      rintro offset _ rfl
      exact agreesM_pure ⟨rfl, others⟩
    | false =>
      simp only [Bool.false_eq_true, if_false, Items.next]
      rw [first.isList]
      split
      · refine ((placed fuel fuel').folded 0 e e' first (by omega)).bind ?_
        rintro offset _ rfl
        exact agreesM_pure ⟨rfl, others⟩
      · exact agreesM_lift (agrees_unexpected first)

theorem agreesM_parseData (same : e.Same e') (enough : 2 * SExpr.size [e] ≤ min fuel fuel') :
    AgreesM Eq Eq (parseData fuel e) (parseData fuel' e') := by
  have less := size_ofExpr_lt e
  refine (agreesM_parseOptionalIndex (sameItems_ofExpr same)).bind ?_
  rintro ⟨target, i⟩ ⟨_, i'⟩ ⟨rfl, left, few⟩
  dsimp only at left few
  refine (agreesM_parseOffset left (by omega) "data").bind ?_
  rintro ⟨offset, i⟩ ⟨_, i'⟩ ⟨rfl, left⟩
  refine (agreesM_lift (agrees_parseDataStrings left)).bind ?_
  rintro bytes _ rfl
  exact agreesM_pure rfl

theorem agreesM_parseElem (same : e.Same e') (enough : 2 * SExpr.size [e] ≤ min fuel fuel') :
    AgreesM Eq Eq (parseElem fuel e) (parseElem fuel' e') := by
  have less := size_ofExpr_lt e
  refine (agreesM_parseOptionalIndex (sameItems_ofExpr same)).bind ?_
  rintro ⟨target, i⟩ ⟨_, i'⟩ ⟨rfl, left, few⟩
  dsimp only at left few
  refine (agreesM_parseOffset left (by omega) "elem").bind ?_
  rintro ⟨offset, i⟩ ⟨_, i'⟩ ⟨rfl, left⟩
  simp only [lift_mapM]
  refine (agreesM_lift (agrees_mapM left fun _ _ => agrees_parseIndex)).bind ?_
  rintro funcs _ rfl
  exact agreesM_pure rfl

end Definitions

section Modules

variable {fuel fuel' : Nat} {e e' : SExpr} {es es' : List SExpr}

/-- Fields are read alike at whatever places. -/
theorem agreesM_parseField (same : e.Same e') (enough : 2 * SExpr.size [e] ≤ min fuel fuel') :
    AgreesM Eq Eq (parseField fuel e) (parseField fuel' e') := by
  have names : NamesAlike Eq := fun stem _ => agreesM_refl (freshName stem)
  unfold parseField
  rw [same.head?]
  split
  · exact agreesM_lift (agrees_parseType same)
  · exact agreesM_lift (agrees_parseImport same)
  · exact agreesM_lift (agrees_parseExport same)
  · exact agreesM_parseFunc same enough
  · exact agreesM_parseGlobal same enough
  · exact agreesM_parseMemory names same
  · exact agreesM_parseTable names same
  · exact agreesM_parseData same enough
  · exact agreesM_parseElem same enough
  · exact agreesM_lift (agrees_parseStart same)
  · exact agreesM_lift (agrees_unexpected same)

theorem agreesM_parseFields (same : List.Forall₂ SExpr.Same es es')
    (enough : 2 * SExpr.size es ≤ min fuel fuel') :
    AgreesM Eq Eq (parseFields fuel es) (parseFields fuel' es') := by
  induction same with
  | nil => exact agreesM_pure rfl
  | cons first _ ih =>
    rw [SExpr.size_cons] at enough
    refine (agreesM_parseField first (by omega)).bind ?_
    rintro nodes _ rfl
    refine (ih (by omega)).bind ?_
    rintro rest _ rfl
    exact agreesM_pure rfl

theorem agreesM_parseModule (same : e.Same e') (enough : 2 * SExpr.size [e] ≤ min fuel fuel') :
    AgreesM Eq Eq (parseModule fuel e) (parseModule fuel' e') := by
  have less := size_ofExpr_lt e
  have few := size_takeId_le (.ofExpr e)
  have taken := (sameItems_ofExpr same).takeId
  unfold parseModule
  generalize (Items.ofExpr e).takeId = r at taken few ⊢
  generalize (Items.ofExpr e').takeId = r' at taken ⊢
  obtain ⟨id, items⟩ := r
  obtain ⟨_, items'⟩ := r'
  obtain ⟨rfl, left⟩ := taken
  dsimp only at few
  refine (agreesM_parseFields left (by dsimp only; omega)).bind ?_
  rintro fields _ rfl
  exact agreesM_pure rfl

theorem agreesM_parseModules (same : List.Forall₂ SExpr.Same es es')
    (enough : 2 * SExpr.size es ≤ min fuel fuel') :
    AgreesM Eq Eq (parseModules fuel es) (parseModules fuel' es') := by
  induction same with
  | nil => exact agreesM_pure rfl
  | cons first _ ih =>
    rw [SExpr.size_cons] at enough
    refine (agreesM_parseModule first (by omega)).bind ?_
    rintro node _ rfl
    refine (ih (by omega)).bind ?_
    rintro rest _ rfl
    exact agreesM_pure rfl

/-- Programs are read alike at whatever places. -/
theorem agreesM_parseProgram (same : List.Forall₂ SExpr.Same es es')
    (enough : 2 * SExpr.size es ≤ min fuel fuel') :
    AgreesM Eq Eq (parseProgram fuel es) (parseProgram fuel' es') := by
  unfold parseProgram
  rw [all_isHeadedBy_of_same same]
  split
  · refine (agreesM_parseModules same enough).bind ?_
    rintro nodes _ rfl
    exact agreesM_pure rfl
  · refine (agreesM_parseFields same enough).bind ?_
    rintro nodes _ rfl
    exact agreesM_pure rfl

end Modules

end WasmEngine.Wat
