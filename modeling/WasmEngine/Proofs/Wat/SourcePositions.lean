import WasmEngine.Proofs.Wat.ErrorPlaces
import WasmEngine.Proofs.Wat.Importable

/-!
# Positions in a source are valid

The readers of fields take the places of their errors from the expressions of the source, or from its start, so that
all spans and the states of the lexer are places in the source (`positions_valid`).  Offsets count bytes, columns count
characters, and neither they nor lines are bounded.
-/

namespace WasmEngine.Wat

/-! ## Fields without instructions -/

section Fields

variable {P : Span → Prop} {i : Items} {e : SExpr} {es : List SExpr}

theorem points_takeExports (stand : i.Stand P) (kind : ExportKind) (id : Identifier) :
    Points P (fun r => r.2.Stand P) (takeExports i kind id) := by
  obtain ⟨exports, left⟩ := stand.takeLists "export"
  unfold takeExports
  exact (points_mapM exports fun _ => points_parseInlineExport).bind fun _ _ => points_ok left

theorem points_parseType (stands : e.Stands P) : Points P (fun _ => True) (parseType e) := by
  have next := stands.items.takeId.takeList "func"
  unfold parseType
  dsimp only
  generalize (Items.ofExpr e).takeId.2.takeList "func" = taken at next ⊢
  cases next with
  | none left => exact points_error left.here
  | some func left =>
    refine (points_expectEnd left _).bind fun _ _ => ?_
    refine (points_parseSignature func.items).bind fun r left' => ?_
    exact (points_expectEnd left' _).bind fun _ _ => points_ok trivial

theorem points_parseImportDescr (module name : String) (stands : e.Stands P) :
    Points P (fun r => r.2.2.Stand P) (parseImportDescr module name e) := by
  have inner := stands.items.takeId
  unfold parseImportDescr
  dsimp only
  split
  · exact (points_parseTypeUse inner).bind fun r left => points_ok left
  · exact (points_parseGlobalType inner).bind fun r left => points_ok left
  · exact (points_parseLimits inner).bind fun r left => points_ok left
  · refine (points_parseLimits inner).bind fun r left => ?_
    exact (points_parseElementType left).bind fun r' left' => points_ok left'
  · exact points_unexpected stands _

theorem points_parseImport (stands : e.Stands P) : Points P (fun _ => True) (parseImport e) := by
  unfold parseImport
  refine (points_expectString stands.items _).bind fun r left => ?_
  refine (points_expectString left _).bind fun r' left' => ?_
  have next := left'.next
  dsimp only
  generalize r'.2.next = taken at next ⊢
  cases next with
  | none => exact points_error stands.span
  | some descr others =>
    refine (points_expectEnd others _).bind fun _ _ => ?_
    refine (points_parseImportDescr _ _ descr).bind fun q inner => ?_
    exact (points_expectEnd inner _).bind fun _ _ => points_ok trivial

theorem points_parseExport (stands : e.Stands P) : Points P (fun _ => True) (parseExport e) := by
  unfold parseExport
  refine (points_expectString stands.items _).bind fun r left => ?_
  have next := left.next
  dsimp only
  generalize r.2.next = taken at next ⊢
  cases next with
  | none => exact points_error stands.span
  | @some descr _ exported others =>
    have inside := exported.items.next
    refine (points_expectEnd others _).bind fun _ _ => ?_
    split
    · exact points_error exported.span
    · generalize (Items.ofExpr descr).next = inner at inside ⊢
      cases inside with
      | none => exact points_error exported.span
      | some index left' =>
        refine (points_parseIndex index).bind fun _ _ => ?_
        exact (points_expectEnd left' _).bind fun _ _ => points_ok trivial

theorem points_parseStart (stands : e.Stands P) : Points P (fun _ => True) (parseStart e) := by
  have next := stands.items.next
  unfold parseStart
  generalize (Items.ofExpr e).next = taken at next ⊢
  cases next with
  | none => exact points_error stands.span
  | some index left =>
    refine (points_parseIndex index).bind fun _ _ => ?_
    exact (points_expectEnd left _).bind fun _ _ => points_ok trivial

theorem points_parseDataStrings (stand : ∀ e ∈ es, e.Stands P) :
    Points P (fun _ => True) (parseDataStrings es) := by
  unfold parseDataStrings
  refine (points_mapM stand fun e stands => ?_).bind fun _ _ => points_ok trivial
  split
  · exact points_ok trivial
  · exact points_unexpected stands _

theorem points_takeElements (stand : i.Stand P) : Points P (fun r => r.2.Stand P) (takeElements i) := by
  have next := stand.takeList "elem"
  unfold takeElements
  generalize i.takeList "elem" = taken at next ⊢
  cases next with
  | none left => exact points_ok left
  | some form left => exact (points_mapM form.items.each fun _ => points_parseIndex).bind fun _ _ => points_ok left

/-! ## Definitions -/

/-- A definition fails at places if its rest does. -/
theorem pointsM_readImportable (stem : String) (kind : ExportKind)
    {imported : Identifier → List Node → String × String → Items → ParseM (List Node)}
    {defined : Identifier → List Node → Items → ParseM (List Node)}
    (imports : ∀ name exports origin i, i.Stand P → PointsM P (fun _ => True) (imported name exports origin i))
    (defines : ∀ name exports i, i.Stand P → PointsM P (fun _ => True) (defined name exports i))
    (stands : e.Stands P) : PointsM P (fun _ => True) (readImportable stem kind imported defined e) := by
  unfold readImportable
  refine (pointsM_nameOrFresh stands.items _).bind fun name named => ?_
  refine (pointsM_lift (points_takeExports named _ _)).bind fun r left => ?_
  have next := left.takeList "import"
  dsimp only
  generalize r.2.takeList "import" = taken at next ⊢
  cases next with
  | some form left =>
    exact (pointsM_lift (points_parseInlineImport form)).bind fun origin _ => imports _ _ origin _ left
  | none left => exact defines _ _ _ left

theorem points_parseTable (stands : e.Stands P) : PointsM P (fun _ => True) (parseTable e) := by
  rw [parseTable_eq_readImportable]
  refine pointsM_readImportable _ _ (fun name exports origin i left => ?_) (fun name exports i left => ?_) stands
  · refine (pointsM_lift (points_parseLimits left)).bind fun q left' => ?_
    refine (pointsM_lift (points_parseElementType left')).bind fun q' left'' => ?_
    exact (pointsM_lift (points_expectEnd left'' _)).bind fun _ _ => pointsM_pure trivial
  · unfold definedTable
    split
    · refine (pointsM_lift (points_parseLimits left)).bind fun q left' => ?_
      refine (pointsM_lift (points_parseElementType left')).bind fun q' left'' => ?_
      exact (pointsM_lift (points_expectEnd left'' _)).bind fun _ _ => pointsM_pure trivial
    · refine (pointsM_lift (points_parseElementType left)).bind fun q left' => ?_
      refine (pointsM_lift (points_takeElements left')).bind fun q' left'' => ?_
      exact (pointsM_lift (points_expectEnd left'' _)).bind fun _ _ => pointsM_pure trivial

theorem points_parseMemory (stands : e.Stands P) : PointsM P (fun _ => True) (parseMemory e) := by
  rw [parseMemory_eq_readImportable]
  refine pointsM_readImportable _ _ (fun name exports origin i left => ?_) (fun name exports i left => ?_) stands
  · refine (pointsM_lift (points_parseLimits left)).bind fun q left' => ?_
    exact (pointsM_lift (points_expectEnd left' _)).bind fun _ _ => pointsM_pure trivial
  · have next := left.takeList "data"
    unfold definedMemory
    generalize i.takeList "data" = taken at next ⊢
    cases next with
    | some form left' =>
      refine (pointsM_lift (points_expectEnd left' _)).bind fun _ _ => ?_
      exact (pointsM_lift (points_parseDataStrings form.items.each)).bind fun _ _ => pointsM_pure trivial
    | none left' =>
      refine (pointsM_lift (points_parseLimits left')).bind fun q left' => ?_
      exact (pointsM_lift (points_expectEnd left' _)).bind fun _ _ => pointsM_pure trivial

variable (start : P ⟨0, 0, 1, 1⟩)
include start

theorem points_parseFunc (fuel : Nat) (stands : e.Stands P) : PointsM P (fun _ => True) (parseFunc fuel e) := by
  rw [parseFunc_eq_readImportable]
  refine pointsM_readImportable _ _ (fun name exports origin i left => ?_) (fun name exports i left => ?_) stands
  · refine (pointsM_lift (points_parseTypeUse left)).bind fun q left' => ?_
    exact (pointsM_lift (points_expectEnd left' _)).bind fun _ _ => pointsM_pure trivial
  · refine (pointsM_lift (points_parseTypeUse left)).bind fun q left' => ?_
    obtain ⟨locals, left''⟩ := left'.takeLists "local"
    dsimp only
    rw [lift_mapM]
    refine (pointsM_lift (points_mapM locals fun _ => points_parseParams)).bind fun _ _ => ?_
    exact (points_parseBody start fuel left'').bind fun _ _ => pointsM_pure trivial

theorem points_parseGlobal (fuel : Nat) (stands : e.Stands P) :
    PointsM P (fun _ => True) (parseGlobal fuel e) := by
  rw [parseGlobal_eq_readImportable]
  refine pointsM_readImportable _ _ (fun name exports origin i left => ?_) (fun name exports i left => ?_) stands
  · refine (pointsM_lift (points_parseGlobalType left)).bind fun q left' => ?_
    exact (pointsM_lift (points_expectEnd left' _)).bind fun _ _ => pointsM_pure trivial
  · refine (pointsM_lift (points_parseGlobalType left)).bind fun q left' => ?_
    exact (points_parseBody start fuel left').bind fun _ _ => pointsM_pure trivial

/-! ## Segments -/

theorem points_parseOffset (fuel : Nat) (stand : i.Stand P) (context : String) :
    PointsM P (fun r => r.2.Stand P) (parseOffset fuel i context) := by
  have next := stand.takeList "offset"
  unfold parseOffset
  generalize i.takeList "offset" = taken at next ⊢
  cases next with
  | some form left => exact (points_parseBody start fuel form.items).bind fun _ _ => pointsM_pure left
  | @none items left =>
    have next := left.next
    dsimp only
    generalize items.next = taken at next ⊢
    cases next with
    | none => exact pointsM_throw stand.span
    | some first others =>
      dsimp only
      split
      · exact ((pointing start fuel).folded 0 _ first).bind fun _ _ => pointsM_pure others
      · exact pointsM_lift (points_unexpected first _)

theorem points_parseData (fuel : Nat) (stands : e.Stands P) : PointsM P (fun _ => True) (parseData fuel e) := by
  unfold parseData
  refine (pointsM_lift (points_parseOptionalIndex stands.items)).bind fun r left => ?_
  refine (points_parseOffset start fuel left "data").bind fun r' left' => ?_
  exact (pointsM_lift (points_parseDataStrings left'.each)).bind fun _ _ => pointsM_pure trivial

theorem points_parseElem (fuel : Nat) (stands : e.Stands P) : PointsM P (fun _ => True) (parseElem fuel e) := by
  unfold parseElem
  refine (pointsM_lift (points_parseOptionalIndex stands.items)).bind fun r left => ?_
  refine (points_parseOffset start fuel left "elem").bind fun r' left' => ?_
  dsimp only
  rw [lift_mapM]
  exact (pointsM_lift (points_mapM left'.each fun _ => points_parseIndex)).bind fun _ _ => pointsM_pure trivial

/-! ## Modules -/

theorem points_parseField (fuel : Nat) (stands : e.Stands P) : PointsM P (fun _ => True) (parseField fuel e) := by
  unfold parseField
  split
  · exact pointsM_lift (points_parseType stands)
  · exact pointsM_lift (points_parseImport stands)
  · exact pointsM_lift (points_parseExport stands)
  · exact points_parseFunc start fuel stands
  · exact points_parseGlobal start fuel stands
  · exact points_parseMemory stands
  · exact points_parseTable stands
  · exact points_parseData start fuel stands
  · exact points_parseElem start fuel stands
  · exact pointsM_lift (points_parseStart stands)
  · exact pointsM_lift (points_unexpected stands _)

theorem points_parseFields (fuel : Nat) (stand : ∀ e ∈ es, e.Stands P) :
    PointsM P (fun _ => True) (parseFields fuel es) := by
  induction es with
  | nil => exact pointsM_pure trivial
  | cons e es ih =>
    obtain ⟨first, others⟩ := List.forall_mem_cons.1 stand
    rw [parseFields]
    refine (points_parseField start fuel first).bind fun _ _ => ?_
    exact (ih others).bind fun _ _ => pointsM_pure trivial

theorem points_parseModules (fuel : Nat) (stand : ∀ e ∈ es, e.Stands P) :
    PointsM P (fun _ => True) (parseModules fuel es) := by
  induction es with
  | nil => exact pointsM_pure trivial
  | cons e es ih =>
    obtain ⟨first, others⟩ := List.forall_mem_cons.1 stand
    rw [parseModules]
    have module : PointsM P (fun _ => True) (parseModule fuel e) :=
      (points_parseFields start fuel first.items.takeId.each).bind fun _ _ => pointsM_pure trivial
    refine module.bind fun _ _ => ?_
    exact (ih others).bind fun _ _ => pointsM_pure trivial

end Fields

/-! ## Sources -/

section Sources

variable (source : String)

theorem valid_origin : Span.Valid source ⟨0, 0, 1, 1⟩ :=
  have here : (Cursor.start source).Marks ⟨0, 0, 1, 1⟩ := ⟨_, _, .refl _, .refl _, rfl, rfl⟩
  here.valid

theorem points_parse : Points (Span.Valid source) (fun _ => True) (parse source) := by
  have origin := valid_origin source
  unfold parse
  refine (points_readAll source).bind fun es stand => ?_
  have reading : PointsM (Span.Valid source) (fun _ => True)
      (if es.all (·.isHeadedBy "module") then return Program.mk (← parseModules (2 * source.length + 2) es)
        else return Program.mk [.module none (← parseFields (2 * source.length + 2) es) none]) := by
    split
    · exact (points_parseModules origin _ stand).bind fun _ _ => pointsM_pure trivial
    · exact (points_parseFields origin _ stand).bind fun _ _ => pointsM_pure trivial
  exact (reading .empty).bind fun _ _ => points_ok trivial

end Sources

end WasmEngine.Wat
