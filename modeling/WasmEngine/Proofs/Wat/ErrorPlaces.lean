import WasmEngine.Proofs.Wat.Grammar
import WasmEngine.Proofs.Wat.Sequences
import WasmEngine.Proofs.Wat.SourcePlaces

/-!
# Places of errors in instructions

A reader of expressions takes the place of an error from an expression or from the list that it reads.  A property of
all places of the expressions is one of the place of the error (`Points`), for one item after the other and for
instructions under any fuel (`pointing`).
-/

namespace WasmEngine.Wat

/-- All spans in items have a property, and so has the span of their list. -/
structure Items.Stand (P : Span → Prop) (i : Items) : Prop where
  each : ∀ e ∈ i.rest, e.Stands P
  span : P i.span

/-- An item that is taken, if there is one, and the items that are left. -/
inductive Taken (P : Span → Prop) : Option SExpr × Items → Prop
  | none {i : Items} (left : i.Stand P) : Taken P (none, i)
  | some {e : SExpr} {i : Items} (here : e.Stands P) (left : i.Stand P) : Taken P (some e, i)

section Items

variable {P : Span → Prop} {i : Items} {e : SExpr} {rest : List SExpr} {span : Span}

/-- Of items that stand, the first does, and the others do. -/
theorem Items.Stand.uncons (stand : Items.Stand P ⟨e :: rest, span⟩) :
    e.Stands P ∧ Items.Stand P ⟨rest, span⟩ :=
  let ⟨first, others⟩ := List.forall_mem_cons.1 stand.each
  ⟨first, others, stand.span⟩

/-- The place of items that stand is among the places. -/
theorem Items.Stand.here (stand : i.Stand P) : P i.here := by
  obtain ⟨rest, span⟩ := i
  cases rest with
  | nil => exact stand.span
  | cons e rest => exact stand.uncons.1.span

/-- The items of an expression that stands do so. -/
theorem SExpr.Stands.items (stands : e.Stands P) : (Items.ofExpr e).Stand P := by
  cases stands with
  | atom here => exact ⟨nofun, here⟩
  | @list span items here inside =>
    refine ⟨fun e listed => inside e ?_, here⟩
    unfold Items.ofExpr at listed
    dsimp only at listed
    split at listed
    · exact List.mem_of_mem_drop listed
    · exact listed

/-- The next item is taken from those that stand. -/
theorem Items.Stand.next (stand : i.Stand P) : Taken P i.next := by
  obtain ⟨rest, span⟩ := i
  cases rest with
  | nil => exact .none stand
  | cons e rest =>
    obtain ⟨first, others⟩ := stand.uncons
    exact .some first others

/-- What is left of items past a name stands. -/
theorem Items.Stand.takeId (stand : i.Stand P) : i.takeId.2.Stand P := by
  obtain none_ | ⟨e, rest, name, here, -, some_⟩ := takeId_cases i
  · rw [none_]
    exact stand
  · rw [some_]
    exact ⟨(List.forall_mem_cons.1 (here ▸ stand.each)).2, stand.span⟩

/-- A list is taken from items that stand. -/
theorem Items.Stand.takeList (stand : i.Stand P) (word : String) : Taken P (i.takeList word) := by
  obtain ⟨none_, -⟩ | ⟨e, rest, here, -, some_⟩ := takeList_cases i word
  · rw [none_]
    exact .none stand
  · rw [some_]
    obtain ⟨first, others⟩ := List.forall_mem_cons.1 (here ▸ stand.each)
    exact .some first ⟨others, stand.span⟩

/-- Lists are taken from items that stand. -/
theorem Items.Stand.takeLists (stand : i.Stand P) (word : String) :
    (∀ e ∈ (i.takeLists word).1, e.Stands P) ∧ (i.takeLists word).2.Stand P :=
  ⟨fun e taken => stand.each e (List.takeWhile_subset _ taken),
    fun e left => stand.each e (List.dropWhile_subset _ left), stand.span⟩

theorem Taken.left {r : Option SExpr × Items} (taken : Taken P r) : r.2.Stand P := by
  cases taken with
  | none left => exact left
  | some _ left => exact left

end Items

/-! ## Headers -/

section Headers

variable {P : Span → Prop} {i : Items} {e : SExpr} {es : List SExpr}

theorem points_unexpected {α : Type} {Q : α → Prop} (stands : e.Stands P) (context : String) :
    Points P Q (unexpected e context) := points_error stands.span

theorem points_mapM {α : Type} {f : SExpr → Parsed α} (stand : ∀ e ∈ es, e.Stands P)
    (each : ∀ e, e.Stands P → Points P (fun _ => True) (f e)) : Points P (fun _ => True) (es.mapM f) := by
  induction es with
  | nil => exact points_ok trivial
  | cons e es ih =>
    obtain ⟨first, others⟩ := List.forall_mem_cons.1 stand
    rw [List.mapM_cons]
    refine (each e first).bind fun _ _ => ?_
    exact (ih others).bind fun _ _ => points_ok trivial

theorem points_expectEnd (stand : i.Stand P) (context : String) :
    Points P (fun _ => True) (i.expectEnd context) := by
  unfold Items.expectEnd
  split
  · next e rest here => exact points_unexpected (stand.each e (here ▸ List.mem_cons_self)) context
  · exact points_ok trivial

theorem points_expectString (stand : i.Stand P) (context : String) :
    Points P (fun r => r.2.Stand P) (i.expectString context) := by
  unfold Items.expectString
  dsimp only
  split
  · exact points_error stand.here
  · split
    · exact points_ok stand.next.left
    · exact points_error stand.here

theorem points_parseIndex (stands : e.Stands P) : Points P (fun _ => True) (parseIndex e) := by
  unfold parseIndex
  split
  · exact points_ok trivial
  · split
    · exact points_ok trivial
    · exact points_unexpected stands _
  · exact points_unexpected stands _

theorem points_parseOptionalIndex (stand : i.Stand P) :
    Points P (fun r => r.2.Stand P) (parseOptionalIndex i) := by
  obtain ⟨rest, span⟩ := i
  unfold parseOptionalIndex
  cases rest with
  | nil => exact points_ok stand
  | cons e rest =>
    obtain ⟨first, others⟩ := stand.uncons
    dsimp only
    split
    · exact (points_parseIndex first).bind fun _ _ => points_ok others
    · exact points_ok stand

theorem points_parseValtype (stands : e.Stands P) : Points P (fun _ => True) (parseValtype e) := by
  unfold parseValtype
  split
  · exact points_ok trivial
  · exact points_unexpected stands _

theorem points_parseLimits (stand : i.Stand P) : Points P (fun r => r.2.Stand P) (parseLimits i) := by
  have left := stand.next.left
  unfold parseLimits
  dsimp only
  split
  · exact points_error stand.here
  · split
    · exact points_ok left
    · next e after here =>
      obtain ⟨upper, others⟩ := List.forall_mem_cons.1 (here ▸ left.each)
      split
      · exact points_ok left
      · split
        · exact points_ok ⟨others, left.span⟩
        · exact points_error upper.span

theorem points_parseInlineExport (stands : e.Stands P) :
    Points P (fun _ => True) (parseInlineExport e) := by
  unfold parseInlineExport
  refine (points_expectString stands.items _).bind fun r left => ?_
  exact (points_expectEnd left _).bind fun _ _ => points_ok trivial

theorem points_parseInlineImport (stands : e.Stands P) :
    Points P (fun _ => True) (parseInlineImport e) := by
  unfold parseInlineImport
  refine (points_expectString stands.items _).bind fun r left => ?_
  refine (points_expectString left _).bind fun r' left' => ?_
  exact (points_expectEnd left' _).bind fun _ _ => points_ok trivial

theorem points_parseGlobalType (stand : i.Stand P) :
    Points P (fun r => r.2.Stand P) (parseGlobalType i) := by
  have next := stand.next
  unfold parseGlobalType
  generalize i.next = taken at next ⊢
  cases next with
  | none => exact points_error stand.here
  | @some e items first others =>
    have inside := first.items.next
    dsimp only
    split
    · generalize (Items.ofExpr e).next = inner at inside ⊢
      cases inside with
      | none => exact points_error first.span
      | some type left =>
        refine (points_parseValtype type).bind fun _ _ => ?_
        exact (points_expectEnd left _).bind fun _ _ => points_ok others
    · split
      · exact points_error first.span
      · exact (points_parseValtype first).bind fun _ _ => points_ok others

theorem points_parseParams (stands : e.Stands P) : Points P (fun _ => True) (parseParams e) := by
  have named := stands.items.takeId
  unfold parseParams
  split
  · next name items taken =>
    rw [taken] at named
    have next := named.next
    generalize items.next = only at next ⊢
    cases next with
    | none => exact points_error stands.span
    | some type left =>
      refine (points_parseValtype type).bind fun _ _ => ?_
      exact (points_expectEnd left _).bind fun _ _ => points_ok trivial
  · next items taken =>
    rw [taken] at named
    refine points_mapM named.each fun t stands => ?_
    exact (points_parseValtype stands).bind fun _ _ => points_ok trivial

theorem points_parseResults (stands : e.Stands P) : Points P (fun _ => True) (parseResults e) :=
  points_mapM stands.items.each fun _ => points_parseValtype

theorem points_parseSignature (stand : i.Stand P) : Points P (fun r => r.2.Stand P) (parseSignature i) := by
  obtain ⟨params, left⟩ := stand.takeLists "param"
  obtain ⟨results, left'⟩ := left.takeLists "result"
  unfold parseSignature
  refine (points_mapM params fun _ => points_parseParams).bind fun _ _ => ?_
  exact (points_mapM results fun _ => points_parseResults).bind fun _ _ => points_ok left'

theorem points_parseTypeRef (stand : i.Stand P) : Points P (fun r => r.2.Stand P) (parseTypeRef i) := by
  have typed := stand.takeList "type"
  unfold parseTypeRef
  generalize i.takeList "type" = taken at typed ⊢
  cases typed with
  | none left => exact points_ok left
  | @some e items form left =>
    have inside := form.items.next
    dsimp only
    generalize (Items.ofExpr e).next = inner at inside ⊢
    cases inside with
    | none => exact points_error form.span
    | some index left' =>
      refine (points_parseIndex index).bind fun _ _ => ?_
      exact (points_expectEnd left' _).bind fun _ _ => points_ok left

theorem points_parseTypeUse (stand : i.Stand P) : Points P (fun r => r.2.Stand P) (parseTypeUse i) := by
  unfold parseTypeUse
  refine (points_parseTypeRef stand).bind fun r left => ?_
  refine (points_parseSignature left).bind fun r' left' => ?_
  dsimp only
  split
  · split
    · exact points_ok left'
    · exact points_ok left'
  · exact points_ok left'

theorem points_parseBlockResult (stand : i.Stand P) :
    Points P (fun r => r.2.Stand P) (parseBlockResult i) := by
  have typed := stand.takeList "result"
  unfold parseBlockResult
  generalize i.takeList "result" = taken at typed ⊢
  cases typed with
  | none left => exact points_ok left
  | some form left =>
    refine (points_parseResults form).bind fun types _ => ?_
    split
    · exact points_ok left
    · exact points_ok left
    · exact points_error form.span

theorem points_parseElementType (stand : i.Stand P) : Points P (Items.Stand P) (parseElementType i) := by
  have next := stand.next
  unfold parseElementType
  generalize i.next = taken at next ⊢
  cases next with
  | none => exact points_error stand.span
  | some element left =>
    dsimp only
    split
    · exact points_ok left
    · exact points_unexpected element _

end Headers

/-! ## Immediates -/

section Immediates

variable {P : Span → Prop} {i : Items} {e site : SExpr} {es : List SExpr}

theorem points_takeTargets (stand : ∀ e ∈ es, e.Stands P) :
    Points P (fun r => ∀ e ∈ r.2, e.Stands P) (takeTargets es) := by
  induction es with
  | nil => exact points_ok stand
  | cons e es ih =>
    obtain ⟨first, others⟩ := List.forall_mem_cons.1 stand
    rw [takeTargets]
    split
    · refine (points_parseIndex first).bind fun _ _ => ?_
      exact (ih others).bind fun r left => points_ok left
    · exact points_ok stand

theorem points_takeMemArg (m : MemArg) (stand : ∀ e ∈ es, e.Stands P) :
    Points P (fun r => ∀ e ∈ r.2, e.Stands P) (takeMemArg m es) := by
  induction es generalizing m with
  | nil => exact points_ok stand
  | cons e es ih =>
    obtain ⟨first, others⟩ := List.forall_mem_cons.1 stand
    unfold takeMemArg
    split
    · exact points_ok stand
    · split
      · split
        · exact ih _ others
        · exact points_error first.span
      · split
        · exact ih _ others
        · exact points_error first.span
      · exact points_ok stand

theorem points_parseOp (word : String) (stands : site.Stands P) (stand : i.Stand P) :
    Points P (fun r => r.2.Stand P) (parseOp word site i) := by
  have next := stand.next
  unfold parseOp
  split
  · exact points_error stands.span
  · split
    · exact points_ok stand
    · exact points_ok stand
    · exact points_unexpected stands _
    · generalize i.next = taken at next ⊢
      cases next with
      | none => exact points_error stands.span
      | some target left =>
        refine (points_parseIndex target).bind fun _ _ => ?_
        split
        · exact points_ok left
        · exact points_ok left
    · refine (points_takeTargets stand.each).bind fun r left => ?_
      dsimp only
      split
      · exact points_error stands.span
      · exact points_ok ⟨left, stand.span⟩
    · exact (points_parseTypeUse stand).bind fun r left => points_ok left
    · exact (points_takeMemArg _ stand.each).bind fun r left => points_ok ⟨left, stand.span⟩
    all_goals
      generalize i.next = taken at next ⊢
      cases next with
      | none => exact points_error stands.span
      | some operand left =>
        dsimp only
        split
        · exact points_unexpected operand _
        · split
          · exact points_ok left
          · exact points_error operand.span

end Immediates

/-! ## Instructions -/

/-- A reader that generates names and points at places with a property. -/
def PointsM {α : Type} (P : Span → Prop) (Q : α → Prop) (r : ParseM α) : Prop :=
  ∀ g, Points P (fun q : α × NameGenerator => Q q.1) (r g)

section PointsM

variable {α β : Type} {P : Span → Prop} {Q : α → Prop} {R : β → Prop}

/-- Readings in sequence point to places when both parts do. -/
theorem PointsM.bind {r : ParseM α} {f : α → ParseM β} (first : PointsM P Q r)
    (rest : ∀ a, Q a → PointsM P R (f a)) : PointsM P R (r >>= f) := by
  intro g
  exact (first g).bind fun q holds => rest q.1 holds q.2

theorem pointsM_pure {a : α} (holds : Q a) : PointsM P Q (pure a) := fun _ => holds

theorem pointsM_lift {r : Parsed α} (points : Points P Q r) : PointsM P Q (liftM r) := by
  intro g
  exact points.bind fun _ holds => holds

theorem pointsM_throw {e : ParseError} (here : P e.span) : PointsM P Q (throw e) := fun _ => here

theorem pointsM_exhausted {span : Span} (here : P span) : PointsM P Q (liftM (exhausted span : Parsed α)) :=
  pointsM_lift (points_error here)

theorem pointsM_nameOrFresh {i : Items} (stand : i.Stand P) (stem : String) :
    PointsM P (fun r => r.2.Stand P) (nameOrFresh i stem) := by
  have named := stand.takeId
  unfold nameOrFresh
  split
  · next taken =>
    rw [taken] at named
    exact pointsM_pure named
  · next taken =>
    rw [taken] at named
    exact fun _ => named

end PointsM

/-- Under some fuel the readers of instructions point at places with a property, which the start of a source
has. -/
structure Pointing (P : Span → Prop) (fuel : Nat) : Prop where
  sequence : ∀ depth stops i, i.Stand P →
    PointsM P (fun r : List Node × Option String × Items => r.2.2.Stand P) (parseSequence fuel depth stops i)
  plain : ∀ depth word e i, e.Stands P → i.Stand P →
    PointsM P (fun r : Node × Items => r.2.Stand P) (parsePlain fuel depth word e i)
  folded : ∀ depth e, e.Stands P → PointsM P (fun _ => True) (parseFolded fuel depth e)
  arms : ∀ depth es consequent alternate, (∀ e ∈ es, e.Stands P) →
    PointsM P (fun _ => True) (parseArms fuel depth es consequent alternate)
  operands : ∀ depth es, (∀ e ∈ es, e.Stands P) →
    PointsM P (fun _ => True) (parseOperands fuel depth es)

theorem points_requireDepth {P : Span → Prop} {site : SExpr} (depth : Nat) (stands : site.Stands P) :
    Points P (fun _ => True) (requireDepth depth site) := by
  unfold requireDepth
  split
  · exact points_error stands.span
  · exact points_ok trivial

/-- With no fuel, a reading points to the place where it stops. -/
theorem pointing_zero {P : Span → Prop} (start : P ⟨0, 0, 1, 1⟩) : Pointing P 0 where
  sequence _ _ _ stand := by
    rw [parseSequence]
    exact pointsM_exhausted stand.span
  plain _ _ _ _ stands _ := by
    rw [parsePlain]
    exact pointsM_exhausted stands.span
  folded _ _ stands := by
    rw [parseFolded]
    exact pointsM_exhausted stands.span
  arms _ _ _ _ _ := by
    rw [parseArms]
    exact pointsM_exhausted start
  operands _ _ _ := by
    rw [parseOperands]
    exact pointsM_exhausted start

section Step

variable {P : Span → Prop} {fuel : Nat} (ih : Pointing P fuel) {i : Items} {e : SExpr} {es : List SExpr}
include ih

theorem points_parseSequence (depth : Nat) (stops : List String) (stand : i.Stand P) :
    PointsM P (fun r : List Node × Option String × Items => r.2.2.Stand P)
      (parseSequence (fuel + 1) depth stops i) := by
  obtain ⟨rest, span⟩ := i
  rw [parseSequence]
  cases rest with
  | nil => exact pointsM_pure stand
  | cons e rest =>
    obtain ⟨first, others⟩ := stand.uncons
    dsimp only
    split
    · refine (ih.folded depth e first).bind fun _ _ => ?_
      exact (ih.sequence depth stops _ others).bind fun r left => pointsM_pure left
    · split
      · exact pointsM_lift (points_unexpected first _)
      · next word _ =>
        split
        · exact pointsM_pure others
        · split
          · exact pointsM_lift (points_unexpected first _)
          · refine (ih.plain depth word e _ first others).bind fun r left => ?_
            exact (ih.sequence depth stops _ left).bind fun r' left' => pointsM_pure left'

/-- A block that is closed by `end`. -/
theorem points_flatBlock (depth : Nat) (word : String) (stands : e.Stands P) (stand : i.Stand P) {α : Type}
    (make : List Node → α) :
    PointsM P (fun r : α × Items => r.2.Stand P) (do
      let (body, stop, items) ← parseSequence fuel depth ["end"] i
      if stop.isNone then throw ⟨.missingEnd word, e.span⟩
      return (make body, items.takeId.2)) := by
  refine (ih.sequence depth ["end"] i stand).bind fun r left => ?_
  obtain ⟨body, stop, items⟩ := r
  cases stop with
  | none =>
    refine PointsM.bind (Q := fun _ => False) ?_ fun _ => False.elim
    exact pointsM_throw stands.span
  | some word => exact pointsM_pure left.takeId

theorem points_parsePlain (depth : Nat) (word : String) (stands : e.Stands P) (stand : i.Stand P) :
    PointsM P (fun r : Node × Items => r.2.Stand P) (parsePlain (fuel + 1) depth word e i) := by
  have opens := pointsM_lift (points_requireDepth depth stands)
  rw [parsePlain]
  split
  · refine opens.bind fun _ _ => ?_
    refine (pointsM_nameOrFresh stand _).bind fun r left => ?_
    refine (pointsM_lift (points_parseBlockResult left)).bind fun r' left' => ?_
    refine (ih.sequence (depth + 1) ["else", "end"] _ left').bind fun q inside => ?_
    dsimp only
    split
    · exact pointsM_throw stands.span
    · exact points_flatBlock ih _ _ stands inside.takeId _
    · exact pointsM_pure inside.takeId
  · split
    · refine opens.bind fun _ _ => ?_
      refine (pointsM_nameOrFresh stand _).bind fun r left => ?_
      refine (pointsM_lift (points_parseBlockResult left)).bind fun r' left' => ?_
      exact points_flatBlock ih _ _ stands left' _
    · exact pointsM_lift (points_parseOp word stands stand)

theorem points_parseFolded (depth : Nat) (stands : e.Stands P) :
    PointsM P (fun _ => True) (parseFolded (fuel + 1) depth e) := by
  have opens := pointsM_lift (points_requireDepth depth stands)
  rw [parseFolded]
  split
  · exact pointsM_lift (points_unexpected stands _)
  · next word _ =>
    dsimp only
    split
    · refine opens.bind fun _ _ => ?_
      refine (pointsM_nameOrFresh stands.items _).bind fun r left => ?_
      refine (pointsM_lift (points_parseBlockResult left)).bind fun r' left' => ?_
      exact (ih.arms (depth + 1) _ [] [] left'.each).bind fun _ _ => pointsM_pure trivial
    · split
      · refine opens.bind fun _ _ => ?_
        refine (pointsM_nameOrFresh stands.items _).bind fun r left => ?_
        refine (pointsM_lift (points_parseBlockResult left)).bind fun r' left' => ?_
        exact (ih.sequence (depth + 1) [] _ left').bind fun _ _ => pointsM_pure trivial
      · split
        · exact pointsM_lift (points_unexpected stands _)
        · refine (pointsM_lift (points_parseOp word stands stands.items)).bind fun r left => ?_
          exact (ih.operands depth _ left.each).bind fun _ _ => pointsM_pure trivial

theorem points_parseArms (depth : Nat) (stand : ∀ e ∈ es, e.Stands P) (consequent alternate : List Node) :
    PointsM P (fun _ => True) (parseArms (fuel + 1) depth es consequent alternate) := by
  cases es with
  | nil =>
    rw [parseArms]
    exact pointsM_pure trivial
  | cons e rest =>
    obtain ⟨first, others⟩ := List.forall_mem_cons.1 stand
    have arm := ih.sequence depth [] _ first.items
    rw [parseArms]
    split
    · exact arm.bind fun _ _ => ih.arms depth rest _ _ others
    · split
      · exact arm.bind fun _ _ => ih.arms depth rest _ _ others
      · split
        · refine (ih.folded depth e first).bind fun _ _ => ?_
          exact (ih.arms depth rest _ _ others).bind fun _ _ => pointsM_pure trivial
        · exact pointsM_lift (points_unexpected first _)

theorem points_parseOperands (depth : Nat) (stand : ∀ e ∈ es, e.Stands P) :
    PointsM P (fun _ => True) (parseOperands (fuel + 1) depth es) := by
  cases es with
  | nil =>
    rw [parseOperands]
    exact pointsM_pure trivial
  | cons e rest =>
    obtain ⟨first, others⟩ := List.forall_mem_cons.1 stand
    rw [parseOperands]
    split
    · refine (ih.folded depth e first).bind fun _ _ => ?_
      exact (ih.operands depth rest others).bind fun _ _ => pointsM_pure trivial
    · exact pointsM_lift (points_unexpected first _)

end Step

/-- The readers call each other with less fuel, and what they leave to each other stands where it stood. -/
theorem pointing {P : Span → Prop} (start : P ⟨0, 0, 1, 1⟩) (fuel : Nat) : Pointing P fuel := by
  induction fuel with
  | zero => exact pointing_zero start
  | succ fuel ih =>
    constructor
    · intro depth stops i stand
      exact points_parseSequence ih depth stops stand
    · intro depth word e i stands stand
      exact points_parsePlain ih depth word stands stand
    · intro depth e stands
      exact points_parseFolded ih depth stands
    · intro depth es consequent alternate stand
      exact points_parseArms ih depth stand consequent alternate
    · intro depth es stand
      exact points_parseOperands ih depth stand

theorem points_parseBody {P : Span → Prop} (start : P ⟨0, 0, 1, 1⟩) (fuel : Nat) {i : Items} (stand : i.Stand P) :
    PointsM P (fun _ => True) (parseBody fuel i) :=
  ((pointing start fuel).sequence 0 [] i stand).bind fun _ _ => pointsM_pure trivial

end WasmEngine.Wat
