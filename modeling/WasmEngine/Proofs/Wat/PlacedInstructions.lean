import WasmEngine.Proofs.Wat.GrammarReading
import WasmEngine.Proofs.Wat.Nesting
import WasmEngine.Proofs.Wat.PlacedFields

/-!
# Instructions do not depend on places

Instructions that differ in their places only are read alike, names of labels included.  The fuel may differ as
well, as long as there is twice as much of it as there are tokens (`placed`): a reader takes one step for an
instruction and one for the sequence in it, even where the end of a block is missing.
-/

namespace WasmEngine.Wat

open Outcome

/-! ## Immediates -/

section Immediates

variable {i i' : Items} {es es' : List SExpr} {site site' : SExpr}

/-- Something and the expressions that are left after it. -/
def SameRest {α : Type} (r r' : α × List SExpr) : Prop := r.1 = r'.1 ∧ List.Forall₂ SExpr.Same r.2 r'.2

theorem agrees_takeTargets (same : List.Forall₂ SExpr.Same es es') :
    Agrees SameRest (takeTargets es) (takeTargets es') := by
  induction same with
  | nil => exact .ok ⟨rfl, .nil⟩
  | cons first others ih =>
    unfold takeTargets
    rw [first.id?, first.number?]
    split
    · refine (agrees_parseIndex first).bind fun _ _ index => ih.bind fun r r' others => ?_
      obtain ⟨targets, left⟩ := others
      exact agrees_pure ⟨by rw [index, targets], left⟩
    · exact .ok ⟨rfl, .cons first others⟩

theorem agrees_takeMemArg (m : MemArg) (same : List.Forall₂ SExpr.Same es es') :
    Agrees SameRest (takeMemArg m es) (takeMemArg m es') := by
  induction same generalizing m with
  | nil => exact .ok ⟨rfl, .nil⟩
  | cons first others ih =>
    unfold takeMemArg
    rw [first.keyword?]
    split
    · exact .ok ⟨rfl, .cons first others⟩
    · split
      · split
        · exact ih _
        · exact .error rfl
      · split
        · exact ih _
        · exact .error rfl
      · exact .ok ⟨rfl, .cons first others⟩

theorem agrees_parseOp (word : String) (sites : site.Same site') (same : SameItems i i') :
    Agrees SameAfter (parseOp word site i) (parseOp word site' i') := by
  cases known : Opcode.ofMnemonic? word with
  | none =>
    simp only [parseOp, known]
    exact .error rfl
  | some op =>
    have next := same.next
    have constant (immediate : op.immediate = .i32 ∨ op.immediate = .i64 ∨ op.immediate = .f32 ∨
        op.immediate = .f64) : Agrees SameAfter (parseOp word site i) (parseOp word site' i') := by
      rw [parseOp_of_constant known immediate, parseOp_of_constant known immediate]
      generalize i.next = r at next ⊢
      generalize i'.next = r' at next ⊢
      cases next with
      | none => exact .error rfl
      | some here left => exact (agrees_constantAfter here).bind fun _ _ node => .ok ⟨node, left⟩
    cases immediate : op.immediate with
    | none =>
      simp only [parseOp, known, immediate]
      exact .ok ⟨rfl, same⟩
    | memoryReserved =>
      simp only [parseOp, known, immediate]
      exact .ok ⟨rfl, same⟩
    | block =>
      simp only [parseOp, known, immediate]
      exact agrees_unexpected sites
    | index =>
      simp only [parseOp, known, immediate]
      generalize i.next = r at next ⊢
      generalize i'.next = r' at next ⊢
      cases next with
      | none => exact .error rfl
      | some here left =>
        refine (agrees_parseIndex here).bind fun index _ same => ?_
        subst same
        split
        · exact agrees_pure ⟨rfl, left⟩
        · exact agrees_pure ⟨rfl, left⟩
    | brTable =>
      simp only [parseOp, known, immediate]
      refine (agrees_takeTargets same).bind fun r r' alike => ?_
      obtain ⟨targets, rest⟩ := r
      obtain ⟨_, rest'⟩ := r'
      obtain ⟨rfl, left⟩ := alike
      dsimp only
      split
      · exact .error rfl
      · exact agrees_pure ⟨rfl, left⟩
    | callIndirect =>
      simp only [parseOp, known, immediate]
      refine (agrees_parseTypeUse same).bind fun r r' alike => ?_
      exact agrees_pure ⟨congrArg Node.callIndirect alike.1, alike.2⟩
    | memArg =>
      simp only [parseOp, known, immediate]
      refine (agrees_takeMemArg _ same).bind fun r r' alike => ?_
      exact agrees_pure ⟨congrArg (fun m => plainNode op [] (some m)) alike.1, alike.2⟩
    | i32 => exact constant (.inl immediate)
    | i64 => exact constant (.inr (.inl immediate))
    | f32 => exact constant (.inr (.inr (.inl immediate)))
    | f64 => exact constant (.inr (.inr (.inr immediate)))

theorem agrees_requireDepth (depth : Nat) (site site' : SExpr) :
    Agrees Eq (requireDepth depth site) (requireDepth depth site') := by
  unfold requireDepth
  split
  · exact .error rfl
  · exact .ok rfl

end Immediates

/-! ## Sequences, blocks and folded instructions -/

theorem agreesM_refl {α : Type} (m : ParseM α) : AgreesM Eq Eq m m := by
  rintro g _ rfl
  cases m g with
  | ok r => exact .ok ⟨rfl, rfl⟩
  | error e => exact .error rfl

/-- Something and the items that are left after it, with no more than so many tokens. -/
def SameWithin {α : Type} (n : Nat) (r r' : α × Items) : Prop :=
  r.1 = r'.1 ∧ SameItems r.2 r'.2 ∧ SExpr.size r.2.rest ≤ n

/-- Nodes, the word at which a sequence stops, and the items after it. -/
def SameEnd (n : Nat) (r r' : List Node × Option String × Items) : Prop :=
  r.1 = r'.1 ∧ r.2.1 = r'.2.1 ∧ SameItems r.2.2 r'.2.2 ∧ SExpr.size r.2.2.rest ≤ n

section Heads

variable {i i' : Items} {n : Nat} (same : SameItems i i') (few : SExpr.size i.rest ≤ n)
include same few

omit same in
/-- What is left after readings that agree is within the same bound. -/
theorem Agrees.within {α : Type} {r r' : Parsed (α × Items)} (agrees : Agrees SameAfter r r')
    (takes : ∀ q, r = .ok q → ∃ xs, i.rest = xs ++ q.2.rest) : Agrees (SameWithin n) r r' := by
  cases agrees with
  | ok value =>
    obtain ⟨xs, split⟩ := takes _ rfl
    exact .ok ⟨value.1, value.2, (size_le_of_split split).trans few⟩
  | error reason => exact .error reason

/-- The name that may stand behind the end of a block, and what comes after it. -/
theorem sameWithin_takeId {α : Type} (a : α) : SameWithin n (a, i.takeId.2) (a, i'.takeId.2) :=
  ⟨rfl, same.takeId.2, (size_takeId_le i).trans few⟩

/-- The label of a block. -/
theorem agreesM_label (stem : String) : AgreesM Eq (SameWithin n) (nameOrFresh i stem) (nameOrFresh i' stem) := by
  have taken := same.takeId
  have less := size_takeId_le i
  unfold nameOrFresh
  generalize i.takeId = r at taken less ⊢
  generalize i'.takeId = r' at taken ⊢
  obtain ⟨name, items⟩ := r
  obtain ⟨name', items'⟩ := r'
  obtain ⟨rfl, left⟩ := taken
  cases name with
  | some name => exact agreesM_pure ⟨rfl, left, less.trans few⟩
  | none => exact (agreesM_refl _).bind fun _ _ names => agreesM_pure ⟨names, left, less.trans few⟩

/-- The result of a block. -/
theorem agreesM_result : AgreesM Eq (SameWithin n) (liftM (parseBlockResult i)) (liftM (parseBlockResult i')) := by
  refine agreesM_lift ((agrees_parseBlockResult same).within few fun q read => ?_)
  obtain ⟨-, xs, split, -⟩ := typed_of_parseBlockResult read
  exact ⟨xs, split⟩

theorem agreesM_op (word : String) {site site' : SExpr} (sites : site.Same site') :
    AgreesM Eq (SameWithin n) (liftM (parseOp word site i)) (liftM (parseOp word site' i')) := by
  refine agreesM_lift ((agrees_parseOp word sites same).within few fun q read => ?_)
  obtain ⟨imm, split, -⟩ := (withImmediates_of_parseOp read).imm
  exact ⟨imm, split⟩

end Heads

/-- Readers of instructions agree at whatever places, if both have fuel enough. -/
structure Placed (fuel fuel' : Nat) : Prop where
  sequence : ∀ depth stops (i i' : Items), SameItems i i' → 2 * SExpr.size i.rest < min fuel fuel' →
    AgreesM Eq (SameEnd (SExpr.size i.rest)) (parseSequence fuel depth stops i) (parseSequence fuel' depth stops i')
  plain : ∀ depth word (site site' : SExpr) (i i' : Items), site.Same site' → SameItems i i' →
    2 * SExpr.size i.rest + 1 < min fuel fuel' →
    AgreesM Eq (SameWithin (SExpr.size i.rest)) (parsePlain fuel depth word site i) (parsePlain fuel' depth word site' i')
  folded : ∀ depth (e e' : SExpr), e.Same e' → 2 * SExpr.size [e] ≤ min fuel fuel' →
    AgreesM Eq Eq (parseFolded fuel depth e) (parseFolded fuel' depth e')
  arms : ∀ depth (es es' : List SExpr) consequent alternate, List.Forall₂ SExpr.Same es es' →
    2 * SExpr.size es < min fuel fuel' →
    AgreesM Eq Eq (parseArms fuel depth es consequent alternate) (parseArms fuel' depth es' consequent alternate)
  operands : ∀ depth (es es' : List SExpr), List.Forall₂ SExpr.Same es es' →
    2 * SExpr.size es < min fuel fuel' → AgreesM Eq Eq (parseOperands fuel depth es) (parseOperands fuel' depth es')

section Steps

variable {fuel fuel' : Nat} (placed : Placed fuel fuel') (depth : Nat)
include placed

/-- A sequence is read alike at another place. -/
theorem placed_parseSequence (stops : List String) {i i' : Items} (same : SameItems i i')
    (enough : 2 * SExpr.size i.rest < min (fuel + 1) (fuel' + 1)) :
    AgreesM Eq (SameEnd (SExpr.size i.rest)) (parseSequence (fuel + 1) depth stops i) (parseSequence (fuel' + 1) depth stops i') := by
  obtain ⟨rest, span⟩ := i
  obtain ⟨rest', span'⟩ := i'
  unfold parseSequence
  cases same with
  | nil => exact agreesM_pure ⟨rfl, rfl, .nil, Nat.le_refl _⟩
  | @cons e e' es es' first others =>
    have one := SExpr.one_le_size e
    have more := SExpr.size_cons e es
    dsimp only at enough ⊢
    have later : SameItems ⟨es, span⟩ ⟨es', span'⟩ := others
    have fits : 2 * SExpr.size (Items.mk es span).rest + 1 < min fuel fuel' := by
      dsimp only
      omega
    rw [first.isList, first.keyword?]
    split
    · refine (placed.folded depth e e' first (by omega)).bind fun here _ same => ?_
      subst same
      refine (placed.sequence depth stops _ _ later (by omega)).bind fun r r' others => ?_
      obtain ⟨nodes, stop, left, few⟩ := others
      exact agreesM_pure ⟨by rw [nodes], stop, left, few.trans (by dsimp only; omega)⟩
    · split
      · exact agreesM_lift (agrees_unexpected first)
      · next word _ =>
        split
        · exact agreesM_pure ⟨rfl, rfl, later, by dsimp only; omega⟩
        · split
          · exact agreesM_lift (agrees_unexpected first)
          · refine (placed.plain depth word e e' _ _ first later fits).bind fun q q' here => ?_
            obtain ⟨node, left, few⟩ := here
            dsimp only at few
            refine (placed.sequence depth stops _ _ left (by omega)).bind fun r r' others => ?_
            obtain ⟨nodes, stop, left, few⟩ := others
            exact agreesM_pure ⟨by rw [node, nodes], stop, left, few.trans (by omega)⟩

/-- A plain instruction is read alike at another place. -/
theorem placed_parsePlain (word : String) {site site' : SExpr} {i i' : Items} (sites : site.Same site')
    (same : SameItems i i') (enough : 2 * SExpr.size i.rest + 1 < min (fuel + 1) (fuel' + 1)) :
    AgreesM Eq (SameWithin (SExpr.size i.rest)) (parsePlain (fuel + 1) depth word site i)
      (parsePlain (fuel' + 1) depth word site' i') := by
  unfold parsePlain
  split
  · refine (agreesM_lift (agrees_requireDepth depth site site')).bind fun _ _ _ => ?_
    refine (agreesM_label same (Nat.le_refl _) "if").bind ?_
    rintro ⟨label, items⟩ ⟨_, items'⟩ ⟨rfl, left, few⟩
    refine (agreesM_result left few).bind ?_
    rintro ⟨result, items⟩ ⟨_, items'⟩ ⟨rfl, left, few⟩
    dsimp only at left few
    refine (placed.sequence (depth + 1) _ _ _ left (by omega)).bind ?_
    rintro ⟨consequent, stop, items⟩ ⟨_, _, items'⟩ ⟨rfl, rfl, left, few'⟩
    have few := few'.trans few
    dsimp only at left few ⊢
    split
    · exact agreesM_throw rfl
    · have named := size_takeId_le items
      refine (placed.sequence (depth + 1) _ _ _ left.takeId.2 (by omega)).bind ?_
      rintro ⟨alternate, stop, items⟩ ⟨_, _, items'⟩ ⟨rfl, rfl, left, few'⟩
      have few := few'.trans (named.trans few)
      cases stop with
      | none =>
        simp only [Option.isNone_none, if_true]
        exact AgreesM.bind (V := fun _ _ => False) (agreesM_throw rfl) fun _ _ => False.elim
      | some word => exact agreesM_pure (sameWithin_takeId left few _)
    · exact agreesM_pure (sameWithin_takeId left few _)
  · split
    · refine (agreesM_lift (agrees_requireDepth depth site site')).bind fun _ _ _ => ?_
      refine (agreesM_label same (Nat.le_refl _) word).bind ?_
      rintro ⟨label, items⟩ ⟨_, items'⟩ ⟨rfl, left, few⟩
      refine (agreesM_result left few).bind ?_
      rintro ⟨result, items⟩ ⟨_, items'⟩ ⟨rfl, left, few⟩
      dsimp only at left few
      refine (placed.sequence (depth + 1) _ _ _ left (by omega)).bind ?_
      rintro ⟨body, stop, items⟩ ⟨_, _, items'⟩ ⟨rfl, rfl, left, few'⟩
      have few := few'.trans few
      cases stop with
      | none =>
        simp only [Option.isNone_none, if_true]
        exact AgreesM.bind (V := fun _ _ => False) (agreesM_throw rfl) fun _ _ => False.elim
      | some word => exact agreesM_pure (sameWithin_takeId left few _)
    · exact agreesM_op same (Nat.le_refl _) word sites

/-- A folded instruction is read alike at another place. -/
theorem placed_parseFolded {e e' : SExpr} (same : e.Same e')
    (enough : 2 * SExpr.size [e] ≤ min (fuel + 1) (fuel' + 1)) :
    AgreesM Eq Eq (parseFolded (fuel + 1) depth e) (parseFolded (fuel' + 1) depth e') := by
  have inside := sameItems_ofExpr same
  have less := size_ofExpr_lt e
  unfold parseFolded
  rw [same.head?]
  split
  · exact agreesM_lift (agrees_unexpected same)
  · dsimp only
    split
    · refine (agreesM_lift (agrees_requireDepth depth e e')).bind fun _ _ _ => ?_
      refine (agreesM_label inside (Nat.le_refl _) "if").bind ?_
      rintro ⟨label, items⟩ ⟨_, items'⟩ ⟨rfl, left, few⟩
      refine (agreesM_result left few).bind ?_
      rintro ⟨result, items⟩ ⟨_, items'⟩ ⟨rfl, left, few⟩
      dsimp only at left few
      refine (placed.arms (depth + 1) _ _ [] [] left (by omega)).bind ?_
      rintro ⟨condition, consequent, alternate⟩ _ rfl
      exact agreesM_pure rfl
    split
    · next word _ _ _ =>
      refine (agreesM_lift (agrees_requireDepth depth e e')).bind fun _ _ _ => ?_
      refine (agreesM_label inside (Nat.le_refl _) word).bind ?_
      rintro ⟨label, items⟩ ⟨_, items'⟩ ⟨rfl, left, few⟩
      refine (agreesM_result left few).bind ?_
      rintro ⟨result, items⟩ ⟨_, items'⟩ ⟨rfl, left, few⟩
      dsimp only at left few
      refine (placed.sequence (depth + 1) _ _ _ left (by omega)).bind ?_
      rintro ⟨body, stop, items⟩ ⟨_, _, items'⟩ ⟨rfl, -, -, -⟩
      exact agreesM_pure rfl
    split
    · exact agreesM_lift (agrees_unexpected same)
    · next word _ _ _ _ =>
      refine (agreesM_op inside (Nat.le_refl _) word same).bind ?_
      rintro ⟨node, items⟩ ⟨_, items'⟩ ⟨rfl, left, few⟩
      dsimp only at left few
      refine (placed.operands depth _ _ left (by omega)).bind ?_
      rintro operands _ rfl
      exact agreesM_pure rfl

/-- The arms of a conditional are read alike at another place. -/
theorem placed_parseArms (consequent alternate : List Node) {es es' : List SExpr}
    (same : List.Forall₂ SExpr.Same es es') (enough : 2 * SExpr.size es < min (fuel + 1) (fuel' + 1)) :
    AgreesM Eq Eq (parseArms (fuel + 1) depth es consequent alternate)
      (parseArms (fuel' + 1) depth es' consequent alternate) := by
  unfold parseArms
  cases same with
  | nil => exact agreesM_pure rfl
  | @cons e e' es es' first others =>
    have one := SExpr.one_le_size e
    have inside := sameItems_ofExpr first
    have less := size_ofExpr_lt e
    rw [SExpr.size_cons] at enough
    dsimp only
    rw [first.isHeadedBy, first.isHeadedBy, first.isList]
    split
    · refine (placed.sequence depth _ _ _ inside (by omega)).bind ?_
      rintro ⟨consequent, _, _⟩ ⟨_, _, _⟩ ⟨rfl, -, -, -⟩
      exact placed.arms depth _ _ consequent alternate others (by omega)
    split
    · refine (placed.sequence depth _ _ _ inside (by omega)).bind ?_
      rintro ⟨alternate, _, _⟩ ⟨_, _, _⟩ ⟨rfl, -, -, -⟩
      exact placed.arms depth _ _ consequent alternate others (by omega)
    split
    · refine (placed.folded depth _ _ first (by omega)).bind ?_
      rintro here _ rfl
      refine (placed.arms depth _ _ consequent alternate others (by omega)).bind ?_
      rintro ⟨condition, consequent, alternate⟩ _ rfl
      exact agreesM_pure rfl
    · exact agreesM_lift (agrees_unexpected first)

/-- Operands are read alike at another place. -/
theorem placed_parseOperands {es es' : List SExpr} (same : List.Forall₂ SExpr.Same es es')
    (enough : 2 * SExpr.size es < min (fuel + 1) (fuel' + 1)) :
    AgreesM Eq Eq (parseOperands (fuel + 1) depth es) (parseOperands (fuel' + 1) depth es') := by
  unfold parseOperands
  cases same with
  | nil => exact agreesM_pure rfl
  | @cons e e' es es' first others =>
    have one := SExpr.one_le_size e
    rw [SExpr.size_cons] at enough
    dsimp only
    rw [first.isList]
    split
    · refine (placed.folded depth _ _ first (by omega)).bind ?_
      rintro here _ rfl
      refine (placed.operands depth _ _ others (by omega)).bind ?_
      rintro nodes _ rfl
      exact agreesM_pure rfl
    · exact agreesM_lift (agrees_unexpected first)

end Steps

/-- Without fuel for one of two readers, there is never enough. -/
theorem placed_of_zero {fuel fuel' : Nat} (none_ : min fuel fuel' = 0) : Placed fuel fuel' where
  sequence _ _ _ _ _ enough := by omega
  plain _ _ _ _ _ _ _ _ enough := by omega
  folded _ e _ _ enough := by
    have one := SExpr.one_le_size e
    omega
  arms _ _ _ _ _ _ enough := by omega
  operands _ _ _ _ enough := by omega

/-- Readers of instructions agree whatever fuel they have, if it is enough. -/
theorem placed (fuel fuel' : Nat) : Placed fuel fuel' := by
  induction fuel generalizing fuel' with
  | zero => exact placed_of_zero (Nat.zero_min _)
  | succ fuel ih =>
    cases fuel' with
    | zero => exact placed_of_zero (Nat.min_zero _)
    | succ fuel' =>
      have placed := ih fuel'
      exact {
        sequence := fun depth stops _ _ => placed_parseSequence placed depth stops
        plain := fun depth word _ _ _ _ => placed_parsePlain placed depth word
        folded := fun depth _ _ => placed_parseFolded placed depth
        arms := fun depth _ _ consequent alternate => placed_parseArms placed depth consequent alternate
        operands := fun depth _ _ => placed_parseOperands placed depth }

/-- Instructions are read as the same nodes at whatever places. -/
theorem agreesM_parseBody {fuel fuel' : Nat} {i i' : Items} (same : SameItems i i')
    (enough : 2 * SExpr.size i.rest < min fuel fuel') : AgreesM Eq Eq (parseBody fuel i) (parseBody fuel' i') := by
  refine ((placed fuel fuel').sequence 0 [] i i' same enough).bind ?_
  rintro ⟨body, _, _⟩ ⟨_, _, _⟩ ⟨rfl, -, -, -⟩
  exact agreesM_pure rfl

end WasmEngine.Wat
