import WasmEngine.Proofs.Outcome
import WasmEngine.Proofs.Typing.Declarative
import WasmEngine.Proofs.Typing.Operands
import WasmEngine.Typing.Check

/-!
# The checker decides the typing relation

A body passes the check of function bodies if and only if it has the type of its function
(`checkFunction_eq_ok_iff`).  Both halves follow the syntax.  A check that succeeds can be read
backwards: whatever types the stack after an instruction stands for, there are types before it from
which the instruction has a type.  And an instruction with a type can be checked forwards on every
stack that stands for its operands.
-/

namespace WasmEngine.Typing

open OperandType OperandStack Outcome

/-! ## Looking things up -/

@[simp] theorem operands_eq_ok_iff {α : Type} {r : Except OperandError α} {a : α} :
    operands r = .ok a ↔ r = .ok a := by
  cases r <;> simp [operands]

@[simp] theorem found_eq_ok_iff {α : Type} {r : Option α} {e : TypeError} {a : α} :
    found r e = .ok a ↔ r = some a := by
  cases r <;> simp [found]

@[simp] theorem indexArg_eq_ok_iff {name : String} {args : List Node} {at_ i : Nat} :
    indexArg name args at_ = .ok i ↔ args[at_]?.bind position? = some i := by
  unfold indexArg
  cases args[at_]? with
  | none => simp
  | some arg => cases arg <;> simp [position?]

@[simp] theorem resolved_eq_ok_iff {index : Index} {i : Nat} :
    resolved index = .ok i ↔ index.number? = some i := by
  cases index <;> simp [resolved, Index.number?]

/-- A memory instruction requires a memory. -/
@[simp] theorem requireMemory_eq_ok_iff {ctx : ModuleContext} {u : Unit} :
    requireMemory ctx = .ok u ↔ ctx.mems ≠ [] := by
  unfold requireMemory ModuleContext.memory?
  cases ctx.mems <;> simp

@[simp] theorem asConsequent_eq_ok_iff {α : Type} {r : Typed α} {a : α} :
    asConsequent r = .ok a ↔ r = .ok a := by
  cases r <;> simp [asConsequent]

@[simp] theorem asAlternate_eq_ok_iff {α : Type} {r : Typed α} {a : α} :
    asAlternate r = .ok a ↔ r = .ok a := by
  cases r <;> simp [asAlternate]

/-- A module without a table has no table 0. -/
theorem table?_zero_isNone {ctx : ModuleContext} :
    (ctx.table? 0).isNone = true ↔ ctx.tables = [] := by
  unfold ModuleContext.table?
  cases ctx.tables <;> simp

/-- Branch targets are checked by their depths and label types. -/
theorem checkTargets_eq_ok_iff {frame : FuncFrame} {ts : List Valtype} {args : List Node}
    {positions : List Nat} {u : Unit} :
    checkTargets frame ts args positions = .ok u ↔
      ∀ p ∈ positions, ∃ depth,
        args[p]?.bind position? = some depth ∧ frame.label? depth = some ts := by
  induction positions with
  | nil => simp [checkTargets]
  | cons p positions ih =>
    simp only [checkTargets, labelTypes, bind_eq_ok_iff, indexArg_eq_ok_iff, found_eq_ok_iff,
      List.forall_mem_cons]
    constructor
    · rintro ⟨depth, index, target, label, h⟩
      split at h
      · next same => exact ⟨⟨depth, index, same ▸ label⟩, ih.1 h⟩
      · exact absurd h (by simp)
    · rintro ⟨⟨depth, index, label⟩, h⟩
      exact ⟨depth, index, ts, label, by simpa using ih.2 h⟩

/-- All labels of a branch table carry the same types if and only if the default does and those
before it carry what it carries. -/
theorem forall_targets_iff {frame : FuncFrame} {ts : List Valtype} {args : List Node}
    (nonempty : args ≠ []) :
    (∀ arg ∈ args, ∃ depth, position? arg = some depth ∧ frame.label? depth = some ts) ↔
      (∃ depth, args[args.length - 1]?.bind position? = some depth ∧ frame.label? depth = some ts) ∧
      ∀ p ∈ List.range (args.length - 1),
        ∃ depth, args[p]?.bind position? = some depth ∧ frame.label? depth = some ts := by
  have pos : 0 < args.length := List.length_pos_iff.2 nonempty
  constructor
  · intro all
    have at_ : ∀ p, p < args.length →
        ∃ depth, args[p]?.bind position? = some depth ∧ frame.label? depth = some ts := by
      intro p bound
      simpa [List.getElem?_eq_getElem bound] using all args[p] (List.getElem_mem bound)
    exact ⟨at_ _ (by omega), fun p mem => at_ p (by have := List.mem_range.1 mem; omega)⟩
  · rintro ⟨last, before⟩ arg mem
    obtain ⟨p, bound, rfl⟩ := List.getElem_of_mem mem
    have here : ∃ depth, args[p]?.bind position? = some depth ∧ frame.label? depth = some ts := by
      by_cases isLast : p = args.length - 1
      · exact isLast ▸ last
      · exact before p (List.mem_range.2 (by omega))
    simpa [List.getElem?_eq_getElem bound] using here

set_option maxRecDepth 4000 in
/-- The instructions named as loads and stores are those with a memory immediate. -/
theorem accessesMemory_iff : ∀ op ∈ Opcode.table, op.object.isSome →
    ((Text.beginsWith "load" op.name || Text.beginsWith "store" op.name) = true ↔
      op.immediate = .memArg) := by
  intro op listed
  rw [Text.beginsWith, Text.beginsWith, Opcode.toList_name listed]
  revert op
  decide +kernel

/-! ## What a check that succeeds says -/

/-- From types after an instruction to types before it. -/
def Backwards (ctx : ModuleContext) (frame : FuncFrame) (node : Node) (s s' : OperandStack) :
    Prop :=
  ∀ ts', s'.StandsFor ts' → ∃ base ts us, HasType ctx frame node ts us ∧ ts' = base ++ us ∧
    s.StandsFor (base ++ ts)

variable {ctx : ModuleContext} {frame : FuncFrame}

/-- A type that applies to an operand stack is a typing of what the stack stands for. -/
theorem backwards_of_apply {node : Node} {s s' : OperandStack} {type : FuncType}
    (typed : HasType ctx frame node type.args type.result) (checked : apply s type = .ok s') :
    Backwards ctx frame node s s' := by
  simp only [apply, bind_eq_ok_iff, operands_eq_ok_iff, pure_eq_ok_iff] at checked
  obtain ⟨mid, taken, rfl⟩ := checked
  intro ts' after
  obtain ⟨base, rfl, rest⟩ := (pushAll_standsFor mid _ _).1 after
  exact ⟨base, _, _, typed, rfl, standsFor_of_popAll taken rest⟩

/-- A numeric instruction is accepted exactly when it is listed, has a memory if it needs one, and its type
applies. -/
theorem checkNumeric_eq_ok_iff {t : Valtype} {id : String} {s s' : OperandStack} :
    checkNumeric ctx t id s = .ok s' ↔ ∃ op ∈ Opcode.table, op.object = some t ∧ op.name = id ∧
      (op.immediate = .memArg → ctx.mems ≠ []) ∧ apply s (op.typeOn t) = .ok s' := by
  have typed : (do
      let type ← found (Signatures.numeric? t id) (.unknownInstruction (mnemonic (some t) id))
      apply s type) = .ok s' ↔ ∃ op ∈ Opcode.table, op.object = some t ∧ op.name = id ∧
        apply s (op.typeOn t) = .ok s' := by
    simp only [bind_eq_ok_iff, found_eq_ok_iff, Signatures.numeric?_eq_some_iff]
    constructor
    · rintro ⟨_, ⟨op, listed, object, name, rfl⟩, checked⟩
      exact ⟨op, listed, object, name, checked⟩
    · rintro ⟨op, listed, object, name, checked⟩
      exact ⟨_, ⟨op, listed, object, name, rfl⟩, checked⟩
  unfold checkNumeric
  split
  · next accesses =>
    rw [bind_eq_ok_iff]
    simp only [requireMemory_eq_ok_iff, typed]
    constructor
    · rintro ⟨_, memory, op, listed, object, name, checked⟩
      exact ⟨op, listed, object, name, fun _ => memory, checked⟩
    · rintro ⟨op, listed, object, rfl, memory, checked⟩
      have isAccess := (accessesMemory_iff op listed (by simp [object])).1 accesses
      exact ⟨(), memory isAccess, op, listed, object, rfl, checked⟩
  · next accesses =>
    refine typed.trans ?_
    constructor
    · rintro ⟨op, listed, object, rfl, checked⟩
      have noAccess := fun i => accesses ((accessesMemory_iff op listed (by simp [object])).2 i)
      exact ⟨op, listed, object, rfl, fun i => absurd i noAccess, checked⟩
    · rintro ⟨op, listed, object, name, -, checked⟩
      exact ⟨op, listed, object, name, checked⟩

/-- The cases are the instructions in the order of the checker. -/
theorem backwards_of_checkPlain {id : String} {args : List Node} {memArg : Option MemArg}
    {s s' : OperandStack} (checked : checkPlain ctx frame id args s = .ok s') :
    Backwards ctx frame (.instr id none args memArg) s s' := by
  intro ts' after
  unfold checkPlain at checked
  split at checked
  · cases checked
    exact ⟨ts', [], [], .nop, by simp, by simpa using after⟩
  · cases checked
    exact ⟨ts', [], [], .finish, by simp, by simpa using after⟩
  · obtain ⟨ts, before⟩ := exists_standsFor s
    exact ⟨[], ts, ts', .unreachable, rfl, before⟩
  · simp only [bind_eq_ok_iff, operands_eq_ok_iff, pure_eq_ok_iff] at checked
    obtain ⟨⟨found, _⟩, taken, rfl⟩ := checked
    -- A dropped operand of unknown type may be taken to be of any type.
    obtain ⟨t, fits⟩ : ∃ t, found.fits (val t) := by
      cases found with
      | any => exact ⟨.i32, rfl⟩
      | val t => exact ⟨t, (val_fits_val t t).2 rfl⟩
    exact ⟨ts', [t], [], .drop, by simp, standsFor_of_pop taken fits after⟩
  · simp only [bind_eq_ok_iff, operands_eq_ok_iff, pure_eq_ok_iff] at checked
    obtain ⟨⟨_, s₁⟩, condition, ⟨first, s₂⟩, takeFirst, ⟨second, s₃⟩, takeSecond, rfl⟩ := checked
    obtain ⟨ts, t, rfl, fits, rest⟩ := (push_standsFor _ _ _).1 after
    have agree := fits_of_pop takeSecond
    have both : first.fits (val t) ∧ second.fits (val t) := by
      cases first <;> cases second <;> simp_all
    have below := standsFor_of_pop takeFirst both.1 (standsFor_of_pop takeSecond both.2 rest)
    exact ⟨ts, [t, t, .i32], [t], .select, rfl, by simpa using standsFor_of_pop_val condition below⟩
  · simp only [bind_eq_ok_iff, indexArg_eq_ok_iff, found_eq_ok_iff, pure_eq_ok_iff] at checked
    obtain ⟨i, index, t, declared, rfl⟩ := checked
    obtain ⟨ts, u, rfl, fits, rest⟩ := (push_standsFor _ _ _).1 after
    rw [val_fits_val] at fits
    exact ⟨ts, [], [t], .getLocal index declared, by rw [fits], by simpa using rest⟩
  · simp only [bind_eq_ok_iff, indexArg_eq_ok_iff, found_eq_ok_iff, operands_eq_ok_iff,
      pure_eq_ok_iff] at checked
    obtain ⟨i, index, t, declared, ⟨_, _⟩, taken, rfl⟩ := checked
    exact ⟨ts', [t], [], .setLocal index declared, by simp, standsFor_of_pop_val taken after⟩
  · simp only [bind_eq_ok_iff, indexArg_eq_ok_iff, found_eq_ok_iff, operands_eq_ok_iff,
      pure_eq_ok_iff] at checked
    obtain ⟨i, index, t, declared, ⟨_, _⟩, taken, rfl⟩ := checked
    obtain ⟨ts, u, rfl, fits, rest⟩ := (push_standsFor _ _ _).1 after
    rw [val_fits_val] at fits
    exact ⟨ts, [t], [t], .teeLocal index declared, by rw [fits], standsFor_of_pop_val taken rest⟩
  · simp only [bind_eq_ok_iff, indexArg_eq_ok_iff, found_eq_ok_iff, pure_eq_ok_iff] at checked
    obtain ⟨i, index, g, declared, rfl⟩ := checked
    obtain ⟨ts, u, rfl, fits, rest⟩ := (push_standsFor _ _ _).1 after
    rw [val_fits_val] at fits
    exact ⟨ts, [], [g.valtype], .getGlobal index declared, by rw [fits], by simpa using rest⟩
  · simp only [bind_eq_ok_iff, indexArg_eq_ok_iff, found_eq_ok_iff] at checked
    obtain ⟨i, index, ⟨t, mutability⟩, declared, checked⟩ := checked
    cases mutability with
    | const => simp [bind_eq_ok_iff] at checked
    | var =>
      rw [if_neg (by simp)] at checked
      simp only [bind_eq_ok_iff, operands_eq_ok_iff, pure_eq_ok_iff] at checked
      obtain ⟨⟨_, _⟩, taken, rfl⟩ := checked
      exact ⟨ts', [t], [], .setGlobal index declared, by simp, standsFor_of_pop_val taken after⟩
  · simp only [bind_eq_ok_iff, indexArg_eq_ok_iff, labelTypes, found_eq_ok_iff, operands_eq_ok_iff]
      at checked
    obtain ⟨depth, index, ts, label, rest, taken, -⟩ := checked
    obtain ⟨base, below⟩ := exists_standsFor rest
    exact ⟨[], base ++ ts, ts', .br index label, rfl, (standsFor_of_popAll taken below :)⟩
  · simp only [bind_eq_ok_iff, indexArg_eq_ok_iff, labelTypes, found_eq_ok_iff, operands_eq_ok_iff,
      pure_eq_ok_iff] at checked
    obtain ⟨depth, index, ts, label, ⟨_, mid⟩, condition, rest, taken, rfl⟩ := checked
    obtain ⟨base, rfl, below⟩ := (pushAll_standsFor _ _ _).1 after
    have onTop := standsFor_of_pop_val condition (standsFor_of_popAll taken below)
    exact ⟨base, ts ++ [.i32], ts, .brIf index label, rfl, by simpa using onTop⟩
  · split at checked
    · simp [bind_eq_ok_iff] at checked
    · next nonempty =>
      rw [List.isEmpty_iff] at nonempty
      simp only [bind_eq_ok_iff, indexArg_eq_ok_iff, labelTypes, found_eq_ok_iff,
        operands_eq_ok_iff, checkTargets_eq_ok_iff] at checked
      obtain ⟨depth, index, ts, label, _, targets, ⟨_, mid⟩, condition, rest, taken, -⟩ := checked
      obtain ⟨base, below⟩ := exists_standsFor rest
      have labels := (forall_targets_iff nonempty).2 ⟨⟨depth, index, label⟩, targets⟩
      have onTop := standsFor_of_pop_val condition (standsFor_of_popAll taken below)
      exact ⟨[], base ++ ts ++ [.i32], ts', .brTable nonempty labels, rfl, onTop⟩
  · simp only [bind_eq_ok_iff, operands_eq_ok_iff] at checked
    obtain ⟨rest, taken, -⟩ := checked
    obtain ⟨base, below⟩ := exists_standsFor rest
    exact ⟨[], base ++ frame.returns, ts', .ret, rfl, (standsFor_of_popAll taken below :)⟩
  · simp only [bind_eq_ok_iff, requireMemory_eq_ok_iff, pure_eq_ok_iff] at checked
    obtain ⟨_, memory, rfl⟩ := checked
    obtain ⟨ts, u, rfl, fits, rest⟩ := (push_standsFor _ _ _).1 after
    rw [val_fits_val] at fits
    exact ⟨ts, [], [.i32], .currentMemory memory, by rw [fits], by simpa using rest⟩
  · simp only [bind_eq_ok_iff, requireMemory_eq_ok_iff, operands_eq_ok_iff, pure_eq_ok_iff]
      at checked
    obtain ⟨_, memory, ⟨_, _⟩, taken, rfl⟩ := checked
    obtain ⟨ts, u, rfl, fits, rest⟩ := (push_standsFor _ _ _).1 after
    rw [val_fits_val] at fits
    exact ⟨ts, [.i32], [.i32], .growMemory memory, by rw [fits], standsFor_of_pop_val taken rest⟩
  · exact absurd checked (by simp)

/-- What is typed from an empty stack stands on no operands. -/
theorem sequence_of_empty {nodes : List Node} {us : List Valtype}
    (h : ∃ ts, SequenceHasType ctx frame nodes ts us ∧ OperandStack.empty.StandsFor ts) :
    SequenceHasType ctx frame nodes [] us := by
  obtain ⟨ts, typed, before⟩ := h
  exact (empty_standsFor ts).1 before ▸ typed

mutual

/-- An instruction that is accepted is typed. -/
theorem backwards_of_checkInstruction {frame : FuncFrame} {s s' : OperandStack} :
    ∀ node, checkInstruction ctx frame s node = .ok s' → Backwards ctx frame node s s'
  | .instr id (some t) args memArg, checked => by
    obtain ⟨op, listed, object, rfl, memory, applied⟩ := checkNumeric_eq_ok_iff.1 checked
    exact backwards_of_apply (.onType listed object memory) applied
  | .instr id none args memArg, checked => backwards_of_checkPlain checked
  | .block label body result, checked => by
    simp only [checkInstruction, bind_eq_ok_iff, operands_eq_ok_iff, pure_eq_ok_iff] at checked
    obtain ⟨inner, run, _, exact_, rfl⟩ := checked
    have typed := sequence_of_empty
      (sequence_of_checkSequence body run _ (expectExactly_eq_ok_iff.1 exact_))
    intro ts' after
    obtain ⟨base, rfl, rest⟩ := (pushAll_standsFor _ _ _).1 after
    exact ⟨base, [], _, .block typed, rfl, by simpa using rest⟩
  | .loop label result body, checked => by
    simp only [checkInstruction, bind_eq_ok_iff, operands_eq_ok_iff, pure_eq_ok_iff] at checked
    obtain ⟨inner, run, _, exact_, rfl⟩ := checked
    have typed := sequence_of_empty
      (sequence_of_checkSequence body run _ (expectExactly_eq_ok_iff.1 exact_))
    intro ts' after
    obtain ⟨base, rfl, rest⟩ := (pushAll_standsFor _ _ _).1 after
    exact ⟨base, [], _, .loop typed, rfl, by simpa using rest⟩
  | .ifElse label result consequent alternate, checked => by
    simp only [checkInstruction, bind_eq_ok_iff, operands_eq_ok_iff, pure_eq_ok_iff,
      asConsequent_eq_ok_iff, asAlternate_eq_ok_iff] at checked
    obtain ⟨⟨_, mid⟩, condition, _, ⟨whenTrue, runTrue, exactTrue⟩, _,
      ⟨whenFalse, runFalse, exactFalse⟩, rfl⟩ := checked
    have typedTrue := sequence_of_empty
      (sequence_of_checkSequence consequent runTrue _ (expectExactly_eq_ok_iff.1 exactTrue))
    have typedFalse := sequence_of_empty
      (sequence_of_checkSequence alternate runFalse _ (expectExactly_eq_ok_iff.1 exactFalse))
    intro ts' after
    obtain ⟨base, rfl, rest⟩ := (pushAll_standsFor _ _ _).1 after
    exact ⟨base, [.i32], _, .ifElse typedTrue typedFalse, rfl, standsFor_of_pop_val condition rest⟩
  | .call index, checked => by
    simp only [checkInstruction, bind_eq_ok_iff, resolved_eq_ok_iff, found_eq_ok_iff] at checked
    obtain ⟨i, resolved, type, declared, applied⟩ := checked
    exact backwards_of_apply (.call resolved declared) applied
  | .callIndirect signature, checked => by
    simp only [checkInstruction] at checked
    split at checked
    · simp [bind_eq_ok_iff] at checked
    · next table =>
      rw [table?_zero_isNone] at table
      simp only [bind_eq_ok_iff, operands_eq_ok_iff] at checked
      obtain ⟨⟨_, mid⟩, condition, applied⟩ := checked
      simp only [apply, bind_eq_ok_iff, operands_eq_ok_iff, pure_eq_ok_iff] at applied
      obtain ⟨rest, taken, rfl⟩ := applied
      intro ts' after
      obtain ⟨base, rfl, below⟩ := (pushAll_standsFor _ _ _).1 after
      have onTop := standsFor_of_pop_val condition (standsFor_of_popAll taken below)
      exact ⟨base, _, _, .callIndirect table, rfl, by simpa using onTop⟩

/-- A sequence that is accepted is typed. -/
theorem sequence_of_checkSequence {frame : FuncFrame} {s s' : OperandStack} :
    ∀ nodes, checkSequence ctx frame s nodes = .ok s' → ∀ ts', s'.StandsFor ts' →
      ∃ ts, SequenceHasType ctx frame nodes ts ts' ∧ s.StandsFor ts
  | [], checked, ts', after => by
    cases checked
    exact ⟨ts', .nil, after⟩
  | node :: nodes, checked, ts', after => by
    simp only [checkSequence, bind_eq_ok_iff] at checked
    obtain ⟨mid, first, rest⟩ := checked
    obtain ⟨us, typed, between⟩ := sequence_of_checkSequence nodes rest ts' after
    obtain ⟨base, ts, vs, here, rfl, before⟩ := backwards_of_checkInstruction node first us between
    exact ⟨base ++ ts, .cons here typed, before⟩

end

/-! ## What a type says about the check -/

/-- An instruction passes on every stack that stands for its operands, which become its results. -/
def Forwards (ctx : ModuleContext) (frame : FuncFrame) (node : Node) (ts us : List Valtype) :
    Prop :=
  ∀ s base, s.StandsFor (base ++ ts) →
    ∃ s', checkInstruction ctx frame s node = .ok s' ∧ s'.StandsFor (base ++ us)

/-- An instruction type applies to every stack that stands for its operands. -/
theorem exists_apply {s : OperandStack} {base : List Valtype} {type : FuncType}
    (before : s.StandsFor (base ++ type.args)) :
    ∃ s', apply s type = .ok s' ∧ s'.StandsFor (base ++ type.result) := by
  obtain ⟨mid, taken, rest⟩ := exists_popAll before
  refine ⟨mid.pushAll type.result, ?_, (pushAll_standsFor _ _ _).2 ⟨base, rfl, rest⟩⟩
  simp only [apply, bind_eq_ok_iff, operands_eq_ok_iff, pure_eq_ok_iff]
  exact ⟨mid, taken, rfl⟩

/-- An operand of a type is popped from every stack that stands for it. -/
theorem exists_pop_val {s : OperandStack} {ts : List Valtype} {t : Valtype}
    (before : s.StandsFor (ts ++ [t])) : ∃ p, s.pop (val t) = .ok p ∧ p.2.StandsFor ts := by
  obtain ⟨found, s', taken, -, rest⟩ := exists_pop before ((val_fits_val t t).2 rfl)
  exact ⟨(found, s'), taken, rest⟩

/-- The types of a branch, which may lie anywhere below a condition of one operand. -/
theorem exists_pop_condition {s : OperandStack} {base ts : List Valtype}
    (before : s.StandsFor (base ++ (ts ++ [.i32]))) :
    ∃ p, s.pop (val .i32) = .ok p ∧ ∃ s', p.2.popAll ts = .ok s' ∧ s'.StandsFor base := by
  rw [← List.append_assoc] at before
  obtain ⟨p, taken, rest⟩ := exists_pop_val before
  exact ⟨p, taken, exists_popAll rest⟩

mutual

/-- An instruction that is typed is accepted. -/
theorem forwards_of_hasType {frame : FuncFrame} {node : Node} {ts us : List Valtype} :
    HasType ctx frame node ts us → Forwards ctx frame node ts us
  | .onType listed object memory, s, base, before => by
    obtain ⟨s', applied, after⟩ := exists_apply before
    exact ⟨s', checkNumeric_eq_ok_iff.2 ⟨_, listed, object, rfl, memory, applied⟩, after⟩
  | .nop, s, base, before => ⟨s, rfl, before⟩
  | .finish, s, base, before => ⟨s, rfl, before⟩
  | .unreachable, s, base, before => ⟨.unreachable, rfl, unreachable_standsFor _⟩
  | .drop, s, base, before => by
    obtain ⟨found, s', taken, -, rest⟩ := exists_pop before (any_fits _)
    refine ⟨s', ?_, by simpa using rest⟩
    simp only [checkInstruction, checkPlain, bind_eq_ok_iff, operands_eq_ok_iff, pure_eq_ok_iff]
    exact ⟨(found, s'), taken, rfl⟩
  | .select (t := t), s, base, before => by
    have split : base ++ [t, t, .i32] = base ++ [t] ++ [t] ++ [.i32] := by simp
    rw [split] at before
    obtain ⟨p, condition, onSecond⟩ := exists_pop_val before
    obtain ⟨first, s₂, takeFirst, fitsFirst, onFirst⟩ := exists_pop onSecond (any_fits _)
    obtain ⟨second, s₃, takeSecond, fitsSecond, rest⟩ := exists_pop onFirst fitsFirst
    refine ⟨s₃.push (if first = any then second else first), ?_, ?_⟩
    · simp only [checkInstruction, checkPlain, bind_eq_ok_iff, operands_eq_ok_iff, pure_eq_ok_iff]
      exact ⟨p, condition, (first, s₂), takeFirst, (second, s₃), takeSecond, rfl⟩
    · refine (push_standsFor _ _ _).2 ⟨base, t, rfl, ?_, rest⟩
      split <;> assumption
  | .getLocal (t := t) index declared, s, base, before => by
    refine ⟨s.push (val t), ?_,
      (push_standsFor _ _ _).2 ⟨base, t, rfl, by simp, by simpa using before⟩⟩
    simp only [checkInstruction, checkPlain, bind_eq_ok_iff, indexArg_eq_ok_iff, found_eq_ok_iff,
      pure_eq_ok_iff]
    exact ⟨_, index, _, declared, rfl⟩
  | .setLocal index declared, s, base, before => by
    obtain ⟨p, taken, rest⟩ := exists_pop_val before
    refine ⟨p.2, ?_, by simpa using rest⟩
    simp only [checkInstruction, checkPlain, bind_eq_ok_iff, indexArg_eq_ok_iff, found_eq_ok_iff,
      operands_eq_ok_iff, pure_eq_ok_iff]
    exact ⟨_, index, _, declared, p, taken, rfl⟩
  | .teeLocal (t := t) index declared, s, base, before => by
    obtain ⟨p, taken, rest⟩ := exists_pop_val before
    refine ⟨p.2.push (val t), ?_, (push_standsFor _ _ _).2 ⟨base, t, rfl, by simp, rest⟩⟩
    simp only [checkInstruction, checkPlain, bind_eq_ok_iff, indexArg_eq_ok_iff, found_eq_ok_iff,
      operands_eq_ok_iff, pure_eq_ok_iff]
    exact ⟨_, index, _, declared, p, taken, rfl⟩
  | .getGlobal (g := g) index declared, s, base, before => by
    refine ⟨s.push (val g.valtype), ?_,
      (push_standsFor _ _ _).2 ⟨base, g.valtype, rfl, by simp, by simpa using before⟩⟩
    simp only [checkInstruction, checkPlain, bind_eq_ok_iff, indexArg_eq_ok_iff, found_eq_ok_iff,
      pure_eq_ok_iff]
    exact ⟨_, index, _, declared, rfl⟩
  | .setGlobal index declared, s, base, before => by
    obtain ⟨p, taken, rest⟩ := exists_pop_val before
    refine ⟨p.2, ?_, by simpa using rest⟩
    simp only [checkInstruction, checkPlain, bind_eq_ok_iff, indexArg_eq_ok_iff, found_eq_ok_iff]
    refine ⟨_, index, _, declared, ?_⟩
    simp only [reduceCtorEq, if_false, bind_eq_ok_iff, operands_eq_ok_iff, pure_eq_ok_iff]
    exact ⟨p, taken, rfl⟩
  | .br index label, s, base, before => by
    rw [← List.append_assoc] at before
    obtain ⟨rest, taken, -⟩ := exists_popAll before
    refine ⟨.unreachable, ?_, unreachable_standsFor _⟩
    simp only [checkInstruction, checkPlain, labelTypes, bind_eq_ok_iff, indexArg_eq_ok_iff,
      found_eq_ok_iff, operands_eq_ok_iff, pure_eq_ok_iff]
    exact ⟨_, index, _, label, rest, taken, trivial⟩
  | .brIf index label, s, base, before => by
    obtain ⟨p, condition, rest, taken, below⟩ := exists_pop_condition before
    refine ⟨rest.pushAll _, ?_, (pushAll_standsFor _ _ _).2 ⟨base, rfl, below⟩⟩
    simp only [checkInstruction, checkPlain, labelTypes, bind_eq_ok_iff, indexArg_eq_ok_iff,
      found_eq_ok_iff, operands_eq_ok_iff, pure_eq_ok_iff]
    exact ⟨_, index, _, label, p, condition, rest, taken, rfl⟩
  | .brTable nonempty labels, s, base, before => by
    rw [List.append_assoc, ← List.append_assoc] at before
    obtain ⟨p, condition, rest, taken, -⟩ := exists_pop_condition before
    obtain ⟨⟨depth, index, label⟩, targets⟩ := (forall_targets_iff nonempty).1 labels
    refine ⟨.unreachable, ?_, unreachable_standsFor _⟩
    simp only [checkInstruction, checkPlain, List.isEmpty_iff, if_neg nonempty, labelTypes,
      bind_eq_ok_iff, indexArg_eq_ok_iff, found_eq_ok_iff, checkTargets_eq_ok_iff,
      operands_eq_ok_iff, pure_eq_ok_iff]
    exact ⟨depth, index, _, label, (), targets, p, condition, rest, taken, trivial⟩
  | .ret, s, base, before => by
    rw [← List.append_assoc] at before
    obtain ⟨rest, taken, -⟩ := exists_popAll before
    refine ⟨.unreachable, ?_, unreachable_standsFor _⟩
    simp only [checkInstruction, checkPlain, bind_eq_ok_iff, operands_eq_ok_iff, pure_eq_ok_iff]
    exact ⟨rest, taken, trivial⟩
  | .currentMemory memory, s, base, before => by
    refine ⟨s.push (val .i32), ?_,
      (push_standsFor _ _ _).2 ⟨base, .i32, rfl, by simp, by simpa using before⟩⟩
    simp only [checkInstruction, checkPlain, bind_eq_ok_iff, requireMemory_eq_ok_iff,
      pure_eq_ok_iff]
    exact ⟨(), memory, trivial⟩
  | .growMemory memory, s, base, before => by
    obtain ⟨p, taken, rest⟩ := exists_pop_val before
    refine ⟨p.2.push (val .i32), ?_, (push_standsFor _ _ _).2 ⟨base, .i32, rfl, by simp, rest⟩⟩
    simp only [checkInstruction, checkPlain, bind_eq_ok_iff, requireMemory_eq_ok_iff,
      operands_eq_ok_iff, pure_eq_ok_iff]
    exact ⟨(), memory, p, taken, rfl⟩
  | .block inner, s, base, before => by
    obtain ⟨s', run, after⟩ := check_of_sequence inner .empty ((empty_standsFor _).2 rfl)
    refine ⟨s.pushAll _, ?_,
      (pushAll_standsFor _ _ _).2 ⟨base, rfl, by simpa using before⟩⟩
    simp only [checkInstruction, bind_eq_ok_iff, operands_eq_ok_iff, pure_eq_ok_iff]
    exact ⟨s', run, (), expectExactly_eq_ok_iff.2 after, trivial⟩
  | .loop inner, s, base, before => by
    obtain ⟨s', run, after⟩ := check_of_sequence inner .empty ((empty_standsFor _).2 rfl)
    refine ⟨s.pushAll _, ?_,
      (pushAll_standsFor _ _ _).2 ⟨base, rfl, by simpa using before⟩⟩
    simp only [checkInstruction, bind_eq_ok_iff, operands_eq_ok_iff, pure_eq_ok_iff]
    exact ⟨s', run, (), expectExactly_eq_ok_iff.2 after, trivial⟩
  | .ifElse whenTrue whenFalse, s, base, before => by
    obtain ⟨p, condition, rest⟩ := exists_pop_val before
    obtain ⟨s₁, runTrue, afterTrue⟩ := check_of_sequence whenTrue .empty ((empty_standsFor _).2 rfl)
    obtain ⟨s₂, runFalse, afterFalse⟩ :=
      check_of_sequence whenFalse .empty ((empty_standsFor _).2 rfl)
    refine ⟨p.2.pushAll _, ?_, (pushAll_standsFor _ _ _).2 ⟨base, rfl, rest⟩⟩
    simp only [checkInstruction, bind_eq_ok_iff, operands_eq_ok_iff, pure_eq_ok_iff,
      asConsequent_eq_ok_iff, asAlternate_eq_ok_iff]
    exact ⟨p, condition, (), ⟨s₁, runTrue, expectExactly_eq_ok_iff.2 afterTrue⟩, (),
      ⟨s₂, runFalse, expectExactly_eq_ok_iff.2 afterFalse⟩, rfl⟩
  | .call resolved declared, s, base, before => by
    obtain ⟨s', applied, after⟩ := exists_apply before
    refine ⟨s', ?_, after⟩
    simp only [checkInstruction, bind_eq_ok_iff, resolved_eq_ok_iff, found_eq_ok_iff]
    exact ⟨_, resolved, _, declared, applied⟩
  | .callIndirect table, s, base, before => by
    rw [← List.append_assoc] at before
    obtain ⟨p, condition, rest⟩ := exists_pop_val before
    obtain ⟨s', applied, after⟩ := exists_apply rest
    refine ⟨s', ?_, after⟩
    simp only [checkInstruction, table?_zero_isNone, if_neg table, bind_eq_ok_iff,
      operands_eq_ok_iff]
    exact ⟨p, condition, applied⟩

/-- A sequence that is typed is accepted. -/
theorem check_of_sequence {frame : FuncFrame} {nodes : List Node} {ts us : List Valtype} :
    SequenceHasType ctx frame nodes ts us → ∀ s, s.StandsFor ts →
      ∃ s', checkSequence ctx frame s nodes = .ok s' ∧ s'.StandsFor us
  | .nil, s, before => ⟨s, rfl, before⟩
  | .cons first rest, s, before => by
    obtain ⟨mid, here, between⟩ := forwards_of_hasType first s _ before
    obtain ⟨s', there, after⟩ := check_of_sequence rest mid between
    refine ⟨s', ?_, after⟩
    simp only [checkSequence, bind_eq_ok_iff]
    exact ⟨mid, here, there⟩

end

/-- The body of a function that passes has the type of the function. -/
theorem functionHasType_of_check {ctx : ModuleContext} {f : Func}
    (passes : checkFunction ctx f = .ok ()) : FunctionHasType ctx f := by
  simp only [checkFunction, bind_eq_ok_iff, operands_eq_ok_iff, expectExactly_eq_ok_iff] at passes
  obtain ⟨s, run, after⟩ := passes
  exact sequence_of_empty (sequence_of_checkSequence f.body run _ after)

/-- **The checker decides the typing relation**: a function passes if and only if its body has the
type of the function. -/
theorem checkFunction_eq_ok_iff (ctx : ModuleContext) (f : Func) :
    checkFunction ctx f = .ok () ↔ FunctionHasType ctx f := by
  constructor
  · exact functionHasType_of_check
  · intro typed
    simp only [checkFunction, bind_eq_ok_iff, operands_eq_ok_iff, expectExactly_eq_ok_iff]
    exact check_of_sequence typed .empty ((empty_standsFor _).2 rfl)

end WasmEngine.Typing
