import WasmEngine.Proofs.Machine.IntegerInstructions
import WasmEngine.Proofs.Machine.Operators

/-!
# Typed operators

What the checker gives a type the machine can run, and nothing else (`numeric_by_type`): an instruction that computes
takes operands of the types of its arguments off the stack and leaves one value of its result type there, or traps.
-/

namespace WasmEngine

/-! ## Names with a type -/

/-- A name with a type is listed, and it has an operator for that type unless it is a constant or an access. -/
theorem Signatures.exists_hasOperator {t : Valtype} {name : String} {type : FuncType}
    (typed : numeric? t name = some type) (notConst : name ≠ "const")
    (notLoad : Text.beginsWith "load" name = false) (notStore : Text.beginsWith "store" name = false) :
    ∃ op : Opcode, op.name = name ∧ op.typeOn t = type ∧ op.hasOperator t = true := by
  obtain ⟨op, listed, object, rfl, type⟩ := numeric?_eq_some_iff.1 typed
  obtain ⟨-, -, -, operator⟩ := Opcode.numeric_checked op listed t object
  exact ⟨op, rfl, type, operator notConst notLoad notStore⟩

namespace Stack

variable {t source : Valtype} {name op rest : String} {type : FuncType}

/-! ## Conversions

Conversions stand beside the operators of one and of two operands (`computes_unary`, `computes_binary`); their
operand has a type of its own.
-/

/-- A listed conversion computes the operation of its name. -/
theorem computes_convert {a : Value} (typed : Signatures.numeric? t name = some type)
    (conversion : Text.cut? '/' name = some (op, rest)) (args : type.args = [source]) (sourced : a.type = source) :
    Computes t name [a] (a.convert t op) := by
  intro entries
  unfold numeric
  rw [typed]
  simp only [conversion, args]
  show (popTyped source >>= fun a => ofResult (a.convert t op) >>= push) ⟨.value a :: entries⟩ = _
  simp only [bind, EStateM.bind, popTyped_value sourced]
  exact push_ofResult entries

/-! ## Types and operators -/

/-- An instruction that computes gives one value of its result type, or traps. -/
theorem computes_of_type (typed : Signatures.numeric? t name = some type) (notConst : name ≠ "const")
    (notLoad : Text.beginsWith "load" name = false) (notStore : Text.beginsWith "store" name = false) :
    ∃ r, type.result = [r] ∧ ∀ operands : List Value, operands.map Value.type = type.args →
      ∃ result, GivesOrTraps r result ∧ Computes t name operands result := by
  obtain ⟨op, rfl, signature, operator⟩ := Signatures.exists_hasOperator typed notConst notLoad notStore
  unfold Opcode.hasOperator at operator
  rw [signature] at operator
  -- the cases are those in which an instruction is run: a conversion, one operand and two operands
  split at operator
  · next id rest source r conversion =>
    rw [Bool.and_eq_true, beq_iff_eq] at operator
    obtain ⟨rfl, known⟩ := operator
    refine ⟨r, rfl, fun operands sorts => ?_⟩
    obtain ⟨a, rfl, sourced⟩ := List.map_eq_singleton_iff.1 sorts
    exact ⟨_, Value.convert_gives known sourced, computes_convert typed conversion rfl sourced⟩
  · next argument r plain =>
    rw [Bool.and_eq_true, beq_iff_eq] at operator
    obtain ⟨rfl, known⟩ := operator
    refine ⟨r, rfl, fun operands sorts => ?_⟩
    obtain ⟨a, rfl, here⟩ := List.map_eq_singleton_iff.1 sorts
    exact ⟨_, Value.unary_gives known here, computes_unary typed plain rfl here⟩
  · next left right r plain =>
    rw [Bool.and_eq_true, Bool.and_eq_true, beq_iff_eq, beq_iff_eq] at operator
    obtain ⟨⟨rfl, rfl⟩, known⟩ := operator
    refine ⟨r, rfl, fun operands sorts => ?_⟩
    obtain ⟨a, others, rfl, here, sorts⟩ := List.map_eq_cons_iff.1 sorts
    obtain ⟨b, rfl, there⟩ := List.map_eq_singleton_iff.1 sorts
    exact ⟨_, Value.binary_gives known here there, computes_binary typed plain rfl here there⟩
  · cases operator

/-- A name without a signature is an unknown instruction, and leaves the stack as it was. -/
theorem numeric_of_untyped (untyped : Signatures.numeric? t name = none) (s : Stack) :
    numeric t name s = .error (.unknownInstruction (mnemonic (some t) name)) s := by
  unfold numeric
  rw [untyped]
  rfl

/-- **The types and the operators of instructions agree.**  An instruction with a type that is neither a constant nor
an access has one result.  From any stack it takes operands of the types of its arguments, the last one on top, and
leaves in their place one value of the type of its result, whatever is below them; otherwise it traps.  A name without
a type is unknown, and the stack stays as it is. -/
theorem numeric_by_type (t : Valtype) (name : String) :
    (∀ type, Signatures.numeric? t name = some type → name ≠ "const" → Text.beginsWith "load" name = false →
      Text.beginsWith "store" name = false →
        ∃ r, type.result = [r] ∧ ∀ (operands : List Value) (rest : List StackEntry),
          operands.map Value.type = type.args →
            (∃ v, v.type = r ∧ numeric t name ⟨(operands.map StackEntry.value).reverse ++ rest⟩ =
              .ok () ⟨.value v :: rest⟩) ∨
            ∃ kind, numeric t name ⟨(operands.map StackEntry.value).reverse ++ rest⟩ =
              .error (.trap kind) ⟨rest⟩) ∧
    (Signatures.numeric? t name = none →
      ∀ s, numeric t name s = .error (.unknownInstruction (mnemonic (some t) name)) s) := by
  refine ⟨fun type typed notConst notLoad notStore => ?_, numeric_of_untyped⟩
  obtain ⟨r, single, computes⟩ := computes_of_type typed notConst notLoad notStore
  refine ⟨r, single, fun operands rest sorts => ?_⟩
  obtain ⟨result, gives, runs⟩ := computes operands sorts
  rw [runs rest]
  cases result with
  | ok v => exact .inl ⟨v, gives, rfl⟩
  | error e =>
    obtain ⟨kind, rfl⟩ := gives
    exact .inr ⟨kind, rfl⟩

/-- A truncation has its operand from another type, and one of its two ends for each operand. -/
theorem numeric_by_type_truncation :
    Signatures.numeric? .i32 "trunc_s/f64" = some ⟨[.f64], [.i32]⟩ ∧ ∀ bits rest,
      (∃ v, v.type = .i32 ∧ numeric .i32 "trunc_s/f64" ⟨.value (.f64 bits) :: rest⟩ = .ok () ⟨.value v :: rest⟩) ∨
      ∃ kind, numeric .i32 "trunc_s/f64" ⟨.value (.f64 bits) :: rest⟩ = .error (.trap kind) ⟨rest⟩ := by
  have typed : Signatures.numeric? .i32 "trunc_s/f64" = some ⟨[.f64], [.i32]⟩ := by decide +kernel
  obtain ⟨r, single, runs⟩ :=
    (numeric_by_type .i32 "trunc_s/f64").1 _ typed (by decide) (by decide) (by decide)
  cases single
  exact ⟨typed, fun bits rest => runs [.f64 bits] rest rfl⟩

example : numeric .i32 "trunc_s/f64" ⟨[.value (.f64 0x7ff8000000000000), .label 3]⟩ =
    .error (.trap .invalidConversion) ⟨[.label 3]⟩ := by rfl

example : numeric .i64 "lt_u" ⟨[.value (.i64 2), .value (.i64 1), .label 3]⟩ =
    .ok () ⟨[.value (.i32 1), .label 3]⟩ := by rfl

end Stack

end WasmEngine
