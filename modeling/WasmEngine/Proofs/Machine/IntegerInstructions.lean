import WasmEngine.Machine.Stack
import WasmEngine.Proofs.Machine.IntegerRules
import WasmEngine.Proofs.Typing.ListedTypes

/-!
# Integer instructions

Every instruction on integers besides constants, accesses and conversions takes its operands off the stack
and leaves there what the rules of its operator say (`computes_by_rule`).
-/

namespace WasmEngine

/-! ## Names -/

/-- The name of an operator of one operand. -/
def IntUnary.name : IntUnary → String
  | clz => "clz"
  | ctz => "ctz"
  | popcnt => "popcnt"

/-- The name of an operator of two operands. -/
def IntBinary.name : IntBinary → String
  | add => "add"
  | sub => "sub"
  | mul => "mul"
  | divS => "div_s"
  | divU => "div_u"
  | remS => "rem_s"
  | remU => "rem_u"
  | and => "and"
  | or => "or"
  | xor => "xor"
  | shl => "shl"
  | shrS => "shr_s"
  | shrU => "shr_u"
  | rotl => "rotl"
  | rotr => "rotr"

/-- The name of a comparison. -/
def IntCompare.name : IntCompare → String
  | eq => "eq"
  | ne => "ne"
  | ltS => "lt_s"
  | ltU => "lt_u"
  | gtS => "gt_s"
  | gtU => "gt_u"
  | leS => "le_s"
  | leU => "le_u"
  | geS => "ge_s"
  | geU => "ge_u"

/-- Unary operators are found by their names. -/
theorem IntUnary.ofName?_name (op : IntUnary) : ofName? op.name = some op := by cases op <;> rfl

theorem IntUnary.name_ne_eqz (op : IntUnary) : op.name ≠ "eqz" := by cases op <;> decide

/-- Binary operators are found by their names. -/
theorem IntBinary.ofName?_name (op : IntBinary) : ofName? op.name = some op := by cases op <;> rfl

/-- Comparisons are found by their names, which are no names of binary operators. -/
theorem IntCompare.ofName?_name (op : IntCompare) :
    ofName? op.name = some op ∧ IntBinary.ofName? op.name = none := by
  cases op <;> exact ⟨rfl, rfl⟩

namespace IntOperator

/-- The name of an operator on integers. -/
def name : IntOperator → String
  | eqz => "eqz"
  | unary op => op.name
  | binary op => op.name
  | compare op => op.name

/-- The number of operands of an operator. -/
def arity : IntOperator → Nat
  | eqz | unary _ => 1
  | binary _ | compare _ => 2

/-- The operators. -/
def all : List IntOperator :=
  [eqz, unary .clz, unary .ctz, unary .popcnt, binary .add, binary .sub, binary .mul, binary .divS,
    binary .divU, binary .remS, binary .remU, binary .and, binary .or, binary .xor, binary .shl,
    binary .shrS, binary .shrU, binary .rotl, binary .rotr, compare .eq, compare .ne, compare .ltS,
    compare .ltU, compare .gtS, compare .gtU, compare .leS, compare .leU, compare .geS, compare .geU]

/-- The list of operators is complete. -/
theorem mem_all (operator : IntOperator) : operator ∈ all := by
  cases operator with
  | eqz => decide
  | unary op | binary op | compare op => cases op <;> decide

end IntOperator

/-! ## The instruction set -/

namespace Opcode

/-- Whether an instruction on a type computes: it is no constant, no access and no conversion. -/
def IsOperator (op : Opcode) : Prop :=
  op.name ≠ "const" ∧ Text.beginsWith "load" op.name = false ∧ Text.beginsWith "store" op.name = false ∧
    Text.cut? '/' op.name = none

instance (op : Opcode) : Decidable op.IsOperator := by
  unfold IsOperator
  infer_instance

set_option maxRecDepth 4000 in
/-- The rows on integers that compute have the names of the operators, each of which is a row on either type. -/
theorem operators_checked : (∀ op ∈ table, ∀ t ∈ [Valtype.i32, .i64], op.object = some t → op.IsOperator →
      ∃ operator ∈ IntOperator.all, op.name = operator.name) ∧
    ∀ operator ∈ IntOperator.all, IsOperator ⟨0, none, operator.name⟩ ∧
      ∀ t ∈ [Valtype.i32, .i64], ∃ op ∈ rowsOn (some t), op.name = operator.name ∧
        (op.typeOn t).args = .replicate operator.arity t := by
  constructor
  · intro op listed
    simp only [IsOperator, Text.beginsWith, Text.cut?, toList_name listed]
    revert op
    decide +kernel
  · decide +kernel

/-- Every operator is listed for both integer types, with its operands and its result. -/
theorem listed_of_operator : ∀ operator ∈ IntOperator.all, ∀ t ∈ [Valtype.i32, .i64],
    ∃ op ∈ table, op.object = some t ∧ op.name = operator.name ∧ op.IsOperator ∧
      (op.typeOn t).args = .replicate operator.arity t := by
  intro operator known t integer
  obtain ⟨isOperator, rows⟩ := operators_checked.2 operator known
  obtain ⟨op, row, name, args⟩ := rows t integer
  obtain ⟨listed, object⟩ := mem_rowsOn.1 row
  refine ⟨op, listed, object, name, ?_, args⟩
  rw [IsOperator, name]
  exact isOperator

end Opcode

/-! ## Operands and results -/

namespace Stack

/-- A stack where a value was put on some entries, or on which a fault left them. -/
def leave (rest : List StackEntry) : Except Fault Value → EStateM.Result Fault Stack Unit
  | .ok v => .ok () ⟨.value v :: rest⟩
  | .error e => .error e ⟨rest⟩

/-- An instruction takes its operands, the last one on top, off any stack and leaves its result there. -/
def Computes (t : Valtype) (name : String) (operands : List Value) (result : Except Fault Value) : Prop :=
  ∀ rest, numeric t name ⟨(operands.map StackEntry.value).reverse ++ rest⟩ = leave rest result

section Computes

variable {t : Valtype} {name : String} {type : FuncType} {a b : Value} {operands : List Value}
  {result other : Except Fault Value}

/-- A typed pop of a value of that type gives it. -/
theorem popTyped_value (typed : a.type = t) (rest : List StackEntry) :
    popTyped t ⟨.value a :: rest⟩ = .ok a ⟨rest⟩ := by
  show (if a.type = t then pure a else throw (.typeMismatch t a.type) : StackM Value) ⟨rest⟩ = _
  rw [if_pos typed]
  rfl

/-- Pushing a result leaves it, or its fault, on the stack. -/
theorem push_ofResult (rest : List StackEntry) :
    (ofResult result >>= push) ⟨rest⟩ = leave rest result := by
  cases result <;> rfl

/-- A listed instruction with one operand computes the operation of its name. -/
theorem computes_unary (listed : Signatures.numeric? t name = some type) (plain : Text.cut? '/' name = none)
    (args : type.args = [t]) (typed : a.type = t) : Computes t name [a] (a.unary name) := by
  intro rest
  unfold numeric
  rw [listed]
  simp only [plain, args]
  show (popTyped t >>= fun a => ofResult (a.unary name) >>= push) ⟨.value a :: rest⟩ = _
  simp only [bind, EStateM.bind, popTyped_value typed]
  exact push_ofResult rest

/-- A listed instruction with two operands computes the operation of its name. -/
theorem computes_binary (listed : Signatures.numeric? t name = some type) (plain : Text.cut? '/' name = none)
    (args : type.args = [t, t]) (typedLeft : a.type = t) (typedRight : b.type = t) :
    Computes t name [a, b] (a.binary name b) := by
  intro rest
  unfold numeric
  rw [listed]
  simp only [plain, args]
  show (popTyped t >>= fun b => popTyped t >>= fun a => ofResult (a.binary name b) >>= push)
    ⟨.value b :: .value a :: rest⟩ = _
  simp only [bind, EStateM.bind, popTyped_value typedRight, popTyped_value typedLeft]
  exact push_ofResult rest

/-- An instruction computes one result. -/
theorem Computes.unique (first : Computes t name operands result) (second : Computes t name operands other) :
    result = other := by
  have same : leave [] result = leave [] other := (first []).symm.trans (second [])
  cases result <;> cases other <;> cases same <;> rfl

end Computes

end Stack

/-- The types of integers, the widths of their words and their values. -/
inductive IntegerType : (t : Valtype) → (w : Nat) → (BitVec w → Value) → Prop
  | i32 : IntegerType .i32 32 .i32
  | i64 : IntegerType .i64 64 .i64

/-- What an operator leaves on the stack; a truth value is a 32-bit integer. -/
def IntResult.value {w : Nat} (word : BitVec w → Value) : IntResult w → Except Fault Value
  | .word r => .ok (word r)
  | .truth holds => .ok (.i32 (if holds then 1 else 0))
  | .trap kind => .error (.trap kind)

namespace IntOperator

variable {w : Nat} (word : BitVec w → Value) (a b : BitVec w)

theorem intUnary_eqz : Value.intUnary word "eqz" a = (IntResult.truth (a.toNat = 0)).value word := by
  have zero : (a == 0#w) = decide (a.toNat = 0) := by
    rw [Bool.eq_iff_iff, beq_iff_eq, decide_eq_true_iff, ← BitVec.toNat_inj, BitVec.toNat_zero]
  show Except.ok (Value.ofBool (a == 0#w)) = _
  rw [zero]
  rfl

theorem intUnary_name (op : IntUnary) :
    Value.intUnary word op.name a = (IntResult.word (op.apply a)).value word := by
  rw [Value.intUnary, if_neg op.name_ne_eqz, op.ofName?_name]
  rfl

theorem intBinary_name (op : IntBinary) :
    Value.intBinary word op.name a b = (IntResult.ofExcept (op.apply a b)).value word := by
  rw [Value.intBinary, op.ofName?_name]
  dsimp only
  cases op.apply a b <;> rfl

theorem intBinary_compare (op : IntCompare) :
    Value.intBinary word op.name a b = (IntResult.truth (op.apply a b)).value word := by
  rw [Value.intBinary, op.ofName?_name.1, op.ofName?_name.2]
  rfl

end IntOperator

namespace IntegerType

variable {t : Valtype} {w : Nat} {word : BitVec w → Value} {operator : IntOperator}
  {operands : List (BitVec w)} {a b q r m : BitVec w}

theorem width_pos (integer : IntegerType t w word) : 0 < w := by cases integer <;> decide

theorem mem (integer : IntegerType t w word) : t ∈ [Valtype.i32, .i64] := by cases integer <;> decide

theorem type_word (integer : IntegerType t w word) (a : BitVec w) : (word a).type = t := by
  cases integer <;> rfl

/-- The values of an integer type are told apart by their words. -/
theorem word_inj (integer : IntegerType t w word) (same : word a = word b) : a = b := by
  cases integer <;> cases same <;> rfl

theorem unary_word (integer : IntegerType t w word) (name : String) (a : BitVec w) :
    (word a).unary name = Value.intUnary word name a := by cases integer <;> rfl

theorem binary_word (integer : IntegerType t w word) (name : String) (a b : BitVec w) :
    (word a).binary name (word b) = Value.intBinary word name a b := by cases integer <;> rfl

/-- An operator computes a result that agrees with its rules. -/
theorem computes_rule (integer : IntegerType t w word) (enough : operands.length = operator.arity) :
    ∃ result, operator.Rule operands result ∧
      Stack.Computes t operator.name (operands.map word) (result.value word) := by
  obtain ⟨op, listed, object, name, ⟨-, -, -, plain⟩, args⟩ :=
    Opcode.listed_of_operator operator operator.mem_all t integer.mem
  have typed : Signatures.numeric? t operator.name = some (op.typeOn t) :=
    Signatures.numeric?_eq_some_iff.2 ⟨op, listed, object, name, rfl⟩
  rw [name] at plain
  cases operator with
  | eqz =>
    obtain ⟨a, rfl⟩ := List.length_eq_one_iff.1 enough
    have computes := Stack.computes_unary typed plain args (integer.type_word a)
    rw [integer.unary_word, IntOperator.name, IntOperator.intUnary_eqz] at computes
    exact ⟨_, .eqz, computes⟩
  | unary op =>
    obtain ⟨a, rfl⟩ := List.length_eq_one_iff.1 enough
    have computes := Stack.computes_unary typed plain args (integer.type_word a)
    rw [integer.unary_word, IntOperator.name, IntOperator.intUnary_name] at computes
    exact ⟨_, .of_unary a op, computes⟩
  | binary op =>
    obtain ⟨a, b, rfl⟩ := List.length_eq_two.1 enough
    have computes := Stack.computes_binary typed plain args (integer.type_word a) (integer.type_word b)
    rw [integer.binary_word, IntOperator.name, IntOperator.intBinary_name] at computes
    exact ⟨_, .of_binary integer.width_pos a b op, computes⟩
  | compare op =>
    obtain ⟨a, b, rfl⟩ := List.length_eq_two.1 enough
    have computes := Stack.computes_binary typed plain args (integer.type_word a) (integer.type_word b)
    rw [integer.binary_word, IntOperator.name, IntOperator.intBinary_compare] at computes
    exact ⟨_, .of_compare a b op, computes⟩

/-- Every result that agrees with the rules is computed. -/
theorem computes_of_rule (integer : IntegerType t w word) (enough : operands.length = operator.arity)
    {result : IntResult w} (rule : operator.Rule operands result) :
    Stack.Computes t operator.name (operands.map word) (result.value word) := by
  obtain ⟨computed, agrees, computes⟩ := integer.computes_rule enough
  rwa [rule.unique agrees]

/-- A word that an operator of two operands computes agrees with its rules. -/
theorem rule_of_computes (integer : IntegerType t w word) (op : IntBinary)
    (computes : Stack.Computes t op.name [word a, word b] (.ok (word r))) :
    IntOperator.Rule (.binary op) [a, b] (.word r) := by
  have rule : IntOperator.Rule (.binary op) [a, b] _ := .of_binary integer.width_pos a b op
  have enough : [a, b].length = (IntOperator.binary op).arity := rfl
  have same := computes.unique (integer.computes_of_rule enough rule)
  cases result : op.apply a b with
  | error kind =>
    rw [result] at same
    cases same
  | ok s =>
    rw [result] at same rule
    rwa [integer.word_inj (Except.ok.inj same)]

/-- A signed quotient and remainder make up the dividend. -/
theorem eq_of_signed_division (quotient : q.toInt = a.toInt.tdiv b.toInt)
    (remainder : r.toInt = a.toInt.tmod b.toInt) : a = q * b + r := by
  have parts := Int.mul_tdiv_add_tmod a.toInt b.toInt
  rw [← quotient, ← remainder, Int.mul_comm] at parts
  rw [← BitVec.ofInt_toInt (x := a), ← parts, BitVec.ofInt_add, BitVec.ofInt_mul, BitVec.ofInt_toInt,
    BitVec.ofInt_toInt, BitVec.ofInt_toInt]

/-- An unsigned quotient and remainder make up the dividend. -/
theorem eq_of_unsigned_division (quotient : q.toNat = a.toNat / b.toNat)
    (remainder : r.toNat = a.toNat % b.toNat) : a = q * b + r := by
  have parts := Nat.div_add_mod' a.toNat b.toNat
  rw [← quotient, ← remainder] at parts
  refine BitVec.eq_of_toNat_eq ?_
  rw [BitVec.toNat_add, BitVec.toNat_mul, Nat.mod_add_mod, parts, Nat.mod_eq_of_lt a.isLt]

/-- A turn to the right takes back a turn to the left. -/
theorem eq_of_turns {k n : BitVec w} (left : ∀ i < w, m.getLsbD ((i + k.toNat) % w) = a.getLsbD i)
    (right : ∀ i < w, n.getLsbD i = m.getLsbD ((i + k.toNat) % w)) : n = a :=
  BitVec.eq_of_getLsbD_eq fun i inside => (right i inside).trans (left i inside)

end IntegerType

/-- **Integer instructions compute the results of their rules.**  The instructions on an integer type that
compute are the operators, and on any operands each of them takes these off the stack and leaves
the one result that agrees with its rules, or traps.  A quotient and a remainder make up the dividend,
and a turn to the right takes back a turn to the left. -/
theorem computes_by_rule {t : Valtype} {w : Nat} {word : BitVec w → Value}
    (integer : IntegerType t w word) :
    (∀ op ∈ Opcode.table, op.object = some t → op.IsOperator →
      ∃ operator : IntOperator, op.name = operator.name) ∧
    (∀ (operator : IntOperator) (operands : List (BitVec w)), operands.length = operator.arity →
      ∃ op ∈ Opcode.table, op.object = some t ∧ op.name = operator.name ∧ op.IsOperator ∧
        ∃ result, Stack.Computes t op.name (operands.map word) (result.value word) ∧
          ∀ other, operator.Rule operands other ↔ other = result) ∧
    Stack.Computes t "rem_s" [word (.intMin w), word (.allOnes w)] (.ok (word 0)) ∧
    (∀ a b q r, Stack.Computes t "div_s" [word a, word b] (.ok (word q)) →
      Stack.Computes t "rem_s" [word a, word b] (.ok (word r)) → a = q * b + r) ∧
    (∀ a b q r, Stack.Computes t "div_u" [word a, word b] (.ok (word q)) →
      Stack.Computes t "rem_u" [word a, word b] (.ok (word r)) → a = q * b + r) ∧
    (∀ a k m n, Stack.Computes t "rotl" [word a, word k] (.ok (word m)) →
      Stack.Computes t "rotr" [word m, word k] (.ok (word n)) → n = a) := by
  refine ⟨fun op listed object computes => ?_, fun operator operands enough => ?_, ?_,
    fun a b q r quotient remainder => ?_, fun a b q r quotient remainder => ?_,
    fun a k m n left right => ?_⟩
  · obtain ⟨operator, -, name⟩ := Opcode.operators_checked.1 op listed t integer.mem object computes
    exact ⟨operator, name⟩
  · obtain ⟨op, listed, object, name, computes, -⟩ :=
      Opcode.listed_of_operator operator operator.mem_all t integer.mem
    obtain ⟨result, agrees, leaves⟩ := integer.computes_rule enough
    rw [← name] at leaves
    exact ⟨op, listed, object, name, computes, result, leaves,
      fun other => ⟨fun rule => rule.unique agrees, fun same => same ▸ agrees⟩⟩
  · have minusOne : (BitVec.allOnes w).toInt = -1 := by
      rw [BitVec.toInt_allOnes, if_pos integer.width_pos]
    have rule : IntOperator.Rule (.binary .remS) [.intMin w, .allOnes w] (.word (0 : BitVec w)) := by
      refine .remS ?_ ?_
      · rw [minusOne]
        decide
      · rw [minusOne, Int.tmod_neg, Int.tmod_one]
        exact BitVec.toInt_zero
    have enough : [BitVec.intMin w, .allOnes w].length = (IntOperator.binary .remS).arity := rfl
    exact integer.computes_of_rule enough rule
  · cases integer.rule_of_computes .divS quotient with
    | divS _ _ quotient =>
      cases integer.rule_of_computes .remS remainder with
      | remS _ remainder => exact IntegerType.eq_of_signed_division quotient remainder
  · cases integer.rule_of_computes .divU quotient with
    | divU _ quotient =>
      cases integer.rule_of_computes .remU remainder with
      | remU _ remainder => exact IntegerType.eq_of_unsigned_division quotient remainder
  · cases integer.rule_of_computes .rotl left with
    | rotl left =>
      cases integer.rule_of_computes .rotr right with
      | rotr right => exact IntegerType.eq_of_turns left right

/-- A negative quotient is cut towards zero. -/
theorem computes_by_rule_negative :
    IntegerType .i32 32 .i32 ∧ Stack.Computes .i32 "div_s" [.i32 (-7), .i32 2] (.ok (.i32 (-3))) := by
  obtain ⟨-, rules, -⟩ := computes_by_rule IntegerType.i32
  obtain ⟨_, -, -, name, -, result, computes, only⟩ := rules (.binary .divS) [-7, 2] rfl
  have rounded : result = .word (-3) :=
    ((only _).1 (.divS (by decide) (by decide) (by decide))).symm
  rw [rounded, name] at computes
  exact ⟨.i32, computes⟩

end WasmEngine
