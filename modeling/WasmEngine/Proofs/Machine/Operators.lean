import WasmEngine.Machine.Memory
import WasmEngine.Machine.Stack
import WasmEngine.Proofs.Typing.ListedTypes

/-!
# Operators at their types

On operands of its type a numeric instruction gives a value of its result type or traps, and every
load and store has a width.
-/

namespace WasmEngine

/-- A value of a type, or a trap. -/
def GivesOrTraps (t : Valtype) : Except Fault Value → Prop
  | .ok v => v.type = t
  | .error e => ∃ kind, e = .trap kind

namespace Value

/-- Whether a name is an operator of one operand of type `t` with a result of type `r`. -/
def hasUnary (t : Valtype) (name : String) (r : Valtype) : Bool :=
  match t with
  | .i32 | .i64 => if name = "eqz" then r == .i32 else (IntUnary.ofName? name).isSome && r == t
  | .f32 | .f64 => (FloatUnary.ofName? name).isSome && r == t

/-- Whether a name is an operator of two operands of type `t` with a result of type `r`. -/
def hasBinary (t : Valtype) (name : String) (r : Valtype) : Bool :=
  match t with
  | .i32 | .i64 =>
    if (IntBinary.ofName? name).isSome then r == t
    else (IntCompare.ofName? name).isSome && r == .i32
  | .f32 | .f64 =>
    if (FloatBinary.ofName? name).isSome then r == t
    else (FloatCompare.ofName? name).isSome && r == .i32

/-- Whether a name is a conversion from `s` to `t`. -/
def hasConversion (t : Valtype) (name : String) (s : Valtype) : Bool :=
  match t, Conversion.ofName? name, s with
  | .i32, some .wrap, .i64 => true
  | .i64, some .extendS, .i32 | .i64, some .extendU, .i32 => true
  | .i32, some .truncS, .f32 | .i32, some .truncS, .f64 => true
  | .i32, some .truncU, .f32 | .i32, some .truncU, .f64 => true
  | .i64, some .truncS, .f32 | .i64, some .truncS, .f64 => true
  | .i64, some .truncU, .f32 | .i64, some .truncU, .f64 => true
  | .f32, some .convertS, .i32 | .f32, some .convertS, .i64 => true
  | .f32, some .convertU, .i32 | .f32, some .convertU, .i64 => true
  | .f64, some .convertS, .i32 | .f64, some .convertS, .i64 => true
  | .f64, some .convertU, .i32 | .f64, some .convertU, .i64 => true
  | .f32, some .demote, .f64 | .f64, some .promote, .f32 => true
  | .i32, some .reinterpret, .f32 | .i64, some .reinterpret, .f64 => true
  | .f32, some .reinterpret, .i32 | .f64, some .reinterpret, .i64 => true
  | _, _, _ => false

variable {name : String} {t s r : Valtype}

/-- A literal has the type that it is read at. -/
theorem type_of_ofLiteral {literal : Node} {v : Value} (value : ofLiteral t literal = .ok v) :
    v.type = t := by
  unfold ofLiteral at value
  split at value <;> cases value <;> first
    | exact type_ofInt _ _
    | exact type_ofBits _ _

/-- Unary operators on integers give a value of their result type. -/
theorem intUnary_gives {w : Nat} (wrap : BitVec w → Value) (typed : ∀ b, (wrap b).type = t)
    (known : (if name = "eqz" then r == .i32 else (IntUnary.ofName? name).isSome && r == t) = true)
    (a : BitVec w) : GivesOrTraps r (intUnary wrap name a) := by
  unfold intUnary
  split
  · next isTest =>
    rw [if_pos isTest] at known
    simpa [GivesOrTraps, ofBool, Value.type] using (beq_iff_eq.1 known).symm
  · next isTest =>
    rw [if_neg isTest, Bool.and_eq_true, beq_iff_eq] at known
    obtain ⟨op, found⟩ := Option.isSome_iff_exists.1 known.1
    simp only [found]
    exact (typed _).trans known.2.symm

/-- Unary operators on floats give a value of their result type. -/
theorem floatUnary_gives {f : FloatFormat}
    (known : ((FloatUnary.ofName? name).isSome && r == t) = true) (a : Nat) :
    GivesOrTraps r (floatUnary t f name a) := by
  rw [Bool.and_eq_true, beq_iff_eq] at known
  obtain ⟨op, found⟩ := Option.isSome_iff_exists.1 known.1
  simp only [floatUnary, found]
  exact (type_ofBits _ _).trans known.2.symm

/-- A known unary operator gives a value of its result type. -/
theorem unary_gives (known : hasUnary t name r = true) {a : Value} (typed : a.type = t) :
    GivesOrTraps r (a.unary name) := by
  subst typed
  cases a with
  | i32 a => exact intUnary_gives i32 (fun _ => rfl) known a
  | i64 a => exact intUnary_gives i64 (fun _ => rfl) known a
  | f32 a => exact floatUnary_gives known _
  | f64 a => exact floatUnary_gives known _

/-- Binary operators on integers give a value of their result type or trap. -/
theorem intBinary_gives {w : Nat} (wrap : BitVec w → Value) (typed : ∀ b, (wrap b).type = t)
    (known : (if (IntBinary.ofName? name).isSome then r == t
      else (IntCompare.ofName? name).isSome && r == .i32) = true)
    (a b : BitVec w) : GivesOrTraps r (intBinary wrap name a b) := by
  unfold intBinary
  cases operator : IntBinary.ofName? name with
  | some op =>
    simp only [operator, Option.isSome_some, if_true, beq_iff_eq] at known
    dsimp only
    cases op.apply a b with
    | ok c => exact (typed c).trans known.symm
    | error kind => exact ⟨kind, rfl⟩
  | none =>
    simp only [operator, Option.isSome_none, Bool.false_eq_true, if_false, Bool.and_eq_true,
      beq_iff_eq] at known
    obtain ⟨op, found⟩ := Option.isSome_iff_exists.1 known.1
    simpa [GivesOrTraps, found, ofBool, Value.type] using known.2.symm

/-- Binary operators on floats give a value of their result type. -/
theorem floatBinary_gives {f : FloatFormat}
    (known : (if (FloatBinary.ofName? name).isSome then r == t
      else (FloatCompare.ofName? name).isSome && r == .i32) = true) (a b : Nat) :
    GivesOrTraps r (floatBinary t f name a b) := by
  unfold floatBinary
  cases operator : FloatBinary.ofName? name with
  | some op =>
    simp only [operator, Option.isSome_some, if_true, beq_iff_eq] at known
    exact (type_ofBits _ _).trans known.symm
  | none =>
    simp only [operator, Option.isSome_none, Bool.false_eq_true, if_false, Bool.and_eq_true,
      beq_iff_eq] at known
    obtain ⟨op, found⟩ := Option.isSome_iff_exists.1 known.1
    simpa [GivesOrTraps, found, ofBool, Value.type] using known.2.symm

/-- A known binary operator gives a value of its result type or traps. -/
theorem binary_gives (known : hasBinary t name r = true) {a b : Value} (typedLeft : a.type = t)
    (typedRight : b.type = t) : GivesOrTraps r (a.binary name b) := by
  subst typedLeft
  cases a <;> cases b <;> cases typedRight
  · exact intBinary_gives i32 (fun _ => rfl) known _ _
  · exact intBinary_gives i64 (fun _ => rfl) known _ _
  · exact floatBinary_gives known _ _
  · exact floatBinary_gives known _ _

/-- Truncation gives a value of its type or traps. -/
theorem truncate_gives (f : FloatFormat) (low high : Int) (bits : Nat) :
    GivesOrTraps t (do return ofInt t (← truncate f low high bits)) := by
  unfold truncate
  split
  · exact ⟨_, rfl⟩
  · split
    · split
      · exact type_ofInt t _
      · exact ⟨_, rfl⟩
    · exact ⟨_, rfl⟩

/-- A known conversion gives a value of its type or traps. -/
theorem convert_gives (known : hasConversion t name s = true) {v : Value} (typed : v.type = s) :
    GivesOrTraps t (v.convert t name) := by
  subst typed
  cases conversion : Conversion.ofName? name with
  | none => simp [hasConversion, conversion] at known
  | some op =>
    cases t <;> cases op <;> cases v <;> simp only [hasConversion, conversion, Value.type,
      Bool.false_eq_true] at known <;> simp only [convert, conversion]
    all_goals first
      | rfl
      | exact truncate_gives _ _ _ _

end Value

/-- A load of a known name gives a value of its type or is out of bounds. -/
theorem Memory.load_gives {t : Valtype} {id : String} (known : (LoadShape.ofName? t id).isSome)
    (m : Memory) (address : Nat) : GivesOrTraps t (m.load t id address) := by
  obtain ⟨shape, found⟩ := Option.isSome_iff_exists.1 known
  simp only [Memory.load, found, Memory.readWord, Memory.read]
  split_ifs
  · simp only [GivesOrTraps, LoadShape.widen]
    split_ifs
    · exact Value.type_ofInt _ _
    · exact Value.type_ofBits _ _
  · exact ⟨_, rfl⟩

namespace Opcode

/-- Whether a numeric instruction has an operator for its listed type. -/
def hasOperator (op : Opcode) (t : Valtype) : Bool :=
  match Text.cut? '/' op.name, op.typeOn t with
  | some (id, _), ⟨[s], [r]⟩ => r == t && Value.hasConversion t id s
  | none, ⟨[s], [r]⟩ => s == t && Value.hasUnary t op.name r
  | none, ⟨[s, u], [r]⟩ => s == t && u == t && Value.hasBinary t op.name r
  | _, _ => false

set_option maxRecDepth 4000 in
/-- An instruction on a type is a constant, an access of a known width, or has an operator for its listed type. -/
theorem numeric_checked : ∀ op ∈ table, ∀ t, op.object = some t →
    (op.name = "const" → op.typeOn t = ⟨[], [t]⟩) ∧
    (Text.beginsWith "load" op.name = true →
      (LoadShape.ofName? t op.name).isSome ∧ op.typeOn t = ⟨[.i32], [t]⟩ ∧ op.immediate = .memArg) ∧
    (Text.beginsWith "store" op.name = true →
      (storeWidth? t op.name).isSome ∧ op.typeOn t = ⟨[.i32, t], []⟩ ∧ op.immediate = .memArg) ∧
    (op.name ≠ "const" → Text.beginsWith "load" op.name = false → Text.beginsWith "store" op.name = false →
      op.hasOperator t = true) := by
  intro op listed
  simp only [hasOperator, Text.cut?, Text.beginsWith, toList_name listed]
  revert op
  decide +kernel

end Opcode

end WasmEngine
