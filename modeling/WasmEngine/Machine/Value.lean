import WasmEngine.Float.Spelling
import WasmEngine.Machine.Fault

/-!
# Values

A value is a bit pattern of its type.  Integers have no sign of their own: an operation reads the
pattern as signed or unsigned.
-/

namespace WasmEngine

/-- A value of one of the four types. -/
inductive Value where
  | i32 (bits : BitVec 32)
  | i64 (bits : BitVec 64)
  | f32 (bits : BitVec 32)
  | f64 (bits : BitVec 64)
  deriving DecidableEq, Repr

namespace Value

/-- The type of a value. -/
def type : Value → Valtype
  | i32 _ => .i32
  | i64 _ => .i64
  | f32 _ => .f32
  | f64 _ => .f64

/-- The pattern of a value as a number. -/
def bits : Value → Nat
  | i32 b => b.toNat
  | i64 b => b.toNat
  | f32 b => b.toNat
  | f64 b => b.toNat

/-- The value of a type with a pattern, cut to the width of the type. -/
def ofBits : Valtype → Nat → Value
  | .i32, n => i32 (.ofNat 32 n)
  | .i64, n => i64 (.ofNat 64 n)
  | .f32, n => f32 (.ofNat 32 n)
  | .f64, n => f64 (.ofNat 64 n)

/-- The value of a type nearest to an integer; an integer type takes it modulo its width. -/
def ofInt : Valtype → Int → Value
  | .i32, n => i32 (.ofInt 32 n)
  | .i64, n => i64 (.ofInt 64 n)
  | .f32, n => ofBits .f32 (binary32.ofInt n)
  | .f64, n => ofBits .f64 (binary64.ofInt n)

/-- The value of a type before anything is assigned. -/
def default (t : Valtype) : Value := ofBits t 0

/-- A truth value as an integer. -/
def ofBool (b : Bool) : Value := i32 (if b then 1 else 0)

/-- Whether a value is a NaN. -/
def isNan : Value → Bool
  | f32 b => binary32.isNan b.toNat
  | f64 b => binary64.isNan b.toNat
  | _ => false

/-- The value of a literal at a type. -/
def ofLiteral (t : Valtype) (literal : Node) : Except Fault Value :=
  match t, literal with
  | .i32, .number n => .ok (ofInt .i32 n.value)
  | .i64, .number n => .ok (ofInt .i64 n.value)
  | .f32, .number n => .ok (ofInt .f32 n.value)
  | .f64, .number n => .ok (ofInt .f64 n.value)
  | .i64, .longNumber n => .ok (ofInt .i64 n.value.toInt)
  | .f32, .float l => .ok (ofBits .f32 l.toF32)
  | .f64, .float l => .ok (ofBits .f64 l.toF64)
  | t, node => .error (.literalMismatch t node.kind)

/-- The integer part of a float within the range of a type; a NaN counts as zero. -/
def saturate (f : FloatFormat) (width : Nat) (bits : Nat) : Int :=
  let bound : Nat := 1 <<< (width - 1)
  f.toIntClamped (-bound) (bound - 1) bits

/-- The value at another type: integers are extended by their sign or cut, floats are rounded to the
nearest, and a float that is no integer of the range becomes the nearest bound. -/
def cast (t : Valtype) : Value → Value
  | i32 b => match t with
    | .i32 => i32 b
    | t => ofInt t b.toInt
  | i64 b => match t with
    | .i64 => i64 b
    | t => ofInt t b.toInt
  | f32 b => match t with
    | .i32 => ofInt .i32 (saturate binary32 32 b.toNat)
    | .i64 => ofInt .i64 (saturate binary32 64 b.toNat)
    | .f32 => f32 b
    | .f64 => ofBits .f64 (binary32.convert binary64 b.toNat)
  | f64 b => match t with
    | .i32 => ofInt .i32 (saturate binary64 32 b.toNat)
    | .i64 => ofInt .i64 (saturate binary64 64 b.toNat)
    | .f32 => ofBits .f32 (binary64.convert binary32 b.toNat)
    | .f64 => f64 b

/-- The value as messages show it: integers with a sign, floats in hexadecimal. -/
def display : Value → String
  | i32 b => s!"i32:{b.toInt}"
  | i64 b => s!"i64:{b.toInt}"
  | f32 b => "f32:" ++ binary32.displayHex b.toNat
  | f64 b => "f64:" ++ binary64.displayHex b.toNat

@[simp] theorem type_ofBits (t : Valtype) (n : Nat) : (ofBits t n).type = t := by cases t <;> rfl

@[simp] theorem type_ofInt (t : Valtype) (n : Int) : (ofInt t n).type = t := by cases t <;> rfl

@[simp] theorem type_default (t : Valtype) : (default t).type = t := type_ofBits t 0

@[simp] theorem type_cast (t : Valtype) (v : Value) : (v.cast t).type = t := by
  cases v <;> cases t <;> rfl

end Value

end WasmEngine
