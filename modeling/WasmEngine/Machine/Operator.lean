import WasmEngine.Machine.Integer
import WasmEngine.Machine.Value

/-!
# Operators on values

The numeric operators by name.  An operator that its operands' type does not have is an unknown
instruction.
-/

namespace WasmEngine

/-- The operators of one float. -/
inductive FloatUnary where
  | abs
  | neg
  | sqrt
  | ceil
  | floor
  | trunc
  | nearest
  deriving DecidableEq, Repr

/-- The operators of two floats. -/
inductive FloatBinary where
  | add
  | sub
  | mul
  | div
  | min
  | max
  | copysign
  deriving DecidableEq, Repr

/-- The comparisons of two floats. -/
inductive FloatCompare where
  | eq
  | ne
  | lt
  | gt
  | le
  | ge
  deriving DecidableEq, Repr

namespace FloatUnary

/-- The operator of a name. -/
def ofName? : String → Option FloatUnary
  | "abs" => some abs
  | "neg" => some neg
  | "sqrt" => some sqrt
  | "ceil" => some ceil
  | "floor" => some floor
  | "trunc" => some trunc
  | "nearest" => some nearest
  | _ => none

/-- The result of an operator. -/
def apply (op : FloatUnary) (f : FloatFormat) (a : Nat) : Nat :=
  match op with
  | abs => f.abs a
  | neg => f.neg a
  | sqrt => f.sqrt a
  | ceil => f.ceil a
  | floor => f.floor a
  | trunc => f.trunc a
  | nearest => f.nearest a

end FloatUnary

namespace FloatBinary

/-- The operator of a name. -/
def ofName? : String → Option FloatBinary
  | "add" => some add
  | "sub" => some sub
  | "mul" => some mul
  | "div" => some div
  | "min" => some min
  | "max" => some max
  | "copysign" => some copysign
  | _ => none

/-- The result of an operator. -/
def apply (op : FloatBinary) (f : FloatFormat) (a b : Nat) : Nat :=
  match op with
  | add => f.add a b
  | sub => f.sub a b
  | mul => f.mul a b
  | div => f.div a b
  | min => f.min a b
  | max => f.max a b
  | copysign => f.copysign a b

end FloatBinary

namespace FloatCompare

/-- The comparison of a name. -/
def ofName? : String → Option FloatCompare
  | "eq" => some eq
  | "ne" => some ne
  | "lt" => some lt
  | "gt" => some gt
  | "le" => some le
  | "ge" => some ge
  | _ => none

/-- The result of a comparison. -/
def apply (op : FloatCompare) (f : FloatFormat) (a b : Nat) : Bool :=
  match op with
  | eq => f.eq a b
  | ne => !f.eq a b
  | lt => f.lt a b
  | gt => f.lt b a
  | le => f.le a b
  | ge => f.le b a

end FloatCompare

/-- The conversions between types. -/
inductive Conversion where
  | wrap
  | extendS
  | extendU
  | truncS
  | truncU
  | convertS
  | convertU
  | demote
  | promote
  | reinterpret
  deriving DecidableEq, Repr

/-- The conversion of a name. -/
def Conversion.ofName? : String → Option Conversion
  | "wrap" => some wrap
  | "extend_s" => some extendS
  | "extend_u" => some extendU
  | "trunc_s" => some truncS
  | "trunc_u" => some truncU
  | "convert_s" => some convertS
  | "convert_u" => some convertU
  | "demote" => some demote
  | "promote" => some promote
  | "reinterpret" => some reinterpret
  | _ => none

namespace Value

/-- The result of an integer operator of one word. -/
def intUnary {w : Nat} (wrap : BitVec w → Value) (name : String) (a : BitVec w) :
    Except Fault Value :=
  if name = "eqz" then .ok (ofBool (a == 0))
  else match IntUnary.ofName? name with
    | some op => .ok (wrap (op.apply a))
    | none => .error (.unknownInstruction name)

/-- The result of an integer operator of two words. -/
def intBinary {w : Nat} (wrap : BitVec w → Value) (name : String) (a b : BitVec w) :
    Except Fault Value :=
  match IntBinary.ofName? name with
  | some op =>
    match op.apply a b with
    | .ok r => .ok (wrap r)
    | .error t => .error (.trap t)
  | none =>
    match IntCompare.ofName? name with
    | some op => .ok (ofBool (op.apply a b))
    | none => .error (.unknownInstruction name)

/-- The result of a float operator of one number. -/
def floatUnary (t : Valtype) (f : FloatFormat) (name : String) (a : Nat) : Except Fault Value :=
  match FloatUnary.ofName? name with
  | some op => .ok (ofBits t (op.apply f a))
  | none => .error (.unknownInstruction name)

/-- The result of a float operator of two numbers. -/
def floatBinary (t : Valtype) (f : FloatFormat) (name : String) (a b : Nat) : Except Fault Value :=
  match FloatBinary.ofName? name with
  | some op => .ok (ofBits t (op.apply f a b))
  | none =>
    match FloatCompare.ofName? name with
    | some op => .ok (ofBool (op.apply f a b))
    | none => .error (.unknownInstruction name)

/-- The result of an operator of one operand. -/
def unary (name : String) : Value → Except Fault Value
  | i32 a => intUnary i32 name a
  | i64 a => intUnary i64 name a
  | f32 a => floatUnary .f32 binary32 name a.toNat
  | f64 a => floatUnary .f64 binary64 name a.toNat

/-- The result of an operator of two operands of one type. -/
def binary (name : String) : Value → Value → Except Fault Value
  | i32 a, i32 b => intBinary i32 name a b
  | i64 a, i64 b => intBinary i64 name a b
  | f32 a, f32 b => floatBinary .f32 binary32 name a.toNat b.toNat
  | f64 a, f64 b => floatBinary .f64 binary64 name a.toNat b.toNat
  | a, _ => .error (.unknownInstruction (mnemonic (some a.type) name))

/-- The integer part of a float, if it lies in `low ≤ n < high`. -/
def truncate (f : FloatFormat) (low high : Int) (bits : Nat) : Except Fault Int :=
  if f.isNan bits then .error (.trap .invalidConversion)
  else match f.toInt? bits with
    | some n => if low ≤ n ∧ n < high then .ok n else .error (.trap .integerOverflow)
    | none => .error (.trap .integerOverflow)

/-- The value of type `t` that is the integer part of a float. -/
def truncateTo (t : Valtype) (low high : Int) : Value → Except Fault Value
  | f32 b => do return ofInt t (← truncate binary32 low high b.toNat)
  | f64 b => do return ofInt t (← truncate binary64 low high b.toNat)
  | v => .error (.notFloat v.type)

/-- The result of a conversion to a type. -/
def convert (t : Valtype) (name : String) (v : Value) : Except Fault Value :=
  match t, Conversion.ofName? name, v with
  | .i32, some .wrap, i64 b => .ok (i32 (b.truncate 32))
  | .i64, some .extendS, i32 b => .ok (i64 (b.signExtend 64))
  | .i64, some .extendU, i32 b => .ok (i64 (b.zeroExtend 64))
  | .i32, some .truncS, v => truncateTo .i32 (-0x80000000) 0x80000000 v
  | .i32, some .truncU, v => truncateTo .i32 0 UInt32.size v
  | .i64, some .truncS, v => truncateTo .i64 (-0x8000000000000000) 0x8000000000000000 v
  | .i64, some .truncU, v => truncateTo .i64 0 UInt64.size v
  | .f32, some .convertS, i32 b => .ok (ofInt .f32 b.toInt)
  | .f32, some .convertU, i32 b => .ok (ofInt .f32 b.toNat)
  | .f32, some .convertS, i64 b => .ok (ofInt .f32 b.toInt)
  | .f32, some .convertU, i64 b => .ok (ofInt .f32 b.toNat)
  | .f64, some .convertS, i32 b => .ok (ofInt .f64 b.toInt)
  | .f64, some .convertU, i32 b => .ok (ofInt .f64 b.toNat)
  | .f64, some .convertS, i64 b => .ok (ofInt .f64 b.toInt)
  | .f64, some .convertU, i64 b => .ok (ofInt .f64 b.toNat)
  | .f32, some .demote, f64 b => .ok (ofBits .f32 (binary64.convert binary32 b.toNat))
  | .f64, some .promote, f32 b => .ok (ofBits .f64 (binary32.convert binary64 b.toNat))
  | .i32, some .reinterpret, f32 b => .ok (i32 b)
  | .i64, some .reinterpret, f64 b => .ok (i64 b)
  | .f32, some .reinterpret, i32 b => .ok (f32 b)
  | .f64, some .reinterpret, i64 b => .ok (f64 b)
  | t, _, v => .error (.unknownInstruction (t.name ++ "." ++ name ++ "/" ++ v.type.name))

end Value

end WasmEngine
