import WasmEngine.Machine.Fault

/-!
# Integer operators

The operators on words of a width, read as signed or unsigned where it matters.
-/

namespace WasmEngine

/-- The operators of one word. -/
inductive IntUnary where
  | clz
  | ctz
  | popcnt
  deriving DecidableEq, Repr

/-- The operators of two words. -/
inductive IntBinary where
  | add
  | sub
  | mul
  | divS
  | divU
  | remS
  | remU
  | and
  | or
  | xor
  | shl
  | shrS
  | shrU
  | rotl
  | rotr
  deriving DecidableEq, Repr

/-- The comparisons of two words. -/
inductive IntCompare where
  | eq
  | ne
  | ltS
  | ltU
  | gtS
  | gtU
  | leS
  | leU
  | geS
  | geU
  deriving DecidableEq, Repr

namespace IntUnary

/-- The operator of a name. -/
def ofName? : String → Option IntUnary
  | "clz" => some clz
  | "ctz" => some ctz
  | "popcnt" => some popcnt
  | _ => none

/-- The number of clear bits above the highest set bit. -/
def leadingZeros {w : Nat} (a : BitVec w) : Nat :=
  ((List.range w).takeWhile fun i => !a.getMsbD i).length

/-- The number of clear bits below the lowest set bit. -/
def trailingZeros {w : Nat} (a : BitVec w) : Nat :=
  ((List.range w).takeWhile fun i => !a.getLsbD i).length

/-- The number of set bits. -/
def setBits {w : Nat} (a : BitVec w) : Nat := (List.range w).countP fun i => a.getLsbD i

/-- The result of an operator. -/
def apply {w : Nat} (op : IntUnary) (a : BitVec w) : BitVec w :=
  match op with
  | clz => .ofNat w (leadingZeros a)
  | ctz => .ofNat w (trailingZeros a)
  | popcnt => .ofNat w (setBits a)

end IntUnary

namespace IntBinary

/-- The operator of a name. -/
def ofName? : String → Option IntBinary
  | "add" => some add
  | "sub" => some sub
  | "mul" => some mul
  | "div_s" => some divS
  | "div_u" => some divU
  | "rem_s" => some remS
  | "rem_u" => some remU
  | "and" => some and
  | "or" => some or
  | "xor" => some xor
  | "shl" => some shl
  | "shr_s" => some shrS
  | "shr_u" => some shrU
  | "rotl" => some rotl
  | "rotr" => some rotr
  | _ => none

/-- The result of an operator.  A division by zero traps, and so does the one signed quotient that
has no word. -/
def apply {w : Nat} (op : IntBinary) (a b : BitVec w) : Except Trap (BitVec w) :=
  match op with
  | add => .ok (a + b)
  | sub => .ok (a - b)
  | mul => .ok (a * b)
  | divS =>
    if b = 0 then .error .divideByZero
    else if a = .intMin w ∧ b = .allOnes w then .error .integerOverflow
    else .ok (a.sdiv b)
  | divU => if b = 0 then .error .divideByZero else .ok (a / b)
  | remS => if b = 0 then .error .divideByZero else .ok (a.srem b)
  | remU => if b = 0 then .error .divideByZero else .ok (a % b)
  | and => .ok (a &&& b)
  | or => .ok (a ||| b)
  | xor => .ok (a ^^^ b)
  | shl => .ok (a <<< (b.toNat % w))
  | shrS => .ok (a.sshiftRight (b.toNat % w))
  | shrU => .ok (a >>> (b.toNat % w))
  | rotl => .ok (a.rotateLeft (b.toNat % w))
  | rotr => .ok (a.rotateRight (b.toNat % w))

end IntBinary

namespace IntCompare

/-- The comparison of a name. -/
def ofName? : String → Option IntCompare
  | "eq" => some eq
  | "ne" => some ne
  | "lt_s" => some ltS
  | "lt_u" => some ltU
  | "gt_s" => some gtS
  | "gt_u" => some gtU
  | "le_s" => some leS
  | "le_u" => some leU
  | "ge_s" => some geS
  | "ge_u" => some geU
  | _ => none

/-- The result of a comparison. -/
def apply {w : Nat} (op : IntCompare) (a b : BitVec w) : Bool :=
  match op with
  | eq => a == b
  | ne => a != b
  | ltS => a.slt b
  | ltU => a.ult b
  | gtS => b.slt a
  | gtU => b.ult a
  | leS => a.sle b
  | leU => a.ule b
  | geS => b.sle a
  | geU => b.ule a

end IntCompare

end WasmEngine
