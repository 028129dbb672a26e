import WasmEngine.Syntax.Types
import WasmEngine.Text.Split

/-!
# Instructions, their bytes and their types

The instruction set: the byte of each instruction, the type it works on, its name, and what follows
it in the binary format.  An instruction has one further spelling in later texts, which
`normalizeMnemonic` turns into the one used here.
-/

namespace WasmEngine

/-- What stands after the byte of an instruction. -/
inductive Immediate where
  | none
  | block
  | index
  | brTable
  | callIndirect
  | memArg
  | memoryReserved
  | i32
  | i64
  | f32
  | f64
  deriving DecidableEq, Repr

/-- The name of a layout. -/
def Immediate.name : Immediate → String
  | none => "None"
  | block => "Block"
  | index => "Index"
  | brTable => "BrTable"
  | callIndirect => "CallIndirect"
  | memArg => "MemArg"
  | memoryReserved => "MemoryReserved"
  | i32 => "I32"
  | i64 => "I64"
  | f32 => "F32"
  | f64 => "F64"

/-- An instruction: its byte, the type it works on, and its name without that type. -/
structure Opcode where
  byte : UInt8
  object : Option Valtype
  name : String
  deriving DecidableEq, Repr

namespace Opcode

/-- The instruction set in the order of the bytes. -/
def table : List Opcode :=
  [⟨0x00, none, "unreachable"⟩, ⟨0x01, none, "nop"⟩, ⟨0x02, none, "block"⟩, ⟨0x03, none, "loop"⟩,
    ⟨0x04, none, "if"⟩, ⟨0x05, none, "else"⟩, ⟨0x0b, none, "end"⟩, ⟨0x0c, none, "br"⟩,
    ⟨0x0d, none, "br_if"⟩, ⟨0x0e, none, "br_table"⟩, ⟨0x0f, none, "return"⟩, ⟨0x10, none, "call"⟩,
    ⟨0x11, none, "call_indirect"⟩, ⟨0x1a, none, "drop"⟩, ⟨0x1b, none, "select"⟩,
    ⟨0x20, none, "get_local"⟩, ⟨0x21, none, "set_local"⟩, ⟨0x22, none, "tee_local"⟩,
    ⟨0x23, none, "get_global"⟩, ⟨0x24, none, "set_global"⟩, ⟨0x28, some .i32, "load"⟩,
    ⟨0x29, some .i64, "load"⟩, ⟨0x2a, some .f32, "load"⟩, ⟨0x2b, some .f64, "load"⟩,
    ⟨0x2c, some .i32, "load8_s"⟩, ⟨0x2d, some .i32, "load8_u"⟩, ⟨0x2e, some .i32, "load16_s"⟩,
    ⟨0x2f, some .i32, "load16_u"⟩, ⟨0x30, some .i64, "load8_s"⟩, ⟨0x31, some .i64, "load8_u"⟩,
    ⟨0x32, some .i64, "load16_s"⟩, ⟨0x33, some .i64, "load16_u"⟩, ⟨0x34, some .i64, "load32_s"⟩,
    ⟨0x35, some .i64, "load32_u"⟩, ⟨0x36, some .i32, "store"⟩, ⟨0x37, some .i64, "store"⟩,
    ⟨0x38, some .f32, "store"⟩, ⟨0x39, some .f64, "store"⟩, ⟨0x3a, some .i32, "store8"⟩,
    ⟨0x3b, some .i32, "store16"⟩, ⟨0x3c, some .i64, "store8"⟩, ⟨0x3d, some .i64, "store16"⟩,
    ⟨0x3e, some .i64, "store32"⟩, ⟨0x3f, none, "current_memory"⟩, ⟨0x40, none, "grow_memory"⟩,
    ⟨0x41, some .i32, "const"⟩, ⟨0x42, some .i64, "const"⟩, ⟨0x43, some .f32, "const"⟩,
    ⟨0x44, some .f64, "const"⟩, ⟨0x45, some .i32, "eqz"⟩, ⟨0x46, some .i32, "eq"⟩,
    ⟨0x47, some .i32, "ne"⟩, ⟨0x48, some .i32, "lt_s"⟩, ⟨0x49, some .i32, "lt_u"⟩,
    ⟨0x4a, some .i32, "gt_s"⟩, ⟨0x4b, some .i32, "gt_u"⟩, ⟨0x4c, some .i32, "le_s"⟩,
    ⟨0x4d, some .i32, "le_u"⟩, ⟨0x4e, some .i32, "ge_s"⟩, ⟨0x4f, some .i32, "ge_u"⟩,
    ⟨0x50, some .i64, "eqz"⟩, ⟨0x51, some .i64, "eq"⟩, ⟨0x52, some .i64, "ne"⟩,
    ⟨0x53, some .i64, "lt_s"⟩, ⟨0x54, some .i64, "lt_u"⟩, ⟨0x55, some .i64, "gt_s"⟩,
    ⟨0x56, some .i64, "gt_u"⟩, ⟨0x57, some .i64, "le_s"⟩, ⟨0x58, some .i64, "le_u"⟩,
    ⟨0x59, some .i64, "ge_s"⟩, ⟨0x5a, some .i64, "ge_u"⟩, ⟨0x5b, some .f32, "eq"⟩,
    ⟨0x5c, some .f32, "ne"⟩, ⟨0x5d, some .f32, "lt"⟩, ⟨0x5e, some .f32, "gt"⟩,
    ⟨0x5f, some .f32, "le"⟩, ⟨0x60, some .f32, "ge"⟩, ⟨0x61, some .f64, "eq"⟩,
    ⟨0x62, some .f64, "ne"⟩, ⟨0x63, some .f64, "lt"⟩, ⟨0x64, some .f64, "gt"⟩,
    ⟨0x65, some .f64, "le"⟩, ⟨0x66, some .f64, "ge"⟩, ⟨0x67, some .i32, "clz"⟩,
    ⟨0x68, some .i32, "ctz"⟩, ⟨0x69, some .i32, "popcnt"⟩, ⟨0x6a, some .i32, "add"⟩,
    ⟨0x6b, some .i32, "sub"⟩, ⟨0x6c, some .i32, "mul"⟩, ⟨0x6d, some .i32, "div_s"⟩,
    ⟨0x6e, some .i32, "div_u"⟩, ⟨0x6f, some .i32, "rem_s"⟩, ⟨0x70, some .i32, "rem_u"⟩,
    ⟨0x71, some .i32, "and"⟩, ⟨0x72, some .i32, "or"⟩, ⟨0x73, some .i32, "xor"⟩,
    ⟨0x74, some .i32, "shl"⟩, ⟨0x75, some .i32, "shr_s"⟩, ⟨0x76, some .i32, "shr_u"⟩,
    ⟨0x77, some .i32, "rotl"⟩, ⟨0x78, some .i32, "rotr"⟩, ⟨0x79, some .i64, "clz"⟩,
    ⟨0x7a, some .i64, "ctz"⟩, ⟨0x7b, some .i64, "popcnt"⟩, ⟨0x7c, some .i64, "add"⟩,
    ⟨0x7d, some .i64, "sub"⟩, ⟨0x7e, some .i64, "mul"⟩, ⟨0x7f, some .i64, "div_s"⟩,
    ⟨0x80, some .i64, "div_u"⟩, ⟨0x81, some .i64, "rem_s"⟩, ⟨0x82, some .i64, "rem_u"⟩,
    ⟨0x83, some .i64, "and"⟩, ⟨0x84, some .i64, "or"⟩, ⟨0x85, some .i64, "xor"⟩,
    ⟨0x86, some .i64, "shl"⟩, ⟨0x87, some .i64, "shr_s"⟩, ⟨0x88, some .i64, "shr_u"⟩,
    ⟨0x89, some .i64, "rotl"⟩, ⟨0x8a, some .i64, "rotr"⟩, ⟨0x8b, some .f32, "abs"⟩,
    ⟨0x8c, some .f32, "neg"⟩, ⟨0x8d, some .f32, "ceil"⟩, ⟨0x8e, some .f32, "floor"⟩,
    ⟨0x8f, some .f32, "trunc"⟩, ⟨0x90, some .f32, "nearest"⟩, ⟨0x91, some .f32, "sqrt"⟩,
    ⟨0x92, some .f32, "add"⟩, ⟨0x93, some .f32, "sub"⟩, ⟨0x94, some .f32, "mul"⟩,
    ⟨0x95, some .f32, "div"⟩, ⟨0x96, some .f32, "min"⟩, ⟨0x97, some .f32, "max"⟩,
    ⟨0x98, some .f32, "copysign"⟩, ⟨0x99, some .f64, "abs"⟩, ⟨0x9a, some .f64, "neg"⟩,
    ⟨0x9b, some .f64, "ceil"⟩, ⟨0x9c, some .f64, "floor"⟩, ⟨0x9d, some .f64, "trunc"⟩,
    ⟨0x9e, some .f64, "nearest"⟩, ⟨0x9f, some .f64, "sqrt"⟩, ⟨0xa0, some .f64, "add"⟩,
    ⟨0xa1, some .f64, "sub"⟩, ⟨0xa2, some .f64, "mul"⟩, ⟨0xa3, some .f64, "div"⟩,
    ⟨0xa4, some .f64, "min"⟩, ⟨0xa5, some .f64, "max"⟩, ⟨0xa6, some .f64, "copysign"⟩,
    ⟨0xa7, some .i32, "wrap/i64"⟩, ⟨0xa8, some .i32, "trunc_s/f32"⟩,
    ⟨0xa9, some .i32, "trunc_u/f32"⟩, ⟨0xaa, some .i32, "trunc_s/f64"⟩,
    ⟨0xab, some .i32, "trunc_u/f64"⟩, ⟨0xac, some .i64, "extend_s/i32"⟩,
    ⟨0xad, some .i64, "extend_u/i32"⟩, ⟨0xae, some .i64, "trunc_s/f32"⟩,
    ⟨0xaf, some .i64, "trunc_u/f32"⟩, ⟨0xb0, some .i64, "trunc_s/f64"⟩,
    ⟨0xb1, some .i64, "trunc_u/f64"⟩, ⟨0xb2, some .f32, "convert_s/i32"⟩,
    ⟨0xb3, some .f32, "convert_u/i32"⟩, ⟨0xb4, some .f32, "convert_s/i64"⟩,
    ⟨0xb5, some .f32, "convert_u/i64"⟩, ⟨0xb6, some .f32, "demote/f64"⟩,
    ⟨0xb7, some .f64, "convert_s/i32"⟩, ⟨0xb8, some .f64, "convert_u/i32"⟩,
    ⟨0xb9, some .f64, "convert_s/i64"⟩, ⟨0xba, some .f64, "convert_u/i64"⟩,
    ⟨0xbb, some .f64, "promote/f32"⟩, ⟨0xbc, some .i32, "reinterpret/f32"⟩,
    ⟨0xbd, some .i64, "reinterpret/f64"⟩, ⟨0xbe, some .f32, "reinterpret/i32"⟩,
    ⟨0xbf, some .f64, "reinterpret/i64"⟩]

/-- The full name of an instruction. -/
def mnemonic (op : Opcode) : String :=
  match op.object with
  | some t => t.name ++ "." ++ op.name
  | none => op.name

/-- What stands after the byte. -/
def immediate (op : Opcode) : Immediate :=
  let b := op.byte
  if 0x02 ≤ b ∧ b ≤ 0x04 then .block
  else if b = 0x0c ∨ b = 0x0d ∨ b = 0x10 ∨ (0x20 ≤ b ∧ b ≤ 0x24) then .index
  else if b = 0x0e then .brTable
  else if b = 0x11 then .callIndirect
  else if 0x28 ≤ b ∧ b ≤ 0x3e then .memArg
  else if b = 0x3f ∨ b = 0x40 then .memoryReserved
  else if b = 0x41 then .i32
  else if b = 0x42 then .i64
  else if b = 0x43 then .f32
  else if b = 0x44 then .f64
  else .none

/-- The instruction of a byte. -/
def ofByte? (b : UInt8) : Option Opcode := table.find? fun op => op.byte == b

/-- The instruction of a type and name. -/
def find? (object : Option Valtype) (name : String) : Option Opcode :=
  table.find? fun op => op.object == object && op.name == name

/-- The type before the first point of a mnemonic, and the name after it. -/
def splitMnemonic (m : String) : Option Valtype × String :=
  match Text.cut? '.' m with
  | some (object, name) =>
    match Valtype.ofName? object with
    | some t => (some t, name)
    | none => (none, m)
  | none => (none, m)

/-- The conversions whose later spelling ends in a sign. -/
def signedConversions : List String := ["trunc", "extend", "convert"]

/-- The conversions whose later spelling has no sign. -/
def plainConversions : List String := ["wrap", "demote", "promote", "reinterpret"]

/-- The spelling used here of an operation whose later spelling joins its parts by underscores. -/
def normalizeOperation (op : String) : String :=
  match Text.splitBy '_' op with
  | [base, source, sign] =>
    if signedConversions.contains base && (Valtype.ofName? source).isSome
        && (sign == "s" || sign == "u") then
      base ++ "_" ++ sign ++ "/" ++ source
    else op
  | [base, source] =>
    if plainConversions.contains base && (Valtype.ofName? source).isSome then base ++ "/" ++ source
    else op
  | _ => op

/-- The spelling used here of a mnemonic in either spelling. -/
def normalizeMnemonic (m : String) : String :=
  match m with
  | "local.get" => "get_local"
  | "local.set" => "set_local"
  | "local.tee" => "tee_local"
  | "global.get" => "get_global"
  | "global.set" => "set_global"
  | "memory.size" => "current_memory"
  | "memory.grow" => "grow_memory"
  | _ =>
    match Text.cut? '.' m with
    | some (object, op) => object ++ "." ++ normalizeOperation op
    | none => m

/-- The instruction of a mnemonic in either spelling. -/
def ofMnemonic? (m : String) : Option Opcode :=
  let (object, name) := splitMnemonic (normalizeMnemonic m)
  find? object name

end Opcode

end WasmEngine

/-! ## The types of numeric and memory instructions

Each instruction on a type takes fixed operands and gives a fixed result.  What control flow, calls
and variables take depends on their context and is not listed here.
-/

namespace WasmEngine.Signatures

/-- The type of a spelling; `u32` and `u64` are the unsigned views of the integer types. -/
def canonical? : String → Option Valtype
  | "u32" => some .i32
  | "u64" => some .i64
  | name => Valtype.ofName? name

/-- The names of the comparisons. -/
def comparisons : List String :=
  ["eq", "ne", "lt", "gt", "le", "ge", "lt_s", "lt_u", "gt_s", "gt_u", "le_s", "le_u", "ge_s",
    "ge_u"]

/-- The names of the operators of one operand. -/
def unary : List String :=
  ["clz", "ctz", "popcnt", "abs", "neg", "ceil", "floor", "trunc", "nearest", "sqrt"]

/-- The names of the operators of two operands. -/
def binary : List String :=
  ["add", "sub", "mul", "div", "div_s", "div_u", "rem_s", "rem_u", "and", "or", "xor", "shl",
    "shr_s", "shr_u", "rotl", "rotr", "min", "max", "copysign"]

/-- The type of a name on `t` by the family of the name alone. -/
def ofFamily? (t : Valtype) (name : String) : Option FuncType :=
  match Text.cut? '/' name with
  | some (_, source) => (canonical? source).map fun s => ⟨[s], [t]⟩
  | none =>
    if name = "const" then some ⟨[], [t]⟩
    else if name = "eqz" then some ⟨[t], [.i32]⟩
    else if comparisons.contains name then some ⟨[t, t], [.i32]⟩
    else if unary.contains name then some ⟨[t], [t]⟩
    else if binary.contains name then some ⟨[t, t], [t]⟩
    else if Text.beginsWith "load" name then some ⟨[.i32], [t]⟩
    else if Text.beginsWith "store" name then some ⟨[.i32, t], []⟩
    else none

/-- The type of an instruction on `t`; nothing if the instruction set has no such instruction. -/
def numeric? (t : Valtype) (name : String) : Option FuncType :=
  if (Opcode.ofMnemonic? (t.name ++ "." ++ name)).isSome then ofFamily? t name else none

end WasmEngine.Signatures
