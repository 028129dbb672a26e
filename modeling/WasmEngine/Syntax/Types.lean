import WasmEngine.Bytes.Integers
import WasmEngine.Float.Arithmetic

/-!
# Types and literals

The parts of a module that hold no instructions: value types, literals, references, signatures,
limits, and the records of imports, exports and metadata.
-/

namespace WasmEngine

/-- The type of a value. -/
inductive Valtype where
  | i32
  | i64
  | f32
  | f64
  deriving DecidableEq, Repr, Inhabited

namespace Valtype

/-- The spelling of a type. -/
def name : Valtype → String
  | i32 => "i32"
  | i64 => "i64"
  | f32 => "f32"
  | f64 => "f64"

/-- The type with that spelling. -/
def ofName? : String → Option Valtype
  | "i32" => some i32
  | "i64" => some i64
  | "f32" => some f32
  | "f64" => some f64
  | _ => none

theorem ofName?_name (t : Valtype) : ofName? t.name = some t := by cases t <;> rfl

end Valtype

/-- Whether a global may be assigned. -/
inductive Mutability where
  | const
  | var
  deriving DecidableEq, Repr

/-- The spelling of a mutability. -/
def Mutability.name : Mutability → String
  | const => "const"
  | var => "var"

/-- What an export refers to. -/
inductive ExportKind where
  | func
  | table
  | memory
  | global
  deriving DecidableEq, Repr

/-- The spelling of an export kind. -/
def ExportKind.name : ExportKind → String
  | func => "Func"
  | table => "Table"
  | memory => "Memory"
  | global => "Global"

/-- The keyword of an export kind. -/
def ExportKind.keyword : ExportKind → String
  | func => "func"
  | table => "table"
  | memory => "memory"
  | global => "global"

/-- The export kind of a keyword. -/
def ExportKind.ofKeyword? (s : String) : Option ExportKind :=
  [func, table, memory, global].find? (·.keyword == s)

/-- A name and its spelling in the source.  A generated name has no spelling. -/
structure Identifier where
  value : String
  raw : String
  deriving DecidableEq, Repr

namespace Identifier

/-- A name spelled as it is. -/
def ofString (value : String) : Identifier := ⟨value, value⟩

/-- A generated name. -/
def synthesized (value : String) : Identifier := ⟨value, ""⟩

/-- Whether the name was generated. -/
def isSynthesized (id : Identifier) : Bool := id.raw.isEmpty

end Identifier

/-- A 64-bit integer and its spelling. -/
structure NumberLiteral where
  value : Int
  raw : String
  deriving DecidableEq, Repr

namespace NumberLiteral

/-- An integer in its decimal spelling. -/
def ofInt (value : Int) : NumberLiteral := ⟨value, toString value⟩

/-- The integer modulo `2 ^ 32`. -/
def toU32 (n : NumberLiteral) : Nat := (n.value % UInt32.size).toNat

/-- The integer wrapped into 32 bits with a sign. -/
def toI32 (n : NumberLiteral) : Int := Int.bmod n.value UInt32.size

end NumberLiteral

/-- A 64-bit integer in two halves and its spelling. -/
structure LongNumberLiteral where
  value : LongNumber
  raw : String
  deriving DecidableEq, Repr

/-- The bit pattern of a float literal at the width of its instruction. -/
inductive FloatBits where
  | f32 (bits : Nat)
  | f64 (bits : Nat)
  deriving DecidableEq, Repr

/-- A float literal: its bit pattern, what kind of number it is, and its spelling. -/
structure FloatLiteral where
  bits : FloatBits
  nan : Bool
  inf : Bool
  raw : String
  deriving DecidableEq, Repr

namespace FloatLiteral

/-- A single precision literal. -/
def ofF32 (bits : Nat) (raw : String) : FloatLiteral :=
  ⟨.f32 bits, binary32.isNan bits, binary32.isInfinite bits, raw⟩

/-- A double precision literal. -/
def ofF64 (bits : Nat) (raw : String) : FloatLiteral :=
  ⟨.f64 bits, binary64.isNan bits, binary64.isInfinite bits, raw⟩

/-- The pattern of the literal in single precision. -/
def toF32 (l : FloatLiteral) : Nat :=
  match l.bits with
  | .f32 b => b
  | .f64 b => binary64.convert binary32 b

/-- The pattern of the literal in double precision. -/
def toF64 (l : FloatLiteral) : Nat :=
  match l.bits with
  | .f32 b => binary32.convert binary64 b
  | .f64 b => b

end FloatLiteral

/-- A reference to a function, local, global, type, label, memory or table. -/
inductive Index where
  | number (literal : NumberLiteral)
  | identifier (id : Identifier)
  deriving DecidableEq, Repr

namespace Index

/-- The reference to a position. -/
def ofNat (n : Nat) : Index := .number (.ofInt n)

/-- The position, if the reference is numeric. -/
def number? : Index → Option Nat
  | number n => some n.toU32
  | identifier _ => none

/-- The reference as messages show it. -/
def display : Index → String
  | number n => toString n.value
  | identifier id => "$" ++ id.value

end Index

/-- A parameter or local of a function. -/
structure Param where
  id : Option String
  valtype : Valtype
  deriving DecidableEq, Repr

/-- A parameter without a name. -/
def Param.anonymous (t : Valtype) : Param := ⟨none, t⟩

/-- The parameters and results of a function. -/
structure Signature where
  params : List Param
  results : List Valtype
  deriving DecidableEq, Repr

namespace Signature

/-- The types of the parameters. -/
def paramTypes (s : Signature) : List Valtype := s.params.map Param.valtype

/-- The signature as messages show it. -/
def display (s : Signature) : String :=
  let join := fun ts : List Valtype => ", ".intercalate (ts.map Valtype.name)
  "[" ++ join s.paramTypes ++ "] -> [" ++ join s.results ++ "]"

end Signature

/-- A signature in place, or a reference to a type definition. -/
inductive SignatureRef where
  | inline (signature : Signature)
  | ref (index : Index)
  deriving DecidableEq, Repr

/-- The types of the arguments and results of a function. -/
structure FuncType where
  args : List Valtype
  result : List Valtype
  deriving DecidableEq, Repr

/-- The type described by a signature. -/
def Signature.funcType (s : Signature) : FuncType := ⟨s.paramTypes, s.results⟩

/-- The least and the greatest size of a memory or table. -/
structure Limits where
  min : Nat
  max : Option Nat
  deriving DecidableEq, Repr

/-- The type of a global. -/
structure GlobalType where
  valtype : Valtype
  mutability : Mutability
  deriving DecidableEq, Repr

/-- The immediates of a memory access: the binary logarithm of the alignment, and the offset. -/
structure MemArg where
  align : Nat
  offset : Nat
  deriving DecidableEq, Repr

/-- A table definition or the table part of an import. -/
structure TableDef where
  elementType : String
  limits : Limits
  name : Option Identifier
  elements : List Index
  deriving DecidableEq, Repr

/-- A memory definition or the memory part of an import. -/
structure MemoryDef where
  limits : Limits
  id : Option Identifier
  deriving DecidableEq, Repr

/-- The function part of an import. -/
structure FuncImport where
  id : Identifier
  signature : SignatureRef
  deriving DecidableEq, Repr

/-- What an import brings in. -/
inductive ImportDescr where
  | func (descr : FuncImport)
  | global (type : GlobalType)
  | memory (memory : MemoryDef)
  | table (table : TableDef)
  deriving DecidableEq, Repr

/-- An import.  The name belongs to a global, whose description has none. -/
structure ModuleImport where
  module : String
  name : String
  descr : ImportDescr
  id : Option Identifier
  deriving DecidableEq, Repr

/-- What an export refers to. -/
structure ExportDescr where
  kind : ExportKind
  id : Index
  deriving DecidableEq, Repr

/-- An export. -/
structure ModuleExport where
  name : String
  descr : ExportDescr
  deriving DecidableEq, Repr

/-- A type definition. -/
structure TypeDef where
  id : Option Identifier
  functype : Signature
  deriving DecidableEq, Repr

/-- Where a section of a binary module lies, and how many entries it has. -/
structure SectionMetadata where
  title : String
  startOffset : Nat
  size : NumberLiteral
  vectorSize : NumberLiteral
  deriving DecidableEq, Repr

/-- A function name given by a binary module. -/
structure FunctionName where
  value : String
  index : Nat
  deriving DecidableEq, Repr

/-- A local name given by a binary module. -/
structure LocalName where
  value : String
  localIndex : Nat
  functionIndex : Nat
  deriving DecidableEq, Repr

/-- The module name given by a binary module. -/
structure ModuleName where
  value : String
  deriving DecidableEq, Repr

/-- What a binary module says about itself besides its contents. -/
structure ModuleMetadata where
  sections : List SectionMetadata
  functionNames : List FunctionName
  localNames : List LocalName
  moduleName : Option ModuleName
  deriving DecidableEq, Repr

/-- The size in bytes of a function body in a binary module. -/
structure FuncMetadata where
  bodySize : Nat
  deriving DecidableEq, Repr

end WasmEngine
