import WasmEngine.Syntax.Types

/-!
# Bytes of the binary format

The numbers that stand for types, kinds and flags in a binary module.
-/

namespace WasmEngine.Binary

/-- The byte of a value type. -/
def valtypeByte : Valtype → UInt8
  | .i32 => 0x7f
  | .i64 => 0x7e
  | .f32 => 0x7d
  | .f64 => 0x7c

/-- The value type of a byte. -/
def valtype? (b : UInt8) : Option Valtype :=
  if b = 0x7f then some .i32
  else if b = 0x7e then some .i64
  else if b = 0x7d then some .f32
  else if b = 0x7c then some .f64
  else none

theorem valtype?_valtypeByte (t : Valtype) : valtype? (valtypeByte t) = some t := by
  cases t <;> rfl

/-- The byte that opens a function type. -/
def funcTypeByte : UInt8 := 0x60

/-- The byte of the element type of tables. -/
def anyFuncByte : UInt8 := 0x70

/-- The byte of a block without a result. -/
def emptyBlockByte : UInt8 := 0x40

/-- The byte of an export kind, which is also that of an import. -/
def exportKindByte : ExportKind → UInt8
  | .func => 0x00
  | .table => 0x01
  | .memory => 0x02
  | .global => 0x03

/-- The export kind of a byte. -/
def exportKind? (b : UInt8) : Option ExportKind :=
  if b = 0x00 then some .func
  else if b = 0x01 then some .table
  else if b = 0x02 then some .memory
  else if b = 0x03 then some .global
  else none

/-- The byte of a mutability. -/
def mutabilityByte : Mutability → UInt8
  | .const => 0x00
  | .var => 0x01

/-- The mutability of a byte. -/
def mutability? (b : UInt8) : Option Mutability :=
  if b = 0x00 then some .const else if b = 0x01 then some .var else none

/-- The bytes of the instructions that give a body its structure. -/
def blockByte : UInt8 := 0x02
def loopByte : UInt8 := 0x03
def ifByte : UInt8 := 0x04
def elseByte : UInt8 := 0x05
def endByte : UInt8 := 0x0b
def callByte : UInt8 := 0x10
def callIndirectByte : UInt8 := 0x11

/-- A section of a binary module.  All but custom sections come at most once and in this order. -/
inductive SectionId where
  | custom
  | type
  | imports
  | function
  | table
  | memory
  | global
  | exports
  | start
  | element
  | code
  | data
  deriving DecidableEq, Repr

namespace SectionId

/-- The number of a section. -/
def toNat : SectionId → Nat
  | custom => 0
  | type => 1
  | imports => 2
  | function => 3
  | table => 4
  | memory => 5
  | global => 6
  | exports => 7
  | start => 8
  | element => 9
  | code => 10
  | data => 11

/-- The section of a number. -/
def ofNat? : Nat → Option SectionId
  | 0 => some custom
  | 1 => some type
  | 2 => some imports
  | 3 => some function
  | 4 => some table
  | 5 => some memory
  | 6 => some global
  | 7 => some exports
  | 8 => some start
  | 9 => some element
  | 10 => some code
  | 11 => some data
  | _ => none

theorem ofNat?_toNat (s : SectionId) : ofNat? s.toNat = some s := by cases s <;> rfl

/-- The byte of a section. -/
def toByte (s : SectionId) : UInt8 := UInt8.ofNat s.toNat

/-- The name of a section. -/
def name : SectionId → String
  | custom => "custom"
  | type => "type"
  | imports => "import"
  | function => "func"
  | table => "table"
  | memory => "memory"
  | global => "global"
  | exports => "export"
  | start => "start"
  | element => "element"
  | code => "code"
  | data => "data"

end SectionId

end WasmEngine.Binary
