import WasmEngine.Bytes.Reader
import WasmEngine.Binary.Layout
import WasmEngine.Syntax.NameGenerator
import WasmEngine.Syntax.Node

/-!
# The state of decoding

What has been read of a binary module so far, and the small reads that every section uses.
-/

namespace WasmEngine.Binary

/-- What to report and what to pass over. -/
structure DecoderOptions where
  dump : Bool
  ignoreCodeSection : Bool
  ignoreDataSection : Bool
  ignoreNameSection : Bool
  deriving DecidableEq, Repr

/-- Nothing is reported and nothing passed over. -/
def DecoderOptions.default : DecoderOptions := ⟨false, false, false, false⟩

/-- A function of the function index space, imported or still without a body. -/
structure DeclaredFunc where
  id : Identifier
  signature : Signature
  isImported : Bool

/-- A body of the code section. -/
structure CodeEntry where
  body : List Node
  locals : List Valtype
  size : Nat

/-- What has been read so far. -/
structure Decoder where
  options : DecoderOptions
  reader : Reader
  names : NameGenerator
  types : List Signature
  functions : List DeclaredFunc
  tables : Nat
  memories : Nat
  globals : Nat
  code : List CodeEntry
  exports : List Node
  fields : List Node
  metadata : ModuleMetadata
  nextSection : Nat
  trace : Array String

/-- The start of a binary module. -/
def Decoder.start (options : DecoderOptions) (bytes : List UInt8) : Decoder where
  options := options
  reader := .start bytes
  names := .empty
  types := []
  functions := []
  tables := 0
  memories := 0
  globals := 0
  code := []
  exports := []
  fields := []
  metadata := ⟨[], [], [], none⟩
  nextSection := 1
  trace := #[]

/-- A step of decoding; a failing step keeps what was read before. -/
abbrev DecodeM := EStateM DecodeError Decoder

namespace Decode

/-- A read as a step of decoding. -/
def read {α : Type} (r : Read α) : DecodeM α := fun d =>
  match r d.reader with
  | .ok a reader => .ok a { d with reader }
  | .error e reader => .error e { d with reader }

/-- The current offset. -/
def pos : DecodeM Nat := return (← get).reader.pos

/-- Fails at an offset. -/
def failAt {α : Type} (offset : Nat) (kind : DecodeErrorKind) : DecodeM α := throw ⟨kind, offset⟩

/-- Adds a line to the report, if one is wanted: the current offset and what was read. -/
def note (what : String) : DecodeM Unit := modify fun d =>
  if d.options.dump then
    { d with trace := d.trace.push ("0x" ++ Text.hexFixed 4 d.reader.pos ++ ":\t; " ++ what) }
  else d

/-- The next name of a stem. -/
def fresh (stem : String) : DecodeM String := fun d =>
  let (name, names) := d.names.unique stem
  .ok name { d with names }

/-- Adds a field to the module. -/
def addField (field : Node) : DecodeM Unit := modify fun d => { d with fields := d.fields ++ [field] }

/-- Repeats a step and collects the results. -/
def times {α : Type} (step : DecodeM α) : Nat → DecodeM (List α)
  | 0 => return []
  | n + 1 => do
    let a ← step
    let as ← times step n
    return a :: as

/-- Performs a step for each number from `i` on, `n` times. -/
def forEach (step : Nat → DecodeM Unit) (i : Nat) : Nat → DecodeM Unit
  | 0 => return ()
  | n + 1 => do
    step i
    forEach step (i + 1) n

/-- Passes over the bytes up to an offset. -/
def skipTo (stop : Nat) : DecodeM Unit := do
  let here ← pos
  read (.skip (stop - here))

/-- Requires the current offset to be the declared one. -/
def expectPosition (stop : Nat) (what : String) : DecodeM Unit := do
  let here ← pos
  if here != stop then failAt here (.sizeMismatch what stop here)

/-- A value type. -/
def valtype : DecodeM Valtype := do
  let start ← pos
  let byte ← read .byte
  match valtype? byte with
  | some t => return t
  | none => failAt start (.unexpectedValtype byte.toNat)

/-- Value types after their count. -/
def valtypes : DecodeM (List Valtype) := do
  let count ← read .u32
  times valtype count

/-- The signature of a type index. -/
def typeIndex : DecodeM Signature := do
  let start ← pos
  let index ← read .u32
  note s!"type index {index}"
  match (← get).types[index]? with
  | some signature => return signature
  | none => failAt start (.signatureNotFound index)

/-- The limits of a memory or table. -/
def limits : DecodeM Limits := do
  let start ← pos
  let flag ← read .byte
  if flag = 0 then
    return ⟨← read .u32, none⟩
  else if flag = 1 then
    let min ← read .u32
    let max ← read .u32
    return ⟨min, some max⟩
  else failAt start (.unknownLimitType flag.toNat)

/-- The type of a table, which gets a generated name. -/
def tableType : DecodeM TableDef := do
  let index := (← get).tables
  let start ← pos
  let elementType ← read .byte
  if elementType != anyFuncByte then failAt start (.unknownElementType elementType.toNat)
  let limits ← limits
  let name ← fresh "table"
  modify fun d => { d with tables := d.tables + 1 }
  return ⟨"anyfunc", limits, some ⟨name, toString index⟩, []⟩

/-- The type of a global. -/
def globalType : DecodeM GlobalType := do
  let type ← valtype
  let start ← pos
  let flag ← read .byte
  match mutability? flag with
  | some mutability => return ⟨type, mutability⟩
  | none => failAt start (.invalidMutability flag.toNat)

/-- The result type of a block. -/
def blockType : DecodeM (Option Valtype) := do
  let start ← pos
  let byte ← read .byte
  if byte = emptyBlockByte then return none
  match valtype? byte with
  | some t => return some t
  | none => failAt start (.unexpectedBlocktype byte.toNat)

/-- A reserved zero. -/
def zeroFlag : DecodeM Unit := do
  let start ← pos
  let flag ← read .u32
  if flag != 0 then failAt start .zeroFlagExpected

end Decode

end WasmEngine.Binary
