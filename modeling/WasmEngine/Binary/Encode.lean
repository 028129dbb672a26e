import WasmEngine.Opcode
import WasmEngine.Bytes.Writer
import WasmEngine.Binary.Layout
import WasmEngine.Syntax.Node

/-!
# Encoding modules

A module with numeric indices as bytes.  Fields are grouped by section and kept in order within
each.  Signatures share entries of the type section, which begins with the type definitions of the
module.  The elements written inside a table become a segment at its start, and the names of functions
that have a spelling go to the name section.
-/

namespace WasmEngine.Binary

/-- Why a module has no binary form. -/
inductive EncodeError where
  | unresolvedIdentifier (name : String)
  | unknownInstruction (mnemonic : String)
  | invalidImmediate (mnemonic : String)
  | unknownType (index : Nat)
  | unexpectedNode (kind : NodeKind)
  deriving DecidableEq, Repr

/-- The text of an error. -/
def EncodeError.message : EncodeError → String
  | unresolvedIdentifier name => s!"unresolved identifier ${name} cannot be encoded"
  | unknownInstruction mnemonic => s!"Unknown instruction {mnemonic}"
  | invalidImmediate mnemonic => s!"invalid immediate for {mnemonic}"
  | unknownType index => s!"A type instruction reference was not found: {index}"
  | unexpectedNode kind => s!"Unexpected {kind.name} in instruction sequence"

/-- The entries of the type section so far, and how many of them the module defines itself. -/
structure TypeTable where
  entries : List FuncType
  declared : Nat

/-- Encoding that adds entries to the type section. -/
abbrev EncodeM := StateT TypeTable (Except EncodeError)

namespace Encode

open Write (unsigned signed name byteVector sectionOf)

/-- A number that takes 32 bits. -/
def u32 (n : Nat) : List UInt8 := unsigned (n % UInt32.size)

/-- Things after their count. -/
def vector {α : Type} (f : α → List UInt8) (items : List α) : List UInt8 :=
  u32 items.length ++ items.flatMap f

/-- A numeric reference. -/
def index : Index → Except EncodeError Nat
  | .number n => .ok n.toU32
  | .identifier id => .error (.unresolvedIdentifier id.value)

/-- References after their count. -/
def indices (is : List Index) : Except EncodeError (List UInt8) :=
  return vector u32 (← is.mapM index)

/-- The type index of a signature.  A signature in place shares the first equal entry, or adds one;
a reference has to denote a type definition of the module. -/
def typeIndex (signature : SignatureRef) : EncodeM Nat := fun table =>
  match signature with
  | .inline s =>
    match table.entries.findIdx? (· == s.funcType) with
    | some position => .ok (position, table)
    | none => .ok (table.entries.length, { table with entries := table.entries ++ [s.funcType] })
  | .ref reference =>
    match index reference with
    | .error e => .error e
    | .ok position =>
      if position < table.declared then .ok (position, table) else .error (.unknownType position)

/-- Value types after their count. -/
def valtypes (ts : List Valtype) : List UInt8 := u32 ts.length ++ ts.map valtypeByte

/-- A function type. -/
def funcType (t : FuncType) : List UInt8 := funcTypeByte :: (valtypes t.args ++ valtypes t.result)

/-- Limits after their flag. -/
def limits (l : Limits) : List UInt8 :=
  match l.max with
  | some max => 0x01 :: (u32 l.min ++ u32 max)
  | none => 0x00 :: u32 l.min

/-- The type of a global. -/
def globalType (t : GlobalType) : List UInt8 := [valtypeByte t.valtype, mutabilityByte t.mutability]

/-- The type of a table. -/
def tableType (t : TableDef) : List UInt8 := anyFuncByte :: limits t.limits

/-- The type of a block. -/
def blockType : Option Valtype → UInt8
  | some t => valtypeByte t
  | none => emptyBlockByte

/-- An index argument of a plain instruction. -/
def indexArg (invalid : EncodeError) : Option Node → Except EncodeError (List UInt8)
  | some (.number n) => .ok (u32 n.toU32)
  | some (.identifier id) => .error (.unresolvedIdentifier id.value)
  | _ => .error invalid

/-- The immediates of a plain instruction. -/
def immediates (op : Opcode) (invalid : EncodeError) (args : List Node) (memArg : Option MemArg) :
    Except EncodeError (List UInt8) :=
  match op.immediate with
  | .none => .ok []
  | .memoryReserved => .ok [0x00]
  | .index => indexArg invalid args.head?
  | .brTable =>
    if args.isEmpty then .error invalid
    else do
      let labels ← args.mapM fun arg => indexArg invalid (some arg)
      return u32 (args.length - 1) ++ labels.flatten
  | .memArg =>
    match memArg with
    | some m => .ok (u32 m.align ++ u32 m.offset)
    | none => .error invalid
  | .i32 =>
    match args.head? with
    | some (.number n) => .ok (signed n.toI32)
    | _ => .error invalid
  | .i64 =>
    match args.head? with
    | some (.longNumber n) => .ok (signed n.value.toInt)
    | some (.number n) => .ok (signed n.value)
    | _ => .error invalid
  | .f32 =>
    match args.head? with
    | some (.float l) => .ok (LittleEndian.bytes 4 l.toF32)
    | _ => .error invalid
  | .f64 =>
    match args.head? with
    | some (.float l) => .ok (LittleEndian.bytes 8 l.toF64)
    | _ => .error invalid
  | .block | .callIndirect => .error invalid

/-- A plain instruction; an `end` is implied by the sequence around it. -/
def plain (id : String) (object : Option Valtype) (args : List Node) (memArg : Option MemArg) :
    Except EncodeError (List UInt8) :=
  if object.isNone && id == "end" then .ok []
  else
    let m := mnemonic object id
    match Opcode.ofMnemonic? m with
    | none => .error (.unknownInstruction m)
    | some op => return op.byte :: (← immediates op (.invalidImmediate m) args memArg)

mutual

/-- An instruction. -/
def instruction : Node → EncodeM (List UInt8)
  | .instr id object args memArg => plain id object args memArg
  | .block _ body result => do
    let body ← instructions body
    return blockByte :: blockType result :: (body ++ [endByte])
  | .loop _ result body => do
    let body ← instructions body
    return loopByte :: blockType result :: (body ++ [endByte])
  | .ifElse _ result consequent alternate => do
    let whenTrue ← instructions consequent
    let whenFalse ← instructions alternate
    let whenFalse := if alternate.isEmpty then [] else elseByte :: whenFalse
    return ifByte :: blockType result :: (whenTrue ++ whenFalse ++ [endByte])
  | .call i => return callByte :: u32 (← index i)
  | .callIndirect signature => do
    let position ← typeIndex signature
    return callIndirectByte :: (u32 position ++ [0x00])
  | node => throw (.unexpectedNode node.kind)

/-- Instructions in a row. -/
def instructions : List Node → EncodeM (List UInt8)
  | [] => return []
  | node :: nodes => do
    let here ← instruction node
    let rest ← instructions nodes
    return here ++ rest

end

theorem instruction_instr (id : String) (object : Option Valtype) (args : List Node)
    (memArg : Option MemArg) : instruction (.instr id object args memArg) = plain id object args memArg := rfl

theorem instruction_block (label : Identifier) (body : List Node) (result : Option Valtype) :
    instruction (.block label body result) = do
      let body ← instructions body
      return blockByte :: blockType result :: (body ++ [endByte]) := rfl

theorem instruction_loop (label : Identifier) (result : Option Valtype) (body : List Node) :
    instruction (.loop label result body) = do
      let body ← instructions body
      return loopByte :: blockType result :: (body ++ [endByte]) := rfl

theorem instruction_ifElse (label : Identifier) (result : Option Valtype) (consequent alternate : List Node) :
    instruction (.ifElse label result consequent alternate) = do
      let whenTrue ← instructions consequent
      let whenFalse ← instructions alternate
      let whenFalse := if alternate.isEmpty then [] else elseByte :: whenFalse
      return ifByte :: blockType result :: (whenTrue ++ whenFalse ++ [endByte]) := rfl

theorem instruction_call (i : Index) :
    instruction (.call i) = do return callByte :: u32 (← index i) := rfl

theorem instruction_callIndirect (signature : SignatureRef) :
    instruction (.callIndirect signature) = do
      let position ← typeIndex signature
      return callIndirectByte :: (u32 position ++ [0x00]) := rfl

theorem instructions_cons (node : Node) (nodes : List Node) :
    instructions (node :: nodes) = do
      let here ← instruction node
      let rest ← instructions nodes
      return here ++ rest := rfl

/-- Instructions and the `end` that closes them. -/
def expression (body : List Node) : EncodeM (List UInt8) := return (← instructions body) ++ [endByte]

/-- Equal neighbours put together. -/
def runs : List Valtype → List (Nat × Valtype)
  | [] => []
  | t :: ts =>
    match runs ts with
    | (count, t') :: rest => if t = t' then (count + 1, t) :: rest else (1, t) :: (count, t') :: rest
    | [] => [(1, t)]

/-- The locals and instructions of a function. -/
def body (f : Func) : EncodeM (List UInt8) := do
  let locals := vector (fun (count, t) => u32 count ++ [valtypeByte t]) (runs (f.locals.map Param.valtype))
  return locals ++ (← expression f.body)

/-- A section of entries, left out if there are none. -/
def vectorSection (id : SectionId) (entries : List (List UInt8)) : List UInt8 :=
  if entries.isEmpty then [] else sectionOf id.toByte (u32 entries.length ++ entries.flatten)

/-- The fields of a module by section. -/
structure Fields where
  types : List TypeDef
  imports : List ModuleImport
  funcs : List Func
  tables : List TableDef
  memories : List MemoryDef
  globals : List (GlobalType × List Node)
  exports : List ModuleExport
  starts : List Index
  elems : List (Index × List Node × List Index)
  data : List (Index × List Node × List UInt8)

/-- The fields of a module by section, in order. -/
def Fields.ofModule (m : Module) : Fields where
  types := m.fields.filterMap fun | .typeDef t => some t | _ => none
  imports := m.fields.filterMap fun | .moduleImport i => some i | _ => none
  funcs := m.fields.filterMap Node.func?
  tables := m.fields.filterMap fun | .table t => some t | _ => none
  memories := m.fields.filterMap fun | .memory m => some m | _ => none
  globals := m.fields.filterMap fun | .global type init _ => some (type, init) | _ => none
  exports := m.fields.filterMap fun | .moduleExport e => some e | _ => none
  starts := m.fields.filterMap fun | .start i => some i | _ => none
  elems := m.fields.filterMap fun | .elem target offset funcs => some (target, offset, funcs) | _ => none
  data := m.fields.filterMap fun | .data target offset init => some (target, offset, init) | _ => none

/-- The number of imported functions. -/
def Fields.importedFuncs (f : Fields) : Nat :=
  (f.imports.filter fun i => match i.descr with | .func _ => true | _ => false).length

/-- The number of imported tables. -/
def Fields.importedTables (f : Fields) : Nat :=
  (f.imports.filter fun i => match i.descr with | .table _ => true | _ => false).length

/-- An import whose function type, if it is a function, was found before. -/
def importEntry (i : ModuleImport) (type : Nat) : List UInt8 :=
  let descr := match i.descr with
    | .func _ => 0x00 :: u32 type
    | .table t => 0x01 :: tableType t
    | .memory m => 0x02 :: limits m.limits
    | .global t => 0x03 :: globalType t
  name i.module ++ name i.name ++ descr

/-- The type index of an imported function, zero for other imports. -/
def importType (i : ModuleImport) : EncodeM Nat :=
  match i.descr with
  | .func d => typeIndex d.signature
  | _ => return 0

/-- A global and its initial value. -/
def globalEntry (g : GlobalType × List Node) : EncodeM (List UInt8) :=
  return globalType g.1 ++ (← expression g.2)

/-- An export. -/
def exportEntry (e : ModuleExport) : Except EncodeError (List UInt8) :=
  return name e.name ++ exportKindByte e.descr.kind :: u32 (← index e.descr.id)

/-- The segment of the elements written inside the table at a position. -/
def inlineElements (position : Nat) (t : TableDef) : Except EncodeError (Option (List UInt8)) :=
  if t.elements.isEmpty then return none
  else return some (u32 position ++ [0x41, 0x00, endByte] ++ (← indices t.elements))

/-- An element segment. -/
def elemEntry (e : Index × List Node × List Index) : EncodeM (List UInt8) := do
  let target ← index e.1
  let offset ← expression e.2.1
  return u32 target ++ offset ++ (← indices e.2.2)

/-- A data segment. -/
def dataEntry (d : Index × List Node × List UInt8) : EncodeM (List UInt8) := do
  let target ← index d.1
  let offset ← expression d.2.1
  return u32 target ++ offset ++ byteVector d.2.2

/-- The section of the start function; the last of several counts. -/
def startSection (starts : List Index) : Except EncodeError (List UInt8) :=
  match starts.getLast? with
  | some i => return sectionOf SectionId.start.toByte (u32 (← index i))
  | none => return []

/-- The name section, left out if no function has a spelled name. -/
def nameSection (imported : Nat) (funcs : List Func) : List UInt8 :=
  let named := (funcs.zipIdx imported).filter fun (f, _) => !f.name.isSynthesized
  if named.isEmpty then []
  else
    let functions := vector (fun (f, position) => u32 position ++ name f.name.value) named
    sectionOf SectionId.custom.toByte (name "name" ++ 1 :: byteVector functions)

/-- All sections of a module.  The type section is written as soon as the bodies are known. -/
def module (fields : Fields) : EncodeM (List UInt8) := do
  let importTypes ← fields.imports.mapM importType
  let funcTypes ← fields.funcs.mapM fun f => typeIndex f.signature
  let bodies ← fields.funcs.mapM body
  let types := (← get).entries
  let globals ← fields.globals.mapM globalEntry
  let exports ← fields.exports.mapM fun e => exportEntry e
  let start ← startSection fields.starts
  let inline ← (fields.tables.zipIdx fields.importedTables).mapM fun (t, position) =>
    inlineElements position t
  let elems ← fields.elems.mapM elemEntry
  let data ← fields.data.mapM dataEntry
  return Write.preamble
    ++ vectorSection .type (types.map funcType)
    ++ vectorSection .imports (fields.imports.zipWith importEntry importTypes)
    ++ vectorSection .function (funcTypes.map u32)
    ++ vectorSection .table (fields.tables.map tableType)
    ++ vectorSection .memory (fields.memories.map fun m => limits m.limits)
    ++ vectorSection .global globals
    ++ vectorSection .exports exports
    ++ start
    ++ vectorSection .element (inline.filterMap id ++ elems)
    ++ vectorSection .code (bodies.map byteVector)
    ++ vectorSection .data data
    ++ nameSection fields.importedFuncs fields.funcs

end Encode

/-- The bytes of a module. -/
def encode (m : Module) : Except EncodeError (List UInt8) :=
  let fields := Encode.Fields.ofModule m
  let table : TypeTable := ⟨fields.types.map (·.functype.funcType), fields.types.length⟩
  return (← (Encode.module fields).run table).1

end WasmEngine.Binary
