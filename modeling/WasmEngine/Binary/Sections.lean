import WasmEngine.Binary.Instructions
import WasmEngine.Text.Quoted

/-!
# Decoding sections and modules

Each section adds fields to the module or entries to the lists from which functions and exports are
put together at the end.
-/

namespace WasmEngine.Binary.Decode

/-- The greatest number of locals of a function. -/
def maxLocals : Nat := 50000

/-- A type definition. -/
def typeEntry (i : Nat) : DecodeM Unit := do
  let start ← pos
  let form ← read .byte
  if form != funcTypeByte then failAt start (.unsupportedType form.toNat)
  note s!"type {i}"
  let params ← valtypes
  let results ← valtypes
  let signature : Signature := ⟨params.map .anonymous, results⟩
  modify fun d => { d with types := d.types ++ [signature] }
  addField (.typeDef ⟨none, signature⟩)

/-- What an import brings in. -/
def importDescr (name : String) : DecodeM ImportDescr := do
  let start ← pos
  let kind ← read .byte
  match exportKind? kind with
  | some .func =>
    let signature ← typeIndex
    let id : Identifier := .ofString name
    modify fun d => { d with functions := d.functions ++ [⟨id, signature, true⟩] }
    return .func ⟨id, .inline signature⟩
  | some .table => return .table (← tableType)
  | some .memory =>
    let limits ← limits
    modify fun d => { d with memories := d.memories + 1 }
    return .memory ⟨limits, none⟩
  | some .global =>
    let type ← globalType
    modify fun d => { d with globals := d.globals + 1 }
    return .global type
  | none => failAt start (.unknownImportKind kind.toNat)

/-- An import. -/
def importEntry (i : Nat) : DecodeM Unit := do
  let module ← read .name
  let name ← read .name
  note s!"import {i} {module}.{name}"
  let descr ← importDescr name
  addField (.moduleImport ⟨module, name, descr, none⟩)

/-- The type of a function, which gets a generated name. -/
def functionEntry (_ : Nat) : DecodeM Unit := do
  let signature ← typeIndex
  let name ← fresh "func"
  modify fun d => { d with functions := d.functions ++ [⟨.synthesized name, signature, false⟩] }

/-- A table. -/
def tableEntry (_ : Nat) : DecodeM Unit := do addField (.table (← tableType))

/-- A memory. -/
def memoryEntry (_ : Nat) : DecodeM Unit := do
  let limits ← limits
  modify fun d => { d with memories := d.memories + 1 }
  addField (.memory ⟨limits, none⟩)

/-- A global and its initial value. -/
def globalEntry (_ : Nat) : DecodeM Unit := do
  let type ← globalType
  let init ← expression
  modify fun d => { d with globals := d.globals + 1 }
  addField (.global type init none)

/-- The name of an index space and how many entries it has. -/
def available (d : Decoder) : ExportKind → String × Nat
  | .func => ("function", d.functions.length)
  | .table => ("table", d.tables)
  | .memory => ("memory", d.memories)
  | .global => ("global", d.globals)

/-- An export, which has to refer to an entry. -/
def exportEntry (_ : Nat) : DecodeM Unit := do
  let name ← read .name
  let start ← pos
  let byte ← read .byte
  let index ← read .u32
  note s!"export {name} kind {byte.toNat} index {index}"
  match exportKind? byte with
  | none => failAt start (.unknownExportKind byte.toNat)
  | some kind =>
    let (space, count) := available (← get) kind
    if count ≤ index then failAt start (.entryNotFound index space)
    modify fun d => { d with exports := d.exports ++ [.moduleExport ⟨name, kind, .ofNat index⟩] }

/-- The start function. -/
def startSection : DecodeM Unit := do
  let index ← read .u32
  note s!"start function {index}"
  addField (.start (.ofNat index))

/-- An element segment. -/
def elementEntry (_ : Nat) : DecodeM Unit := do
  let target ← read .u32
  let offset ← expression
  let count ← read .u32
  let funcs ← times (read .u32) count
  addField (.elem (.ofNat target) offset (funcs.map .ofNat))

/-- The locals of a function in runs of one type, after `total` others. -/
def localRuns (total : Nat) : Nat → DecodeM (List Valtype)
  | 0 => return []
  | n + 1 => do
    let count ← read .u32
    let total := total + count
    if maxLocals < total then read (.fail .tooManyLocals)
    let type ← valtype
    let rest ← localRuns total n
    return List.replicate count type ++ rest

/-- A function body. -/
def codeEntry (i : Nat) : DecodeM Unit := do
  let size ← read .u32
  let start ← pos
  note s!"function body {i} ({size} bytes)"
  let runs ← read .u32
  let locals ← localRuns 0 runs
  let body ← expression
  expectPosition (start + size) "function body"
  modify fun d => { d with code := d.code ++ [⟨body, locals, size⟩] }

/-- A data segment, whose offset is a single instruction. -/
def dataEntry (_ : Nat) : DecodeM Unit := do
  let target ← read .u32
  let start ← pos
  let offset ← expression
  if offset.length != 1 then failAt start .dataOffset
  let count ← read .u32
  let values ← read (.bytes count)
  note s!"data segment ({count} bytes)"
  addField (.data (.ofNat target) offset values)

/-- A function name. -/
def functionName : DecodeM FunctionName := do
  let index ← read .u32
  let value ← read .name
  return ⟨value, index⟩

/-- The names of the locals of a function. -/
def localNames : DecodeM (List LocalName) := do
  let functionIndex ← read .u32
  let count ← read .u32
  times (do
    let localIndex ← read .u32
    let value ← read .name
    return ⟨value, localIndex, functionIndex⟩) count

/-- Changes the metadata of the module. -/
def modifyMetadata (f : ModuleMetadata → ModuleMetadata) : DecodeM Unit :=
  modify fun d => { d with metadata := f d.metadata }

/-- A part of the name section: the module name, function names or local names. -/
def nameSubsection : DecodeM Unit := do
  let id ← read .byte
  let size ← read .u32
  let stop := (← pos) + size
  if id = 0 then
    let value ← read .name
    modifyMetadata fun m => { m with moduleName := some ⟨value⟩ }
  else if id = 1 then
    let count ← read .u32
    forEach (fun _ => do
      let name ← functionName
      modifyMetadata fun m => { m with functionNames := m.functionNames ++ [name] }) 0 count
  else if id = 2 then
    let count ← read .u32
    forEach (fun _ => do
      let names ← localNames
      modifyMetadata fun m => { m with localNames := m.localNames ++ names }) 0 count
  else skipTo stop
  expectPosition stop "name subsection"

/-- The parts of the name section up to its end.  The fuel bounds their number. -/
def nameSubsections (stop : Nat) : Nat → DecodeM Unit
  | 0 => return ()
  | fuel + 1 => do
    if (← pos) < stop then
      nameSubsection
      nameSubsections stop fuel

/-- A custom section: the name section, or one to pass over. -/
def customSection (stop : Nat) : DecodeM Unit := do
  let name ← read .name
  if name == "name" && !(← get).options.ignoreNameSection then
    nameSubsections stop ((← get).reader.remaining + 1)
  else
    note s!"ignore custom {Text.stringLiteral name} section"
    skipTo stop

/-- The entries of a section that is a vector. -/
def vectorSection (id : SectionId) (count stop : Nat) : DecodeM Unit := do
  let options := (← get).options
  match id with
  | .type => forEach typeEntry 0 count
  | .imports => forEach importEntry 0 count
  | .function => forEach functionEntry 0 count
  | .table => forEach tableEntry 0 count
  | .memory => forEach memoryEntry 0 count
  | .global => forEach globalEntry 0 count
  | .exports => forEach exportEntry 0 count
  | .element => forEach elementEntry 0 count
  | .code => if options.ignoreCodeSection then skipTo stop else forEach codeEntry 0 count
  | .data => if options.ignoreDataSection then skipTo stop else forEach dataEntry 0 count
  | .custom | .start => return ()

/-- The contents of a section; gives the number of its entries. -/
def sectionBody (id : SectionId) (stop : Nat) : DecodeM Nat := do
  match id with
  | .custom =>
    customSection stop
    return 0
  | .start =>
    startSection
    return 0
  | _ =>
    let count ← read .u32
    note s!"{count} entries"
    vectorSection id count stop
    return count

/-- The number of a section, which may not come again or after a later one. -/
def sectionId : DecodeM SectionId := do
  let start ← pos
  let byte ← read .byte
  match SectionId.ofNat? byte.toNat with
  | some .custom => return .custom
  | some id =>
    if id.toNat < (← get).nextSection then failAt start (.unexpectedSection byte.toNat)
    modify fun d => { d with nextSection := id.toNat + 1 }
    return id
  | none => failAt start (.unexpectedSection byte.toNat)

/-- A section, which has to end where it says. -/
def readSection : DecodeM Unit := do
  let start ← pos
  let id ← sectionId
  let size ← read .u32
  let bodyStart ← pos
  if !(← get).reader.hasAtLeast size then read (.fail .unexpectedEnd)
  let stop := bodyStart + size
  note s!"section {id.name}"
  let count ← sectionBody id stop
  expectPosition stop "section"
  modifyMetadata fun m =>
    { m with sections := m.sections ++ [⟨id.name, start, .ofInt size, .ofInt count⟩] }

/-- Sections up to the end of the input.  The fuel bounds their number. -/
def readSections : Nat → DecodeM Unit
  | 0 => return ()
  | fuel + 1 => do
    if !(← get).reader.atEnd then
      readSection
      readSections fuel

/-- The magic bytes and the version. -/
def header : DecodeM Unit := do
  let magic ← read (.bytes 4)
  if magic != [0x00, 0x61, 0x73, 0x6d] then failAt 0 .magicHeader
  note "wasm magic header"
  let version ← read (.bytes 4)
  if version != [0x01, 0x00, 0x00, 0x00] then failAt 4 .unknownVersion
  note "wasm version"

end WasmEngine.Binary.Decode

/-! ## Modules

After all sections, the declared functions get their bodies in order and the names that the name
section gives them; exports come last.
-/

namespace WasmEngine.Binary

namespace Decode

/-- Names the slot of a parameter or local, if it exists. -/
def nameSlot (f : Func) (name : LocalName) : Func :=
  match f.signature with
  | .inline signature =>
    if name.localIndex < signature.params.length then
      let params := signature.params.modify name.localIndex ({ · with id := some name.value })
      { f with signature := .inline { signature with params } }
    else
      let slot := name.localIndex - signature.params.length
      { f with locals := f.locals.modify slot ({ · with id := some name.value }) }
  | .ref _ => { f with locals := f.locals.modify name.localIndex ({ · with id := some name.value }) }

/-- Names a function and its locals: the first function name of its index counts, and the last local
name of a slot. -/
def applyNames (metadata : ModuleMetadata) (index : Nat) (f : Func) : Func :=
  let f := match metadata.functionNames.find? (·.index == index) with
    | some name => { f with name := .ofString name.value }
    | none => f
  (metadata.localNames.filter (·.functionIndex == index)).foldl nameSlot f

/-- The definitions of the functions from `index` on, each with the next body. -/
def assemble (d : Decoder) : Nat → List DeclaredFunc → List CodeEntry → Except DecodeError (List Node)
  | _, [], _ => .ok []
  | index, f :: fs, code =>
    if f.isImported then assemble d (index + 1) fs code
    else if d.options.ignoreCodeSection then do
      let func : Func := ⟨f.id, .inline f.signature, [], [], none⟩
      return (applyNames d.metadata index func).toNode :: (← assemble d (index + 1) fs code)
    else
      match code with
      | [] => .error ⟨.codeNotFound index, d.reader.pos⟩
      | entry :: code => do
        let func : Func :=
          ⟨f.id, .inline f.signature, entry.locals.map .anonymous, entry.body, some ⟨entry.size⟩⟩
        return (applyNames d.metadata index func).toNode :: (← assemble d (index + 1) fs code)

/-- The program of what was read. -/
def finish (d : Decoder) : Except DecodeError Program := do
  let funcs ← assemble d 0 d.functions d.code
  return ⟨[.module none (d.fields ++ funcs ++ d.exports) (some d.metadata)]⟩

/-- Reads a whole module. -/
def module : DecodeM Program := do
  header
  readSections ((← get).reader.remaining + 1)
  match finish (← get) with
  | .ok program => return program
  | .error e => throw e

end Decode

/-- The program of a binary module, and the report of what was read on the way. -/
def decodeWithTrace (options : DecoderOptions) (bytes : List UInt8) :
    Except DecodeError Program × Array String :=
  match Decode.module (.start options bytes) with
  | .ok program d => (.ok program, d.trace)
  | .error e d => (.error e, d.trace)

/-- The program of a binary module. -/
def decode (options : DecoderOptions) (bytes : List UInt8) : Except DecodeError Program :=
  (decodeWithTrace options bytes).1

end WasmEngine.Binary
