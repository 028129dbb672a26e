import WasmEngine.Wat.Parse

/-!
# Definitions that can be imported

Functions, globals, memories and tables are read alike: a name, the exports inside the definition, and then an import
inside it or what it defines.  `readImportable` is that common shape, and each of the four readers is it applied to
what its own kind reads in the two cases.
-/

namespace WasmEngine.Wat

/-- Reads a definition whose rest depends on whether an import stands inside it. -/
def readImportable (stem : String) (kind : ExportKind)
    (imported : Identifier → List Node → String × String → Items → ParseM (List Node))
    (defined : Identifier → List Node → Items → ParseM (List Node)) (e : SExpr) : ParseM (List Node) := do
  let (name, items) ← nameOrFresh (.ofExpr e) stem
  let (exports, items) ← takeExports items kind name
  match items.takeList "import" with
  | (some form, items) =>
    let origin ← parseInlineImport form
    imported name exports origin items
  | (none, items) => defined name exports items

section Readers

variable (fuel : Nat) (name : Identifier) (exports : List Node) (origin : String × String) (items : Items)

/-- The rest of an imported function. -/
def importedFunc : ParseM (List Node) := do
  let (signature, items) ← parseTypeUse items
  items.expectEnd "func import"
  return importNode origin.1 origin.2 (.func ⟨name, signature⟩) :: exports

/-- The rest of a function. -/
def definedFunc : ParseM (List Node) := do
  let (signature, items) ← parseTypeUse items
  let (forms, items) := items.takeLists "local"
  let locals ← forms.mapM fun form => parseParams form
  let body ← parseBody fuel items
  return .func name signature locals.flatten body none :: exports

/-- The rest of an imported global. -/
def importedGlobal : ParseM (List Node) := do
  let (type, items) ← parseGlobalType items
  items.expectEnd "global import"
  return .moduleImport ⟨origin.1, origin.2, .global type, some name⟩ :: exports

/-- The rest of a global. -/
def definedGlobal : ParseM (List Node) := do
  let (type, items) ← parseGlobalType items
  let init ← parseBody fuel items
  return .global type init (some name) :: exports

/-- The rest of an imported memory. -/
def importedMemory : ParseM (List Node) := do
  let (limits, items) ← parseLimits items
  items.expectEnd "memory import"
  return importNode origin.1 origin.2 (.memory ⟨limits, some name⟩) :: exports

/-- The rest of a memory. -/
def definedMemory : ParseM (List Node) := do
  match items.takeList "data" with
  | (some form, items) =>
    items.expectEnd "memory"
    let bytes ← parseDataStrings (Items.ofExpr form).rest
    let pages := (bytes.length + 0xffff) / 0x10000
    return .memory ⟨⟨pages, some pages⟩, some name⟩ :: .data (.identifier name) zeroOffset bytes :: exports
  | (none, items) =>
    let (limits, items) ← parseLimits items
    items.expectEnd "memory"
    return .memory ⟨limits, some name⟩ :: exports

/-- The rest of an imported table. -/
def importedTable : ParseM (List Node) := do
  let (limits, items) ← parseLimits items
  let items ← parseElementType items
  items.expectEnd "table import"
  return importNode origin.1 origin.2 (.table (tableDef limits (some name) [])) :: exports

/-- The rest of a table. -/
def definedTable : ParseM (List Node) := do
  if (items.next.1.bind SExpr.number?).isSome then
    let (limits, items) ← parseLimits items
    let items ← parseElementType items
    items.expectEnd "table"
    return .table (tableDef limits (some name) []) :: exports
  else
    let items ← parseElementType items
    let (elements, items) ← takeElements items
    items.expectEnd "table"
    let size := elements.length
    return .table (tableDef ⟨size, some size⟩ (some name) elements) :: exports

end Readers

/-- A function is read as a definition that may be imported. -/
theorem parseFunc_eq_readImportable (fuel : Nat) (e : SExpr) :
    parseFunc fuel e = readImportable "func" .func importedFunc (definedFunc fuel) e := rfl

/-- A global is read as a definition that may be imported. -/
theorem parseGlobal_eq_readImportable (fuel : Nat) (e : SExpr) :
    parseGlobal fuel e = readImportable "global" .global importedGlobal (definedGlobal fuel) e := rfl

/-- A memory is read as a definition that may be imported. -/
theorem parseMemory_eq_readImportable (e : SExpr) :
    parseMemory e = readImportable "memory" .memory importedMemory definedMemory e := rfl

/-- A table is read as a definition that may be imported. -/
theorem parseTable_eq_readImportable (e : SExpr) :
    parseTable e = readImportable "table" .table importedTable definedTable e := rfl

end WasmEngine.Wat
