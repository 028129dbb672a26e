import WasmEngine.Wat.Instruction

/-!
# Reading modules

The fields of a module.  An export written inside a definition becomes a field of its own right after
it, an import written inside a definition takes its place, and data written inside a memory becomes a
segment at its start.
-/

namespace WasmEngine.Wat

/-- The export fields of the `(export "name")` forms that come next. -/
def takeExports (i : Items) (kind : ExportKind) (id : Identifier) : Parsed (List Node × Items) := do
  let (forms, items) := i.takeLists "export"
  let names ← forms.mapM parseInlineExport
  return (names.map fun name => .moduleExport ⟨name, kind, .identifier id⟩, items)

/-- The import of a function, memory or table, which carries its own name. -/
def importNode (module name : String) (descr : ImportDescr) : Node :=
  .moduleImport ⟨module, name, descr, none⟩

/-- A table without a place of its own for the element type. -/
def tableDef (limits : Limits) (name : Option Identifier) (elements : List Index) : TableDef :=
  ⟨"anyfunc", limits, name, elements⟩

/-- A type definition. -/
def parseType (e : SExpr) : Parsed (List Node) := do
  let (id, items) := (Items.ofExpr e).takeId
  match items.takeList "func" with
  | (none, items) => .error ⟨.expectedFuncType, items.here⟩
  | (some func, items) =>
    items.expectEnd "type"
    let (signature, inner) ← parseSignature (.ofExpr func)
    inner.expectEnd "func type"
    return [.typeDef ⟨id.map .ofString, signature⟩]

/-- What an import brings in, and its name in the case of a global. -/
def parseImportDescr (module name : String) (descr : SExpr) :
    Parsed (ImportDescr × Option Identifier × Items) :=
  let (id, inner) := (Items.ofExpr descr).takeId
  match descr.head? with
  | some "func" => do
    let (signature, inner) ← parseTypeUse inner
    return (.func ⟨.ofString (id.getD (module ++ "." ++ name)), signature⟩, none, inner)
  | some "global" => do
    let (type, inner) ← parseGlobalType inner
    return (.global type, id.map .ofString, inner)
  | some "memory" => do
    let (limits, inner) ← parseLimits inner
    return (.memory ⟨limits, id.map .ofString⟩, none, inner)
  | some "table" => do
    let (limits, inner) ← parseLimits inner
    let inner ← parseElementType inner
    return (.table (tableDef limits (id.map .ofString) []), none, inner)
  | _ => unexpected descr "import"

/-- An import. -/
def parseImport (e : SExpr) : Parsed (List Node) := do
  let (module, items) ← (Items.ofExpr e).expectString "import"
  let (name, items) ← items.expectString "import"
  match items.next with
  | (none, _) => .error ⟨.expectedImportDescr, e.span⟩
  | (some descr, items) =>
    items.expectEnd "import"
    let (descr, id, inner) ← parseImportDescr module name descr
    inner.expectEnd "import"
    return [.moduleImport ⟨module, name, descr, id⟩]

/-- An export. -/
def parseExport (e : SExpr) : Parsed (List Node) := do
  let (name, items) ← (Items.ofExpr e).expectString "export"
  match items.next with
  | (none, _) => .error ⟨.unknownExportType, e.span⟩
  | (some descr, items) =>
    items.expectEnd "export"
    match descr.head?.bind ExportKind.ofKeyword? with
    | none => .error ⟨.unknownExportType, descr.span⟩
    | some kind =>
      match (Items.ofExpr descr).next with
      | (none, _) => .error ⟨.exportWithoutIndex, descr.span⟩
      | (some index, inner) =>
        let index ← parseIndex index
        inner.expectEnd "export"
        return [.moduleExport ⟨name, kind, index⟩]

/-- A function definition or import. -/
def parseFunc (fuel : Nat) (e : SExpr) : ParseM (List Node) := do
  let (name, items) ← nameOrFresh (.ofExpr e) "func"
  let (exports, items) ← takeExports items .func name
  match items.takeList "import" with
  | (some form, items) =>
    let (module, field) ← parseInlineImport form
    let (signature, items) ← parseTypeUse items
    items.expectEnd "func import"
    return importNode module field (.func ⟨name, signature⟩) :: exports
  | (none, items) =>
    let (signature, items) ← parseTypeUse items
    let (forms, items) := items.takeLists "local"
    let locals ← forms.mapM fun form => parseParams form
    let body ← parseBody fuel items
    return .func name signature locals.flatten body none :: exports

/-- A global definition or import. -/
def parseGlobal (fuel : Nat) (e : SExpr) : ParseM (List Node) := do
  let (name, items) ← nameOrFresh (.ofExpr e) "global"
  let (exports, items) ← takeExports items .global name
  match items.takeList "import" with
  | (some form, items) =>
    let (module, field) ← parseInlineImport form
    let (type, items) ← parseGlobalType items
    items.expectEnd "global import"
    return .moduleImport ⟨module, field, .global type, some name⟩ :: exports
  | (none, items) =>
    let (type, items) ← parseGlobalType items
    let init ← parseBody fuel items
    return .global type init (some name) :: exports

/-- Bytes given by strings in a row. -/
def parseDataStrings (es : List SExpr) : Parsed (List UInt8) := do
  let strings ← es.mapM fun e =>
    match e.string? with
    | some bytes => .ok bytes
    | none => unexpected e "data"
  return strings.flatten

/-- The constant zero as an offset. -/
def zeroOffset : List Node := [.instr "const" (some .i32) [.number (.ofInt 0)] none]

/-- A memory definition or import.  Data inside it fixes its size. -/
def parseMemory (e : SExpr) : ParseM (List Node) := do
  let (id, items) ← nameOrFresh (.ofExpr e) "memory"
  let (exports, items) ← takeExports items .memory id
  match items.takeList "import" with
  | (some form, items) =>
    let (module, field) ← parseInlineImport form
    let (limits, items) ← parseLimits items
    items.expectEnd "memory import"
    return importNode module field (.memory ⟨limits, some id⟩) :: exports
  | (none, items) =>
    match items.takeList "data" with
    | (some form, items) =>
      items.expectEnd "memory"
      let bytes ← parseDataStrings (Items.ofExpr form).rest
      let pages := (bytes.length + 0xffff) / 0x10000
      return .memory ⟨⟨pages, some pages⟩, some id⟩ :: .data (.identifier id) zeroOffset bytes :: exports
    | (none, items) =>
      let (limits, items) ← parseLimits items
      items.expectEnd "memory"
      return .memory ⟨limits, some id⟩ :: exports

/-- The functions in `(elem f*)` inside a table. -/
def takeElements (i : Items) : Parsed (List Index × Items) :=
  match i.takeList "elem" with
  | (none, items) => .ok ([], items)
  | (some form, items) => return (← (Items.ofExpr form).rest.mapM parseIndex, items)

/-- A table definition or import.  Elements inside it fix its size. -/
def parseTable (e : SExpr) : ParseM (List Node) := do
  let (name, items) ← nameOrFresh (.ofExpr e) "table"
  let (exports, items) ← takeExports items .table name
  match items.takeList "import" with
  | (some form, items) =>
    let (module, field) ← parseInlineImport form
    let (limits, items) ← parseLimits items
    let items ← parseElementType items
    items.expectEnd "table import"
    return importNode module field (.table (tableDef limits (some name) [])) :: exports
  | (none, items) =>
    if (items.next.1.bind SExpr.number?).isSome then
      let (limits, items) ← parseLimits items
      let items ← parseElementType items
      items.expectEnd "table"
      return .table (tableDef limits (some name) []) :: exports
    else
      let items ← parseElementType items
      let (elements, items) ← takeElements items
      items.expectEnd "table"
      let size := elements.length
      return .table (tableDef ⟨size, some size⟩ (some name) elements) :: exports

/-- The offset of a segment: `(offset instr*)` or one folded instruction. -/
def parseOffset (fuel : Nat) (i : Items) (context : String) : ParseM (List Node × Items) :=
  match i.takeList "offset" with
  | (some form, items) => return (← parseBody fuel (.ofExpr form), items)
  | (none, items) =>
    match items.next with
    | (none, _) => throw ⟨.expectedOffset context, i.span⟩
    | (some e, items) =>
      if e.isList then return (← parseFolded fuel 0 e, items) else unexpected e context

/-- A data segment. -/
def parseData (fuel : Nat) (e : SExpr) : ParseM (List Node) := do
  let (target, items) ← parseOptionalIndex (.ofExpr e)
  let (offset, items) ← parseOffset fuel items "data"
  let bytes ← parseDataStrings items.rest
  return [.data target offset bytes]

/-- An element segment. -/
def parseElem (fuel : Nat) (e : SExpr) : ParseM (List Node) := do
  let (target, items) ← parseOptionalIndex (.ofExpr e)
  let (offset, items) ← parseOffset fuel items "elem"
  let funcs ← items.rest.mapM fun index => parseIndex index
  return [.elem target offset funcs]

/-- A start field. -/
def parseStart (e : SExpr) : Parsed (List Node) :=
  match (Items.ofExpr e).next with
  | (none, _) => .error ⟨.unknownStart, e.span⟩
  | (some index, items) => do
    let index ← parseIndex index
    items.expectEnd "start"
    return [.start index]

/-- A field of a module as nodes. -/
def parseField (fuel : Nat) (e : SExpr) : ParseM (List Node) :=
  match e.head? with
  | some "type" => parseType e
  | some "import" => parseImport e
  | some "export" => parseExport e
  | some "func" => parseFunc fuel e
  | some "global" => parseGlobal fuel e
  | some "memory" => parseMemory e
  | some "table" => parseTable e
  | some "data" => parseData fuel e
  | some "elem" => parseElem fuel e
  | some "start" => parseStart e
  | _ => unexpected e "module"

/-- Fields in a row. -/
def parseFields (fuel : Nat) : List SExpr → ParseM (List Node)
  | [] => return []
  | e :: es => do
    let nodes ← parseField fuel e
    let rest ← parseFields fuel es
    return nodes ++ rest

/-- A module in parentheses. -/
def parseModule (fuel : Nat) (e : SExpr) : ParseM Node := do
  let (id, items) := (Items.ofExpr e).takeId
  return .module id (← parseFields fuel items.rest) none

/-- Modules in a row. -/
def parseModules (fuel : Nat) : List SExpr → ParseM (List Node)
  | [] => return []
  | e :: es => do
    let module ← parseModule fuel e
    let rest ← parseModules fuel es
    return module :: rest

/-- The program of a source: modules only, or the fields of one module. -/
def parse (source : String) : Parsed Program := do
  let exprs ← readAll source
  let fuel := 2 * source.length + 2
  let reading : ParseM Program :=
    if exprs.all (·.isHeadedBy "module") then return ⟨← parseModules fuel exprs⟩
    else return ⟨[.module none (← parseFields fuel exprs) none]⟩
  return (← reading.run .empty).1

/-! ## Sources as characters

A source is read as the list of its characters (`parse_of_toList`).  What is made of a text that is written out can so
be computed without decoding the bytes of the text, which is by far the longest part of the computation. -/

/-- The tokens of characters, or their first error. -/
def tokeniseChars (cs : List Char) : Except LexError (List Token) :=
  (itemsFrom (cs.length + 1) ⟨.origin, cs⟩).mapM id

/-- The expressions of characters. -/
def readChars (cs : List Char) : Except ParseError (List SExpr) := do
  nest (← (tokeniseChars cs).mapError LexError.toParseError)

/-- The program of characters. -/
def parseChars (cs : List Char) : Parsed Program := do
  let exprs ← readChars cs
  let fuel := 2 * cs.length + 2
  let reading : ParseM Program :=
    if exprs.all (·.isHeadedBy "module") then return ⟨← parseModules fuel exprs⟩
    else return ⟨[.module none (← parseFields fuel exprs) none]⟩
  return (← reading.run .empty).1

section Characters

variable {source : String} {cs : List Char}

theorem tokenise_of_toList (spelled : source.toList = cs) : tokenise source = tokeniseChars cs := by
  rw [tokenise, lexItems, tokeniseChars, Cursor.start, ← String.length_toList, spelled]

theorem readAll_of_toList (spelled : source.toList = cs) : readAll source = readChars cs := by
  rw [readAll, readChars, tokenise_of_toList spelled]

theorem parse_of_toList (spelled : source.toList = cs) : parse source = parseChars cs := by
  rw [parse, parseChars, readAll_of_toList spelled, ← String.length_toList, spelled]

/-- A text that is written out in several pieces. -/
theorem toList_append_ofList (spelled : source.toList = cs) (ds : List Char) :
    (source ++ String.ofList ds).toList = cs ++ ds := by
  rw [String.toList_append, spelled, String.toList_ofList]

end Characters

end WasmEngine.Wat
