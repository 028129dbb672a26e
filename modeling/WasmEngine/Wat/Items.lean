import WasmEngine.Text.Utf8
import WasmEngine.Syntax.Node
import WasmEngine.Wat.SExpr

/-!
# Reading the items of a list

The items of a list after its head, and the small forms that several fields share: indices, types,
limits, signatures and inline imports and exports.
-/

namespace WasmEngine.Wat

/-- The outcome of reading: a value or the first error. -/
abbrev Parsed := Except ParseError

/-- An error about an expression that may not stand where it does. -/
def unexpected {α : Type} (e : SExpr) (context : String) : Parsed α :=
  .error ⟨.unexpectedToken context e.display, e.span⟩

/-- The items of a list that are left to read, and where the list stands. -/
structure Items where
  rest : List SExpr
  span : Span

namespace Items

/-- The items of a list after its keyword, if it has one. -/
def ofExpr (e : SExpr) : Items :=
  match e with
  | .list span items => ⟨if e.head?.isSome then items.drop 1 else items, span⟩
  | .atom token => ⟨[], token.span⟩

/-- Takes the next item. -/
def next (i : Items) : Option SExpr × Items :=
  match i.rest with
  | [] => (none, i)
  | e :: rest => (some e, { i with rest })

/-- Takes a name, if one comes next. -/
def takeId (i : Items) : Option String × Items :=
  match i.rest with
  | e :: rest =>
    match e.id? with
    | some name => (some name, { i with rest })
    | none => (none, i)
  | [] => (none, i)

/-- Takes a list with that head, if one comes next. -/
def takeList (i : Items) (head : String) : Option SExpr × Items :=
  match i.rest with
  | e :: rest => if e.isHeadedBy head then (some e, { i with rest }) else (none, i)
  | [] => (none, i)

/-- Takes all lists with that head that come next. -/
def takeLists (i : Items) (head : String) : List SExpr × Items :=
  (i.rest.takeWhile (·.isHeadedBy head), { i with rest := i.rest.dropWhile (·.isHeadedBy head) })

/-- Where something is missing: at the next item, or at the list if there is none. -/
def here (i : Items) : Span :=
  match i.rest with
  | e :: _ => e.span
  | [] => i.span

/-- A string that is a well-formed text. -/
def expectString (i : Items) (context : String) : Parsed (String × Items) :=
  let (e, rest) := i.next
  match e.bind SExpr.string? with
  | none => .error ⟨.expectedString context, i.here⟩
  | some bytes =>
    match Text.ofUtf8? bytes with
    | some s => .ok (s, rest)
    | none => .error ⟨.invalidName context, i.here⟩

/-- Nothing may follow. -/
def expectEnd (i : Items) (context : String) : Parsed Unit :=
  match i.rest with
  | e :: _ => unexpected e context
  | [] => .ok ()

end Items

/-- A reference by name or number. -/
def parseIndex (e : SExpr) : Parsed Index :=
  match e.id?, e.number? with
  | some name, _ => .ok (.identifier (.ofString name))
  | none, some raw =>
    match parseU32? raw with
    | some n => .ok (.number ⟨n, raw⟩)
    | none => unexpected e "index"
  | none, none => unexpected e "index"

/-- The reference with which a segment begins, the first of its kind by default. -/
def parseOptionalIndex (i : Items) : Parsed (Index × Items) :=
  match i.rest with
  | e :: rest =>
    if e.id?.isSome || e.number?.isSome then return (← parseIndex e, { i with rest })
    else return (.ofNat 0, i)
  | [] => return (.ofNat 0, i)

/-- A value type. -/
def parseValtype (e : SExpr) : Parsed Valtype :=
  match e.keyword?.bind Valtype.ofName? with
  | some t => .ok t
  | none => unexpected e "value type"

/-- A lower and perhaps an upper limit. -/
def parseLimits (i : Items) : Parsed (Limits × Items) :=
  let (e, rest) := i.next
  match (e.bind SExpr.number?).bind parseU32? with
  | none => .error ⟨.expectedLimit, i.here⟩
  | some min =>
    match rest.rest with
    | [] => .ok (⟨min, none⟩, rest)
    | e :: after =>
      match e.number? with
      | none => .ok (⟨min, none⟩, rest)
      | some spelling =>
        match parseU32? spelling with
        | some max => .ok (⟨min, some max⟩, { rest with rest := after })
        | none => .error ⟨.invalidLimit, e.span⟩

/-- The name in `(export "name")`. -/
def parseInlineExport (e : SExpr) : Parsed String := do
  let (name, items) ← (Items.ofExpr e).expectString "export"
  items.expectEnd "export"
  return name

/-- The module and name in `(import "module" "name")`. -/
def parseInlineImport (e : SExpr) : Parsed (String × String) := do
  let (module, items) ← (Items.ofExpr e).expectString "import"
  let (name, items) ← items.expectString "import"
  items.expectEnd "import"
  return (module, name)

/-- The type of a global: a value type, or one within `mut`. -/
def parseGlobalType (i : Items) : Parsed (GlobalType × Items) :=
  match i.next with
  | (none, _) => .error ⟨.noGlobalType, i.here⟩
  | (some e, rest) =>
    if e.isHeadedBy "mut" then
      match (Items.ofExpr e).next with
      | (none, _) => .error ⟨.noMutableType, e.span⟩
      | (some t, inner) => do
        let t ← parseValtype t
        inner.expectEnd "global type"
        return (⟨t, .var⟩, rest)
    else if e.isList then .error ⟨.unsupportedGlobalType, e.span⟩
    else return (⟨← parseValtype e, .const⟩, rest)

/-- The parameters in `(param $x i32)` or `(param i32 i64)`. -/
def parseParams (e : SExpr) : Parsed (List Param) :=
  match (Items.ofExpr e).takeId with
  | (some name, items) =>
    match items.next with
    | (none, _) => .error ⟨.paramWithoutType, e.span⟩
    | (some t, items) => do
      let t ← parseValtype t
      items.expectEnd "param"
      return [⟨some name, t⟩]
  | (none, items) => items.rest.mapM fun t => return ⟨none, ← parseValtype t⟩

/-- The types in `(result i32)`. -/
def parseResults (e : SExpr) : Parsed (List Valtype) := (Items.ofExpr e).rest.mapM parseValtype

/-- Parameters, then results. -/
def parseSignature (i : Items) : Parsed (Signature × Items) := do
  let (params, items) := i.takeLists "param"
  let params ← params.mapM parseParams
  let (results, items) := items.takeLists "result"
  let results ← results.mapM parseResults
  return (⟨params.flatten, results.flatten⟩, items)

/-- The reference in `(type x)`, if it comes next. -/
def parseTypeRef (i : Items) : Parsed (Option Index × Items) :=
  match i.takeList "type" with
  | (none, items) => .ok (none, items)
  | (some e, items) =>
    match (Items.ofExpr e).next with
    | (none, _) => .error ⟨.expectedTypeIndex, e.span⟩
    | (some index, inner) => do
      let index ← parseIndex index
      inner.expectEnd "type use"
      return (some index, items)

/-- A type reference, parameters and results, all optional.  The reference counts only if it stands
alone. -/
def parseTypeUse (i : Items) : Parsed (SignatureRef × Items) := do
  let (type, items) ← parseTypeRef i
  let (signature, items) ← parseSignature items
  match type with
  | some index =>
    if signature.params.isEmpty && signature.results.isEmpty then return (.ref index, items)
    else return (.inline signature, items)
  | none => return (.inline signature, items)

/-- The result of a block, if it has one. -/
def parseBlockResult (i : Items) : Parsed (Option Valtype × Items) :=
  match i.takeList "result" with
  | (none, items) => .ok (none, items)
  | (some e, items) => do
    match ← parseResults e with
    | [] => return (none, items)
    | [t] => return (some t, items)
    | _ => .error ⟨.multipleBlockResults, e.span⟩

/-- The type of the elements of a table. -/
def parseElementType (i : Items) : Parsed Items :=
  match i.next with
  | (none, _) => .error ⟨.expectedElementType, i.span⟩
  | (some e, items) =>
    if e.keyword? == some "anyfunc" || e.keyword? == some "funcref" then .ok items
    else unexpected e "table"

end WasmEngine.Wat
