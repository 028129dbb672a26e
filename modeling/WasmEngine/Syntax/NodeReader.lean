import WasmEngine.Json
import WasmEngine.Syntax.Node

/-!
# Reading the printed form of a program

The inverse of the printed form: lists and optional parts may be left out.
-/

namespace WasmEngine

open OfJson (ofJson)

instance : OfJson Valtype where
  ofJson j := do Json.expect "value type" (Valtype.ofName? (← j.text))

instance : OfJson Identifier where
  ofJson j := return ⟨← j.get "value", ← j.get "raw"⟩

instance : OfJson NumberLiteral where
  ofJson j := return ⟨← j.get "value", ← j.get "raw"⟩

instance : OfJson LongNumberLiteral where
  ofJson j := do
    let v := j.part "value"
    return ⟨⟨← v.get "high", ← v.get "low"⟩, ← j.get "raw"⟩

instance : OfJson FloatBits where
  ofJson j := do
    match j.member? "F32", j.member? "F64" with
    | some b, _ => return .f32 (← b.natural)
    | none, some b => return .f64 (← b.natural)
    | none, none => Json.refuse "bit pattern"

instance : OfJson FloatLiteral where
  ofJson j := return ⟨← j.get "bits", ← j.get "nan", ← j.get "inf", ← j.get "raw"⟩

instance : OfJson Index where
  ofJson j := do
    match ← j.get "type" with
    | "NumberLiteral" => return .number (← ofJson j)
    | "Identifier" => return .identifier (← ofJson j)
    | _ => Json.refuse "index"

instance : OfJson Param where
  ofJson j := return ⟨← j.get "id", ← j.get "valtype"⟩

instance : OfJson Signature where
  ofJson j := return ⟨← j.get "params", ← j.get "results"⟩

instance : OfJson SignatureRef where
  ofJson j := do
    match j.member? "type" with
    | some _ => return .ref (← ofJson j)
    | none => return .inline (← ofJson j)

instance : OfJson Limits where
  ofJson j := return ⟨← j.get "min", ← j.get "max"⟩

instance : OfJson Mutability where
  ofJson j := do
    match ← j.text with
    | "const" => return .const
    | "var" => return .var
    | _ => Json.refuse "mutability"

instance : OfJson GlobalType where
  ofJson j := return ⟨← j.get "valtype", ← j.get "mutability"⟩

instance : OfJson TableDef where
  ofJson j := return ⟨← j.get "element_type", ← j.get "limits", ← j.get "name", ← j.get "elements"⟩

instance : OfJson MemoryDef where
  ofJson j := return ⟨← j.get "limits", ← j.get "id"⟩

instance : OfJson FuncImport where
  ofJson j := return ⟨← j.get "id", ← j.get "signature"⟩

instance : OfJson ImportDescr where
  ofJson j := do
    match ← j.get "type" with
    | "FuncImportDescr" => return .func (← ofJson j)
    | "GlobalType" => return .global (← ofJson j)
    | "Memory" => return .memory (← ofJson j)
    | "Table" => return .table (← ofJson j)
    | _ => Json.refuse "import description"

instance : OfJson ModuleImport where
  ofJson j := return ⟨← j.get "module", ← j.get "name", ← j.get "descr", ← j.get "id"⟩

instance : OfJson ExportKind where
  ofJson j := do
    match ← j.text with
    | "Func" => return .func
    | "Table" => return .table
    | "Memory" => return .memory
    | "Global" => return .global
    | _ => Json.refuse "export type"

instance : OfJson ExportDescr where
  ofJson j := return ⟨← j.get "export_type", ← j.get "id"⟩

instance : OfJson ModuleExport where
  ofJson j := return ⟨← j.get "name", ← j.get "descr"⟩

instance : OfJson TypeDef where
  ofJson j := return ⟨← j.get "id", ← j.get "functype"⟩

instance : OfJson MemArg where
  ofJson j := return ⟨← j.get "align", ← j.get "offset"⟩

instance : OfJson SectionMetadata where
  ofJson j := return ⟨← j.get "section", ← j.get "start_offset", ← j.get "size",
      ← j.get "vector_of_size"⟩

instance : OfJson FunctionName where
  ofJson j := return ⟨← j.get "value", ← j.get "index"⟩

instance : OfJson LocalName where
  ofJson j := return ⟨← j.get "value", ← j.get "local_index", ← j.get "function_index"⟩

instance : OfJson ModuleName where
  ofJson j := return ⟨← j.get "value"⟩

instance : OfJson ModuleMetadata where
  ofJson j :=
    return ⟨← j.get "sections", ← j.get "function_names", ← j.get "local_names",
      ← j.get "module_name"⟩

instance : OfJson FuncMetadata where
  ofJson j := return ⟨← j.get "body_size"⟩

namespace Node

/-- A node; the fuel bounds how deep nodes are nested. -/
def read : Nat → Json → Shaped Node
  | 0, _ => Json.refuse "node"
  | fuel + 1, j => do
    let nodes := fun key => Json.list (read fuel) (j.part key)
    match ← j.get "type" with
    | "Program" => return program (← nodes "body")
    | "Module" => return module (← j.get "id") (← nodes "fields") (← j.get "metadata")
    | "ModuleMetadata" => return moduleMetadata (← ofJson j)
    | "ModuleNameMetadata" => return moduleName (← ofJson j)
    | "FunctionNameMetadata" => return functionName (← ofJson j)
    | "LocalNameMetadata" => return localName (← ofJson j)
    | "SectionMetadata" => return sectionMetadata (← ofJson j)
    | "TypeInstruction" => return typeDef (← ofJson j)
    | "Func" =>
      return func (← j.get "name") (← j.get "signature") (← j.get "locals") (← nodes "body")
        (← j.get "metadata")
    | "Signature" => return signature (← ofJson j)
    | "Instr" => return instr (← j.get "id") (← j.get "object") (← nodes "args") (← j.get "mem_arg")
    | "BlockInstruction" => return block (← j.get "label") (← nodes "instr") (← j.get "result")
    | "LoopInstruction" => return loop (← j.get "label") (← j.get "result") (← nodes "instr")
    | "IfInstruction" =>
      return ifElse (← j.get "test_label") (← j.get "result") (← nodes "consequent")
        (← nodes "alternate")
    | "CallInstruction" => return call (← j.get "index")
    | "CallIndirectInstruction" => return callIndirect (← j.get "signature")
    | "NumberLiteral" => return number (← ofJson j)
    | "LongNumberLiteral" => return longNumber (← ofJson j)
    | "FloatLiteral" => return float (← ofJson j)
    | "ValtypeLiteral" => return valtype (← j.get "name")
    | "Identifier" => return identifier (← ofJson j)
    | "GlobalType" => return globalType (← ofJson j)
    | "Global" => return global (← j.get "global_type") (← nodes "init") (← j.get "name")
    | "Table" => return table (← ofJson j)
    | "Memory" => return memory (← ofJson j)
    | "Limit" => return limits (← ofJson j)
    | "FuncImportDescr" => return funcImport (← ofJson j)
    | "ModuleImport" => return moduleImport (← ofJson j)
    | "ModuleExportDescr" => return exportDescr (← ofJson j)
    | "ModuleExport" => return moduleExport (← ofJson j)
    | "Start" => return start (← j.get "index")
    | "Elem" => return elem (← j.get "table") (← nodes "offset") (← j.get "funcs")
    | "Data" =>
      return data (← j.get "memory_index") (← nodes "offset") (← (j.part "init").get "values")
    | "ByteArray" => return bytes (← j.get "values")
    | _ => Json.refuse "node"

end Node

instance : OfJson Node where
  ofJson j := Node.read (j.depth + 1) j

instance : OfJson Program where
  ofJson j := return ⟨← j.get "body"⟩

end WasmEngine
