import WasmEngine.Json
import WasmEngine.Syntax.Node

/-!
# The printed form of a program

Each node is a JSON object: the name of its kind under `type`, then its parts in a fixed order.
Parts that can be of one kind only are written without `type`.
-/

namespace WasmEngine

open Json (str nat)

/-- The members of a record after its tag. -/
def tagged (tag : String) (members : List (String × Json)) : Json :=
  .obj (("type", str tag) :: members)

namespace Valtype

/-- A type by its spelling. -/
def toJson (t : Valtype) : Json := str t.name

end Valtype

namespace Identifier

/-- The parts in order. -/
def members (id : Identifier) : List (String × Json) := [("value", str id.value), ("raw", str id.raw)]

/-- The whole as a JSON value. -/
def toJson (id : Identifier) : Json := .obj id.members

end Identifier

namespace NumberLiteral

/-- The parts in order. -/
def members (n : NumberLiteral) : List (String × Json) :=
  [("value", .int n.value), ("raw", str n.raw)]

/-- The whole as a JSON value. -/
def toJson (n : NumberLiteral) : Json := .obj n.members

end NumberLiteral

namespace LongNumberLiteral

/-- The parts in order. -/
def members (n : LongNumberLiteral) : List (String × Json) :=
  [("value", .obj [("high", .int n.value.high), ("low", nat n.value.low)]), ("raw", str n.raw)]

end LongNumberLiteral

namespace FloatLiteral

/-- The parts in order. -/
def members (l : FloatLiteral) : List (String × Json) :=
  let bits := match l.bits with
    | .f32 b => ("F32", nat b)
    | .f64 b => ("F64", nat b)
  [("bits", .obj [bits]), ("nan", .bool l.nan), ("inf", .bool l.inf), ("raw", str l.raw)]

end FloatLiteral

namespace Index

/-- The whole as a JSON value. -/
def toJson : Index → Json
  | number n => tagged "NumberLiteral" n.members
  | identifier id => tagged "Identifier" id.members

end Index

namespace Param

/-- The whole as a JSON value. -/
def toJson (p : Param) : Json :=
  .obj [("id", Json.ofOption str p.id), ("valtype", p.valtype.toJson)]

end Param

namespace Signature

/-- The parts in order. -/
def members (s : Signature) : List (String × Json) :=
  [("params", Json.ofList Param.toJson s.params), ("results", Json.ofList Valtype.toJson s.results)]

/-- The whole as a JSON value. -/
def toJson (s : Signature) : Json := .obj s.members

end Signature

namespace SignatureRef

/-- The whole as a JSON value. -/
def toJson : SignatureRef → Json
  | inline s => s.toJson
  | ref index => index.toJson

end SignatureRef

namespace Limits

/-- The parts in order. -/
def members (l : Limits) : List (String × Json) :=
  [("min", nat l.min), ("max", Json.ofOption nat l.max)]

/-- The whole as a JSON value. -/
def toJson (l : Limits) : Json := .obj l.members

end Limits

namespace GlobalType

/-- The parts in order. -/
def members (t : GlobalType) : List (String × Json) :=
  [("valtype", t.valtype.toJson), ("mutability", str t.mutability.name)]

/-- The whole as a JSON value. -/
def toJson (t : GlobalType) : Json := .obj t.members

end GlobalType

namespace MemArg

/-- The whole as a JSON value. -/
def toJson (m : MemArg) : Json := .obj [("align", nat m.align), ("offset", nat m.offset)]

end MemArg

namespace TableDef

/-- The parts in order. -/
def members (t : TableDef) : List (String × Json) :=
  [("element_type", str t.elementType), ("limits", t.limits.toJson),
    ("name", Json.ofOption Identifier.toJson t.name), ("elements", Json.ofList Index.toJson t.elements)]

end TableDef

namespace MemoryDef

/-- The parts in order. -/
def members (m : MemoryDef) : List (String × Json) :=
  [("limits", m.limits.toJson), ("id", Json.ofOption Identifier.toJson m.id)]

end MemoryDef

namespace FuncImport

/-- The parts in order. -/
def members (d : FuncImport) : List (String × Json) :=
  [("id", d.id.toJson), ("signature", d.signature.toJson)]

end FuncImport

namespace ImportDescr

/-- The whole as a JSON value. -/
def toJson : ImportDescr → Json
  | func d => tagged "FuncImportDescr" d.members
  | global t => tagged "GlobalType" t.members
  | memory m => tagged "Memory" m.members
  | table t => tagged "Table" t.members

end ImportDescr

namespace ModuleImport

/-- The parts in order. -/
def members (i : ModuleImport) : List (String × Json) :=
  [("module", str i.module), ("name", str i.name), ("descr", i.descr.toJson),
    ("id", Json.ofOption Identifier.toJson i.id)]

end ModuleImport

namespace ExportDescr

/-- The parts in order. -/
def members (d : ExportDescr) : List (String × Json) :=
  [("export_type", str d.kind.name), ("id", d.id.toJson)]

end ExportDescr

namespace ModuleExport

/-- The parts in order. -/
def members (e : ModuleExport) : List (String × Json) :=
  [("name", str e.name), ("descr", .obj e.descr.members)]

end ModuleExport

namespace TypeDef

/-- The parts in order. -/
def members (t : TypeDef) : List (String × Json) :=
  [("id", Json.ofOption Identifier.toJson t.id), ("functype", t.functype.toJson)]

end TypeDef

namespace SectionMetadata

/-- The parts in order. -/
def members (s : SectionMetadata) : List (String × Json) :=
  [("section", str s.title), ("start_offset", nat s.startOffset), ("size", s.size.toJson),
    ("vector_of_size", s.vectorSize.toJson)]

end SectionMetadata

namespace FunctionName

/-- The parts in order. -/
def members (n : FunctionName) : List (String × Json) :=
  [("value", str n.value), ("index", nat n.index)]

end FunctionName

namespace LocalName

/-- The parts in order. -/
def members (n : LocalName) : List (String × Json) :=
  [("value", str n.value), ("local_index", nat n.localIndex), ("function_index", nat n.functionIndex)]

end LocalName

namespace ModuleName

/-- The parts in order. -/
def members (n : ModuleName) : List (String × Json) := [("value", str n.value)]

end ModuleName

namespace ModuleMetadata

/-- The parts in order. -/
def members (m : ModuleMetadata) : List (String × Json) :=
  [("sections", Json.ofList (fun s => .obj s.members) m.sections),
    ("function_names", Json.ofList (fun n => .obj n.members) m.functionNames),
    ("local_names", Json.ofList (fun n => .obj n.members) m.localNames),
    ("module_name", Json.ofOption (fun n => .obj n.members) m.moduleName)]

end ModuleMetadata

namespace FuncMetadata

/-- The whole as a JSON value. -/
def toJson (m : FuncMetadata) : Json := .obj [("body_size", nat m.bodySize)]

end FuncMetadata

/-- The bytes of a segment. -/
def segmentMembers (values : List UInt8) : List (String × Json) :=
  [("values", Json.ofList (fun b => nat b.toNat) values)]

namespace Node

mutual

/-- The parts of a node. -/
def members : Node → List (String × Json)
  | program body => [("body", .arr (listToJson body))]
  | module id fields metadata =>
    [("id", Json.ofOption str id), ("fields", .arr (listToJson fields)),
      ("metadata", Json.ofOption (fun m => .obj m.members) metadata)]
  | moduleMetadata m => m.members
  | moduleName n => n.members
  | functionName n => n.members
  | localName n => n.members
  | sectionMetadata s => s.members
  | typeDef t => t.members
  | func name sig locals body metadata =>
    [("name", name.toJson), ("signature", sig.toJson), ("locals", Json.ofList Param.toJson locals),
      ("body", .arr (listToJson body)), ("metadata", Json.ofOption FuncMetadata.toJson metadata)]
  | signature s => s.members
  | instr id object args memArg =>
    [("id", str id), ("object", Json.ofOption Valtype.toJson object),
      ("args", .arr (listToJson args)), ("mem_arg", Json.ofOption MemArg.toJson memArg)]
  | block label body result =>
    [("label", label.toJson), ("instr", .arr (listToJson body)),
      ("result", Json.ofOption Valtype.toJson result)]
  | loop label result body =>
    [("label", label.toJson), ("result", Json.ofOption Valtype.toJson result),
      ("instr", .arr (listToJson body))]
  | ifElse label result consequent alternate =>
    [("test_label", label.toJson), ("result", Json.ofOption Valtype.toJson result),
      ("consequent", .arr (listToJson consequent)), ("alternate", .arr (listToJson alternate))]
  | call index => [("index", index.toJson)]
  | callIndirect sig => [("signature", sig.toJson)]
  | number n => n.members
  | longNumber n => n.members
  | float l => l.members
  | valtype t => [("name", t.toJson)]
  | identifier id => id.members
  | globalType t => t.members
  | global type init name =>
    [("global_type", type.toJson), ("init", .arr (listToJson init)),
      ("name", Json.ofOption Identifier.toJson name)]
  | table t => t.members
  | memory m => m.members
  | limits l => l.members
  | funcImport d => d.members
  | moduleImport i => i.members
  | exportDescr d => d.members
  | moduleExport e => e.members
  | start index => [("index", index.toJson)]
  | elem target offset funcs =>
    [("table", target.toJson), ("offset", .arr (listToJson offset)),
      ("funcs", Json.ofList Index.toJson funcs)]
  | data target offset init =>
    [("memory_index", target.toJson), ("offset", .arr (listToJson offset)),
      ("init", .obj (segmentMembers init))]
  | bytes values => segmentMembers values

/-- A node with its tag. -/
def toJson (node : Node) : Json := tagged node.kind.name node.members

/-- Nodes in order. -/
def listToJson : List Node → List Json
  | [] => []
  | node :: nodes => node.toJson :: listToJson nodes

end

end Node

namespace Program

/-- A whole program, which carries no tag. -/
def toJson (p : Program) : Json := .obj [("body", .arr (Node.listToJson p.body))]

/-- The text of a program with one part per line. -/
def render (p : Program) : String := p.toJson.pretty 0

end Program

end WasmEngine
