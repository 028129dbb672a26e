/-!
# Kinds of nodes

The closed set of node kinds and the categories that they belong to.
-/

namespace WasmEngine

/-- The kind of a node. -/
inductive NodeKind where
  | program
  | module
  | moduleMetadata
  | moduleName
  | functionName
  | localName
  | sectionMetadata
  | typeDef
  | func
  | signature
  | instr
  | block
  | loop
  | ifElse
  | call
  | callIndirect
  | number
  | longNumber
  | float
  | valtype
  | identifier
  | globalType
  | global
  | table
  | memory
  | limits
  | funcImport
  | moduleImport
  | exportDescr
  | moduleExport
  | start
  | elem
  | data
  | bytes
  deriving DecidableEq, Repr

/-- A category of node kinds; `node` holds all of them. -/
inductive Category where
  | node
  | block
  | instruction
  | expression
  | numericLiteral
  | importDescr
  deriving DecidableEq, Repr

namespace NodeKind

/-- All kinds in the order in which they are listed. -/
def all : List NodeKind :=
  [program, module, moduleMetadata, moduleName, functionName, localName, sectionMetadata, typeDef,
    func, signature, instr, block, loop, ifElse, call, callIndirect, number, longNumber, float,
    valtype, identifier, globalType, global, table, memory, limits, funcImport, moduleImport,
    exportDescr, moduleExport, start, elem, data, bytes]

theorem mem_all (k : NodeKind) : k ∈ all := by cases k <;> decide

/-- The name of a kind, which is also its tag in the printed form of a node. -/
def name : NodeKind → String
  | program => "Program"
  | module => "Module"
  | moduleMetadata => "ModuleMetadata"
  | moduleName => "ModuleNameMetadata"
  | functionName => "FunctionNameMetadata"
  | localName => "LocalNameMetadata"
  | sectionMetadata => "SectionMetadata"
  | typeDef => "TypeInstruction"
  | func => "Func"
  | signature => "Signature"
  | instr => "Instr"
  | block => "BlockInstruction"
  | loop => "LoopInstruction"
  | ifElse => "IfInstruction"
  | call => "CallInstruction"
  | callIndirect => "CallIndirectInstruction"
  | number => "NumberLiteral"
  | longNumber => "LongNumberLiteral"
  | float => "FloatLiteral"
  | valtype => "ValtypeLiteral"
  | identifier => "Identifier"
  | globalType => "GlobalType"
  | global => "Global"
  | table => "Table"
  | memory => "Memory"
  | limits => "Limit"
  | funcImport => "FuncImportDescr"
  | moduleImport => "ModuleImport"
  | exportDescr => "ModuleExportDescr"
  | moduleExport => "ModuleExport"
  | start => "Start"
  | elem => "Elem"
  | data => "Data"
  | bytes => "ByteArray"

/-- The kind of that name. -/
def ofName? (s : String) : Option NodeKind := all.find? fun k => k.name == s

/-- The categories of a kind, `node` left out. -/
def categories : NodeKind → List Category
  | loop | block => [.block, .instruction]
  | func => [.block]
  | instr => [.expression, .instruction]
  | ifElse | call | callIndirect | typeDef => [.instruction]
  | number | longNumber | float => [.numericLiteral, .expression]
  | valtype | identifier => [.expression]
  | globalType | table | memory | funcImport => [.importDescr]
  | _ => []

/-- Whether a kind belongs to a category. -/
def isIn (k : NodeKind) (c : Category) : Bool := c == .node || k.categories.contains c

/-- Whether nodes of a kind may stand as fields of a module. -/
def isModuleField : NodeKind → Bool
  | typeDef | func | global | table | memory | moduleImport | moduleExport | start | elem | data =>
    true
  | _ => false

end NodeKind

namespace Category

/-- All categories in the order in which they are listed. -/
def all : List Category := [node, block, instruction, expression, numericLiteral, importDescr]

/-- The name of a category. -/
def name : Category → String
  | node => "Node"
  | block => "Block"
  | instruction => "Instruction"
  | expression => "Expression"
  | numericLiteral => "NumericLiteral"
  | importDescr => "ImportDescr"

/-- The category of that name. -/
def ofName? (s : String) : Option Category := all.find? fun c => c.name == s

/-- The kinds in a category. -/
def members (c : Category) : List NodeKind := NodeKind.all.filter (·.isIn c)

end Category

end WasmEngine
