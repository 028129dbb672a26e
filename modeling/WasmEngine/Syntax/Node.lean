import WasmEngine.Syntax.Kind
import WasmEngine.Syntax.Types

/-!
# The syntax tree

Every part of a program is a `Node`.  Lists of fields, instructions and arguments hold nodes of any
kind; what is allowed where is checked by the passes that read them.
-/

namespace WasmEngine

/-- A node of the syntax tree. -/
inductive Node where
  | program (body : List Node)
  | module (id : Option String) (fields : List Node) (metadata : Option ModuleMetadata)
  | moduleMetadata (metadata : ModuleMetadata)
  | moduleName (name : ModuleName)
  | functionName (name : FunctionName)
  | localName (name : LocalName)
  | sectionMetadata (metadata : SectionMetadata)
  | typeDef (type : TypeDef)
  | func (name : Identifier) (signature : SignatureRef) (locals : List Param) (body : List Node)
      (metadata : Option FuncMetadata)
  | signature (signature : Signature)
  | instr (id : String) (object : Option Valtype) (args : List Node) (memArg : Option MemArg)
  | block (label : Identifier) (body : List Node) (result : Option Valtype)
  | loop (label : Identifier) (result : Option Valtype) (body : List Node)
  | ifElse (label : Identifier) (result : Option Valtype) (consequent alternate : List Node)
  | call (index : Index)
  | callIndirect (signature : SignatureRef)
  | number (literal : NumberLiteral)
  | longNumber (literal : LongNumberLiteral)
  | float (literal : FloatLiteral)
  | valtype (type : Valtype)
  | identifier (id : Identifier)
  | globalType (type : GlobalType)
  | global (type : GlobalType) (init : List Node) (name : Option Identifier)
  | table (table : TableDef)
  | memory (memory : MemoryDef)
  | limits (limits : Limits)
  | funcImport (descr : FuncImport)
  | moduleImport (decl : ModuleImport)
  | exportDescr (descr : ExportDescr)
  | moduleExport (decl : ModuleExport)
  | start (index : Index)
  | elem (table : Index) (offset : List Node) (funcs : List Index)
  | data (memory : Index) (offset : List Node) (init : List UInt8)
  | bytes (values : List UInt8)
  deriving Inhabited

/-- A function definition. -/
structure Func where
  name : Identifier
  signature : SignatureRef
  locals : List Param
  body : List Node
  metadata : Option FuncMetadata

/-- A module. -/
structure Module where
  id : Option String
  fields : List Node
  metadata : Option ModuleMetadata

/-- A sequence of modules. -/
structure Program where
  body : List Node

/-- The mnemonic of a plain instruction: its name after the type it works on. -/
def mnemonic (object : Option Valtype) (id : String) : String :=
  match object with
  | some t => t.name ++ "." ++ id
  | none => id

namespace Node

/-- The kind of a node. -/
def kind : Node → NodeKind
  | program .. => .program
  | module .. => .module
  | moduleMetadata .. => .moduleMetadata
  | moduleName .. => .moduleName
  | functionName .. => .functionName
  | localName .. => .localName
  | sectionMetadata .. => .sectionMetadata
  | typeDef .. => .typeDef
  | func .. => .func
  | signature .. => .signature
  | instr .. => .instr
  | block .. => .block
  | loop .. => .loop
  | ifElse .. => .ifElse
  | call .. => .call
  | callIndirect .. => .callIndirect
  | number .. => .number
  | longNumber .. => .longNumber
  | float .. => .float
  | valtype .. => .valtype
  | identifier .. => .identifier
  | globalType .. => .globalType
  | global .. => .global
  | table .. => .table
  | memory .. => .memory
  | limits .. => .limits
  | funcImport .. => .funcImport
  | moduleImport .. => .moduleImport
  | exportDescr .. => .exportDescr
  | moduleExport .. => .moduleExport
  | start .. => .start
  | elem .. => .elem
  | data .. => .data
  | bytes .. => .bytes

/-- The name of an instruction as the checker and the machine show it. -/
def instructionName? : Node → Option String
  | instr id object _ _ => some (mnemonic object id)
  | block .. => some "block"
  | loop .. => some "loop"
  | ifElse .. => some "if"
  | call .. => some "call"
  | callIndirect .. => some "call_indirect"
  | _ => none

/-- The module at a node. -/
def module? : Node → Option Module
  | module id fields metadata => some ⟨id, fields, metadata⟩
  | _ => none

/-- The function at a node. -/
def func? : Node → Option Func
  | func name sig locals body metadata => some ⟨name, sig, locals, body, metadata⟩
  | _ => none

/-- A reference as a node. -/
def ofIndex : Index → Node
  | .number n => number n
  | .identifier id => identifier id

end Node

/-- The node of a module. -/
def Module.toNode (m : Module) : Node := .module m.id m.fields m.metadata

/-- The node of a function. -/
def Func.toNode (f : Func) : Node := .func f.name f.signature f.locals f.body f.metadata

namespace Program

/-- The first module of a program. -/
def module? (p : Program) : Option Module := p.body.findSome? Node.module?

/-- Replaces the first module of a list by what a fallible function makes of it. -/
def mapFirstModule {ε : Type} (f : Module → Except ε Module) : List Node → Except ε (List Node)
  | [] => .ok []
  | node :: rest =>
    match node.module? with
    | some m =>
      match f m with
      | .ok m => .ok (m.toNode :: rest)
      | .error e => .error e
    | none =>
      match mapFirstModule f rest with
      | .ok rest => .ok (node :: rest)
      | .error e => .error e

/-- Replaces every module of a list by what a fallible function makes of it. -/
def mapModules {ε : Type} (f : Module → Except ε Module) : List Node → Except ε (List Node)
  | [] => .ok []
  | node :: rest =>
    match node.module? with
    | some m =>
      match f m with
      | .error e => .error e
      | .ok m =>
        match mapModules f rest with
        | .ok rest => .ok (m.toNode :: rest)
        | .error e => .error e
    | none =>
      match mapModules f rest with
      | .ok rest => .ok (node :: rest)
      | .error e => .error e

end Program

end WasmEngine
