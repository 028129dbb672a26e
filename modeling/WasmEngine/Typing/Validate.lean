import WasmEngine.Syntax.Resolution
import WasmEngine.Typing.Check

/-!
# Validating modules

The rules that a module has to keep before it can be instantiated.  Late imports and ill-typed
functions are reported together; the rules on initialisers, exports and the start function are
checked after them and stop at the first violation.
-/

namespace WasmEngine

/-- A violation that is reported together with others. -/
inductive Violation where
  | lateImport
  | illTyped (error : TypeError)
  deriving DecidableEq, Repr

/-- The text of a violation. -/
def Violation.message : Violation → String
  | lateImport => "imports must occur before all non-import definitions"
  | illTyped e => e.message

/-- Why a module cannot be compiled. -/
inductive CompileError where
  | validation (violations : List Violation)
  | notConstant
  | initialiserType (expected : Valtype) (found : List Valtype)
  | duplicateExport (name : String)
  | multipleStart
  | startSignature
  | mutableGlobalImport
  | mutableGlobalExport
  | unresolved (error : ResolveError)
  | unknownImport (module name : String)
  | unknownFunction (reference : String)
  | unknownTable (index : Nat)
  | unknownMemory (index : Nat)
  | noModule
  deriving DecidableEq, Repr

/-- The text of an error. -/
def CompileError.message : CompileError → String
  | validation violations =>
    "Validation errors:\n" ++ "\n".intercalate (violations.map Violation.message)
  | notConstant =>
    "constant expression required: initializer expression cannot reference mutable global"
  | initialiserType expected found =>
    let found := if found.isEmpty then "none" else ", ".intercalate (found.map Valtype.name)
    s!"type mismatch in constant expression: expected {expected.name}, found {found}"
  | duplicateExport name => s!"Duplicate export name \"{name}\""
  | multipleStart => "Multiple start functions is not allowed"
  | startSignature => "Start function can not have arguments or results"
  | mutableGlobalImport => "Mutable globals cannot be imported"
  | mutableGlobalExport => "Mutable globals cannot be exported"
  | unresolved e => e.message
  | unknownImport module name => s!"Unknown import {module}.{name}"
  | unknownFunction reference => s!"Unknown function {reference}"
  | unknownTable index => s!"Unknown table {index}"
  | unknownMemory index => s!"Unknown memory {index}"
  | noModule => "Program does not contain a module"

namespace Typing

/-- Whether a field defines a function, global, memory or table. -/
def isDefinition : Node → Bool
  | .func .. | .global .. | .memory .. | .table .. => true
  | _ => false

/-- One violation for each import after a definition; `defined` tells whether one came before. -/
def lateImports (defined : Bool) : List Node → List Violation
  | [] => []
  | .moduleImport _ :: fields =>
    if defined then .lateImport :: lateImports defined fields else lateImports defined fields
  | field :: fields => lateImports (defined || isDefinition field) fields

/-- The violations of a module that are reported together. -/
def violations (ctx : ModuleContext) (m : Module) : List Violation :=
  lateImports false m.fields ++ (checkFunctions ctx m).map .illTyped

/-- The types of the values that a constant expression gives. -/
def constantTypes (ctx : ModuleContext) : List Node → Except CompileError (List Valtype)
  | [] => .ok []
  | .instr id object args _ :: rest =>
    match object with
    | some t =>
      if id = "const" then do return t :: (← constantTypes ctx rest) else .error .notConstant
    | none =>
      if id = "end" then constantTypes ctx rest
      else if id = "get_global" then
        match args.head? with
        | some (.number n) =>
          match ctx.global? n.toU32 with
          | some ⟨t, .const⟩ => do return t :: (← constantTypes ctx rest)
          | _ => .error .notConstant
        | _ => .error .notConstant
      else .error .notConstant
  | _ :: _ => .error .notConstant

/-- Checks that an initialiser is constant and gives one value of its type. -/
def checkInitialiser (ctx : ModuleContext) (type : GlobalType) (init : List Node) :
    Except CompileError Unit := do
  let found ← constantTypes ctx init
  if found = [type.valtype] then return ()
  else throw (.initialiserType type.valtype found)

/-- Checks the initialisers of the globals among the fields. -/
def checkInitialisers (ctx : ModuleContext) : List Node → Except CompileError Unit
  | [] => .ok ()
  | .global type init _ :: fields => do
    checkInitialiser ctx type init
    checkInitialisers ctx fields
  | _ :: fields => checkInitialisers ctx fields

/-- Checks that the start function exists and takes and gives nothing. -/
def checkStart (ctx : ModuleContext) (index : Index) : Except CompileError Unit :=
  match index.number? with
  | none => .error (.unknownFunction index.display)
  | some i =>
    match ctx.func? i with
    | none => .error (.unknownFunction (toString i))
    | some type => if type = ⟨[], []⟩ then .ok () else .error .startSignature

/-- Checks imported globals, export names, exported globals and the start function, given the names
of the exports so far and whether a start function came before. -/
def checkInterface (ctx : ModuleContext) (names : List String) (started : Bool) :
    List Node → Except CompileError Unit
  | [] => .ok ()
  | .moduleImport decl :: fields =>
    match decl.descr with
    | .global ⟨_, .var⟩ => .error .mutableGlobalImport
    | _ => checkInterface ctx names started fields
  | .moduleExport decl :: fields =>
    if names.contains decl.name then .error (.duplicateExport decl.name)
    else if decl.descr.kind = .global ∧ decl.descr.id.number?.any ctx.isMutable = true then
      .error .mutableGlobalExport
    else checkInterface ctx (decl.name :: names) started fields
  | .start index :: fields =>
    if started then .error .multipleStart
    else do
      checkStart ctx index
      checkInterface ctx names true fields
  | _ :: fields => checkInterface ctx names started fields

end Typing

namespace Module

/-- Checks that the initialisers of a module are constant expressions of their types. -/
def checkConstants (m : Module) (ctx : ModuleContext) : Except CompileError Unit :=
  Typing.checkInitialisers ctx m.fields

/-- Checks the imports, exports and start function of a module. -/
def checkInterface (m : Module) (ctx : ModuleContext) : Except CompileError Unit :=
  Typing.checkInterface ctx [] false m.fields

/-- Checks every rule on a module. -/
def validate (m : Module) : Except CompileError Unit := do
  let ctx := ModuleContext.ofModule m
  let found := Typing.violations ctx m
  if !found.isEmpty then
    throw (.validation found)
  m.checkConstants ctx
  m.checkInterface ctx

end Module

namespace Program

/-- Checks every module among the nodes of a list. -/
def validateAll : List Node → Except CompileError Unit
  | [] => .ok ()
  | node :: nodes =>
    match node.module? with
    | some m => do
      m.validate
      validateAll nodes
    | none => validateAll nodes

/-- Checks every module of a program. -/
def validate (p : Program) : Except CompileError Unit := validateAll p.body

/-- Resolves the references of a program and checks it. -/
def compile (p : Program) : Except CompileError Program :=
  match p.resolve with
  | .error e => .error (.unresolved e)
  | .ok p => do
    p.validate
    return p

end Program

end WasmEngine
