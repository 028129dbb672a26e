import WasmEngine.Syntax.Node

/-!
# Inlining type references

Functions, function imports and indirect calls may name a type definition instead of giving a
signature.  This pass puts a copy of the definition in place of each such reference.
-/

namespace WasmEngine

/-- A name space of a module or function. -/
inductive Space where
  | function
  | local
  | global
  | label
  | memory
  | table
  deriving DecidableEq, Repr

/-- The word for a name space. -/
def Space.name : Space → String
  | function => "function"
  | .local => "local"
  | global => "global"
  | label => "label"
  | memory => "memory"
  | table => "table"

/-- A reference that denotes nothing. -/
inductive ResolveError where
  | unresolvedIdentifier (space : Space) (name : String)
  | unknownType (reference : String)
  deriving DecidableEq, Repr

/-- The text of an error. -/
def ResolveError.message : ResolveError → String
  | unresolvedIdentifier space name => s!"unknown {space.name} ${name}"
  | unknownType reference => s!"A type instruction reference was not found: {reference}"

namespace TypeReference

mutual

/-- The type definitions at or below a node, in the order of the source. -/
def collect : Node → List TypeDef
  | .typeDef t => [t]
  | .program body => collectAll body
  | .module _ fields _ => collectAll fields
  | .func _ _ _ body _ => collectAll body
  | .instr _ _ args _ => collectAll args
  | .block _ body _ => collectAll body
  | .loop _ _ body => collectAll body
  | .ifElse _ _ consequent alternate => collectAll consequent ++ collectAll alternate
  | .global _ init _ => collectAll init
  | .elem _ offset _ => collectAll offset
  | .data _ offset _ => collectAll offset
  | _ => []

/-- The type definitions at or below the nodes of a list. -/
def collectAll : List Node → List TypeDef
  | [] => []
  | node :: nodes => collect node ++ collectAll nodes

end

/-- The definition that a reference denotes: the numbered one, or the first of that name. -/
def find? (types : List TypeDef) : Index → Option TypeDef
  | .number n => types[n.toU32]?
  | .identifier id => types.find? fun t => t.id.map Identifier.value == some id.value

/-- The signature with a reference replaced by what it denotes. -/
def inlineRef (types : List TypeDef) : SignatureRef → Except ResolveError SignatureRef
  | .inline s => .ok (.inline s)
  | .ref index =>
    match find? types index with
    | some t => .ok (.inline t.functype)
    | none => .error (.unknownType index.display)

/-- The function import with its signature inlined. -/
def inlineFuncImport (types : List TypeDef) (d : FuncImport) : Except ResolveError FuncImport := do
  return { d with signature := ← inlineRef types d.signature }

mutual

/-- Inlines every reference at or below a node; the first that denotes nothing is reported. -/
def inline (types : List TypeDef) : Node → Except ResolveError Node
  | .program body => return .program (← inlineAll types body)
  | .module id fields metadata => return .module id (← inlineAll types fields) metadata
  | .func name sig locals body metadata => do
    let sig ← inlineRef types sig
    return .func name sig locals (← inlineAll types body) metadata
  | .instr id object args memArg => return .instr id object (← inlineAll types args) memArg
  | .block label body result => return .block label (← inlineAll types body) result
  | .loop label result body => return .loop label result (← inlineAll types body)
  | .ifElse label result consequent alternate => do
    let consequent ← inlineAll types consequent
    let alternate ← inlineAll types alternate
    return .ifElse label result consequent alternate
  | .callIndirect sig => return .callIndirect (← inlineRef types sig)
  | .global type init name => return .global type (← inlineAll types init) name
  | .elem target offset funcs => return .elem target (← inlineAll types offset) funcs
  | .data target offset init => return .data target (← inlineAll types offset) init
  | .funcImport d => return .funcImport (← inlineFuncImport types d)
  | .moduleImport decl =>
    match decl.descr with
    | .func d => return .moduleImport { decl with descr := .func (← inlineFuncImport types d) }
    | _ => return .moduleImport decl
  | node => return node

/-- Inlines every reference at or below the nodes of a list. -/
def inlineAll (types : List TypeDef) : List Node → Except ResolveError (List Node)
  | [] => return []
  | node :: nodes => do
    let node ← inline types node
    let nodes ← inlineAll types nodes
    return node :: nodes

end

end TypeReference

/-- The module with every type reference replaced by the signature that it denotes. -/
def Module.inlineTypes (m : Module) : Except ResolveError Module := do
  let fields ← TypeReference.inlineAll (TypeReference.collectAll m.fields) m.fields
  return { m with fields }

end WasmEngine
