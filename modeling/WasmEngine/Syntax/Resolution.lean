import WasmEngine.Syntax.TypeReference

/-!
# Resolving names

Every name in an index position is replaced by a number.  Functions, globals, memories and tables are
numbered in the order of the fields, imports and definitions together; locals by parameters, then
locals; labels by the number of enclosing constructs in between.  The first of several equal names
counts, and the innermost of several equal labels.
-/

namespace WasmEngine

/-- The names of the module-level spaces by position; a position may have no name. -/
structure Namespaces where
  functions : List (Option String)
  globals : List (Option String)
  memories : List (Option String)
  tables : List (Option String)

/-- The first position that has a name. -/
def positionOf? (names : List (Option String)) (name : String) : Option Nat :=
  names.findIdx? (· == some name)

namespace Namespaces

/-- No definitions. -/
def empty : Namespaces := ⟨[], [], [], []⟩

/-- The names of what one field adds to the spaces. -/
def ofField : Node → Namespaces
  | .moduleImport decl =>
    match decl.descr with
    | .func d => { empty with functions := [some d.id.value] }
    | .global _ => { empty with globals := [decl.id.map Identifier.value] }
    | .memory m => { empty with memories := [m.id.map Identifier.value] }
    | .table t => { empty with tables := [t.name.map Identifier.value] }
  | .func name .. => { empty with functions := [some name.value] }
  | .global _ _ name => { empty with globals := [name.map Identifier.value] }
  | .memory m => { empty with memories := [m.id.map Identifier.value] }
  | .table t => { empty with tables := [t.name.map Identifier.value] }
  | _ => empty

/-- The spaces of two lists of fields, one after the other. -/
def append (a b : Namespaces) : Namespaces :=
  ⟨a.functions ++ b.functions, a.globals ++ b.globals, a.memories ++ b.memories, a.tables ++ b.tables⟩

/-- The spaces of a list of fields. -/
def ofFields (fields : List Node) : Namespaces :=
  fields.foldr (fun field rest => (ofField field).append rest) empty

/-- The names of a module-level space. -/
def names (s : Namespaces) : Space → List (Option String)
  | .function => s.functions
  | .global => s.globals
  | .memory => s.memories
  | .table => s.tables
  | .local => []
  | .label => []

end Namespaces

/-- The names that an instruction can refer to: those of the module, the parameters and locals of
the function, and the labels around the instruction, innermost first. -/
structure Scope where
  spaces : Namespaces
  locals : List (Option String)
  labels : List String

namespace Scope

/-- The number of a name in a space.  The program counts in 32 bits, so that this is what it counts in spaces of at
most `2 ^ 32` names: a larger one takes more than a hundred gigabytes of nodes, and its numbers would start again
from zero. -/
def position? (s : Scope) (space : Space) (name : String) : Option Nat :=
  match space with
  | .local => positionOf? s.locals name
  | .label => s.labels.findIdx? (· == name)
  | _ => positionOf? (s.spaces.names space) name

/-- The literal of the number of a name. -/
def number (s : Scope) (space : Space) (name : String) : Except ResolveError NumberLiteral :=
  match s.position? space name with
  | some n => .ok (.ofInt n)
  | none => .error (.unresolvedIdentifier space name)

/-- A reference with its name replaced. -/
def index (s : Scope) (space : Space) : Index → Except ResolveError Index
  | .number n => .ok (.number n)
  | .identifier id => return .number (← s.number space id.value)

/-- References with their names replaced. -/
def indices (s : Scope) (space : Space) (is : List Index) : Except ResolveError (List Index) :=
  is.mapM (s.index space)

/-- An argument with its name replaced; arguments that are no names stay. -/
def arg (s : Scope) (space : Space) : Node → Except ResolveError Node
  | .identifier id => return .number (← s.number space id.value)
  | node => .ok node

/-- Replaces the name in the first argument. -/
def firstArg (s : Scope) (space : Space) : List Node → Except ResolveError (List Node)
  | [] => .ok []
  | node :: nodes => return (← s.arg space node) :: nodes

/-- The arguments of a plain instruction with the names in index positions replaced. -/
def args (s : Scope) (id : String) (args : List Node) : Except ResolveError (List Node) :=
  match id with
  | "get_local" | "set_local" | "tee_local" => s.firstArg .local args
  | "get_global" | "set_global" => s.firstArg .global args
  | "br" | "br_if" | "br_table" => args.mapM (s.arg .label)
  | _ => .ok args

/-- The scope inside a labelled construct. -/
def enter (s : Scope) (label : Identifier) : Scope := { s with labels := label.value :: s.labels }

mutual

/-- An instruction with its names replaced. -/
def instr (s : Scope) : Node → Except ResolveError Node
  | .instr id object args memArg => return .instr id object (← s.args id args) memArg
  | .call i => return .call (← s.index .function i)
  | .block label body result => return .block label (← (s.enter label).body body) result
  | .loop label result body => return .loop label result (← (s.enter label).body body)
  | .ifElse label result consequent alternate => do
    let consequent ← (s.enter label).body consequent
    let alternate ← (s.enter label).body alternate
    return .ifElse label result consequent alternate
  | node => return node

/-- A sequence of instructions with its names replaced. -/
def body (s : Scope) : List Node → Except ResolveError (List Node)
  | [] => return []
  | node :: nodes => do
    let node ← s.instr node
    let nodes ← s.body nodes
    return node :: nodes

end

/-- The names of the parameters and locals of a function; a signature given by reference names none. -/
def localNames (sig : SignatureRef) (locals : List Param) : List (Option String) :=
  match sig with
  | .inline s => (s.params ++ locals).map Param.id
  | .ref _ => locals.map Param.id

/-- The space of an export. -/
def exportSpace : ExportKind → Space
  | .func => .function
  | .global => .global
  | .memory => .memory
  | .table => .table

/-- A field with its names replaced, in a scope without locals and labels. -/
def field (s : Scope) : Node → Except ResolveError Node
  | .func name sig locals body metadata =>
    return .func name sig locals (← { s with locals := localNames sig locals }.body body) metadata
  | .start i => return .start (← s.index .function i)
  | .moduleExport e => do
    let id ← s.index (exportSpace e.descr.kind) e.descr.id
    return .moduleExport { e with descr := { e.descr with id } }
  | .global type init name => return .global type (← s.body init) name
  | .table t => return .table { t with elements := ← s.indices .function t.elements }
  | .elem target offset funcs => do
    let target ← s.index .table target
    let offset ← s.body offset
    let funcs ← s.indices .function funcs
    return .elem target offset funcs
  | .data target offset init => do
    let target ← s.index .memory target
    let offset ← s.body offset
    return .data target offset init
  | node => return node

end Scope

/-- The module with every name in an index position replaced by its number. -/
def Module.resolveNames (m : Module) : Except ResolveError Module := do
  let scope : Scope := ⟨Namespaces.ofFields m.fields, [], []⟩
  return { m with fields := ← m.fields.mapM scope.field }

/-- The module with type references inlined and names resolved. -/
def Module.resolve (m : Module) : Except ResolveError Module := do
  (← m.inlineTypes).resolveNames

/-- The program with all its modules resolved. -/
def Program.resolve (p : Program) : Except ResolveError Program := do
  return ⟨← Program.mapModules Module.resolve p.body⟩

end WasmEngine
