import WasmEngine.Syntax.Node

/-!
# Checked construction

A list of instructions holds instructions only, arguments are expressions, and a module holds
module fields only.  These constructors refuse a part of the wrong kind and name it.
-/

namespace WasmEngine

/-- A node of the wrong kind inside a list. -/
structure BuildError where
  node : String
  field : String
  expected : String
  actual : NodeKind
  deriving DecidableEq, Repr

/-- The text of an error. -/
def BuildError.message (e : BuildError) : String :=
  s!"{e.node}: {e.field} must contain {e.expected} nodes, found {e.actual.name}"

namespace Node

/-- Refuses the first node that is not in a category. -/
def requireAll (nodes : List Node) (node field : String) (c : Category) : Except BuildError Unit :=
  match nodes.find? fun n => !n.kind.isIn c with
  | some bad => .error ⟨node, field, c.name, bad.kind⟩
  | none => .ok ()

/-- Refuses the first node that is no module field. -/
def requireFields (fields : List Node) : Except BuildError Unit :=
  match fields.find? fun n => !n.kind.isModuleField with
  | some bad => .error ⟨"Module", "fields", "module field", bad.kind⟩
  | none => .ok ()

/-- The node made again from its parts, if each of them may stand where it does.  Parts that a
constructor does not take are lost: the metadata of a function, the name of an import, the arguments
of a memory access, and the spelling of a number or name. -/
def rebuild : Node → Except BuildError Node
  | instr id (some object) _ (some memArg) => .ok (instr id (some object) [] (some memArg))
  | instr id object args _ => do
    requireAll args "Instr" "args" .expression
    return instr id object args none
  | block label body result => do
    requireAll body "BlockInstruction" "instr" .instruction
    return block label body result
  | loop label result body => do
    requireAll body "LoopInstruction" "instr" .instruction
    return loop label result body
  | ifElse label result consequent alternate => do
    requireAll consequent "IfInstruction" "consequent" .instruction
    requireAll alternate "IfInstruction" "alternate" .instruction
    return ifElse label result consequent alternate
  | func name sig locals body _ => do
    requireAll body "Func" "body" .instruction
    return func name sig locals body none
  | global type init name => do
    requireAll init "Global" "init" .instruction
    return global type init name
  | elem target offset funcs => do
    requireAll offset "Elem" "offset" .instruction
    return elem target offset funcs
  | data target offset init => do
    requireAll offset "Data" "offset" .instruction
    return data target offset init
  | module id fields metadata => do
    requireFields fields
    return module id fields metadata
  | moduleImport decl => .ok (moduleImport { decl with id := none })
  | table t => .ok (table { t with elementType := "anyfunc" })
  | float l =>
    match l.bits with
    | .f32 b => .ok (float (.ofF32 b l.raw))
    | .f64 b => .ok (float (.ofF64 b l.raw))
  | number n => .ok (number (.ofInt n.value))
  | identifier id => .ok (identifier (.ofString id.value))
  | node => .ok node

end Node

end WasmEngine
