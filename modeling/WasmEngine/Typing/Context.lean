import WasmEngine.Syntax.Node
import WasmEngine.Syntax.Types

/-!
# What a body is checked against

`ModuleContext` lists the functions, types, globals, memories and tables of a module in the order of
its fields, so that a position in a list is the index that code uses.  `FuncFrame` is the part of the
context that changes inside a function: its locals and the labels around an instruction.
-/

namespace WasmEngine

/-- The declarations of a module by index. -/
structure ModuleContext where
  funcs : List FuncType
  /-- Names of functions with their indices, the latest first. -/
  funcNames : List (String × Nat)
  types : List FuncType
  globals : List GlobalType
  /-- Names of globals with their indices, the latest first. -/
  globalNames : List (String × Nat)
  mems : List Limits
  tables : List Limits
  start : Option Index

namespace ModuleContext

/-- The context that declares nothing. -/
def empty : ModuleContext := ⟨[], [], [], [], [], [], [], none⟩

/-- The type of a signature; a reference denotes one of the types declared so far, and one that
denotes none is the type of a function without parameters and results. -/
def funcType (ctx : ModuleContext) : SignatureRef → FuncType
  | .inline s => s.funcType
  | .ref index => (index.number?.bind fun i => ctx.types[i]?).getD ⟨[], []⟩

/-- Declares a function. -/
def addFunction (ctx : ModuleContext) (name : Identifier) (type : FuncType) : ModuleContext :=
  { ctx with
    funcs := ctx.funcs ++ [type]
    funcNames := (name.value, ctx.funcs.length) :: ctx.funcNames }

/-- Declares a global. -/
def addGlobal (ctx : ModuleContext) (name : Option Identifier) (type : GlobalType) :
    ModuleContext :=
  { ctx with
    globals := ctx.globals ++ [type]
    globalNames :=
      match name with
      | some id => (id.value, ctx.globals.length) :: ctx.globalNames
      | none => ctx.globalNames }

/-- Declares a memory. -/
def addMemory (ctx : ModuleContext) (limits : Limits) : ModuleContext :=
  { ctx with mems := ctx.mems ++ [limits] }

/-- Declares a table. -/
def addTable (ctx : ModuleContext) (limits : Limits) : ModuleContext :=
  { ctx with tables := ctx.tables ++ [limits] }

/-- Declares what an import brings in. -/
def addImport (ctx : ModuleContext) (decl : ModuleImport) : ModuleContext :=
  match decl.descr with
  | .func d => ctx.addFunction d.id (ctx.funcType d.signature)
  | .global type => ctx.addGlobal decl.id type
  | .memory m => ctx.addMemory m.limits
  | .table t => ctx.addTable t.limits

/-- Declares what a field of a module brings in. -/
def addField (ctx : ModuleContext) : Node → ModuleContext
  | .start index => { ctx with start := some index }
  | .typeDef t => { ctx with types := ctx.types ++ [t.functype.funcType] }
  | .func name sig _ _ _ => ctx.addFunction name (ctx.funcType sig)
  | .global type _ name => ctx.addGlobal name type
  | .moduleImport decl => ctx.addImport decl
  | .memory m => ctx.addMemory m.limits
  | .table t => ctx.addTable t.limits
  | _ => ctx

/-- The declarations of a module. -/
def ofModule (m : Module) : ModuleContext := m.fields.foldl addField empty

/-- The type of a function. -/
def func? (ctx : ModuleContext) (i : Nat) : Option FuncType := ctx.funcs[i]?

/-- A type definition. -/
def type? (ctx : ModuleContext) (i : Nat) : Option FuncType := ctx.types[i]?

/-- The type of a global. -/
def global? (ctx : ModuleContext) (i : Nat) : Option GlobalType := ctx.globals[i]?

/-- The limits of a memory. -/
def memory? (ctx : ModuleContext) (i : Nat) : Option Limits := ctx.mems[i]?

/-- The limits of a table. -/
def table? (ctx : ModuleContext) (i : Nat) : Option Limits := ctx.tables[i]?

/-- The index of the last function of a name. -/
def functionOffset? (ctx : ModuleContext) (name : String) : Option Nat := ctx.funcNames.lookup name

/-- The index of the last global of a name. -/
def globalOffset? (ctx : ModuleContext) (name : String) : Option Nat := ctx.globalNames.lookup name

/-- Whether a global exists and may be assigned. -/
def isMutable (ctx : ModuleContext) (i : Nat) : Bool :=
  (ctx.global? i).any fun g => g.mutability == .var

end ModuleContext

/-- The context of an instruction inside a function. -/
structure FuncFrame where
  name : String
  locals : List Valtype
  /-- The types that a branch to each label carries, the innermost label first. -/
  labels : List (List Valtype)
  returns : List Valtype

namespace FuncFrame

/-- The context of a body: its only label is the function itself. -/
def ofFunction (name : String) (returns : List Valtype) : FuncFrame := ⟨name, [], [returns], returns⟩

/-- Declares a local. -/
def addLocal (frame : FuncFrame) (t : Valtype) : FuncFrame :=
  { frame with locals := frame.locals ++ [t] }

/-- Opens a label. -/
def addLabel (frame : FuncFrame) (types : List Valtype) : FuncFrame :=
  { frame with labels := types :: frame.labels }

/-- Closes the innermost label. -/
def popLabel (frame : FuncFrame) : FuncFrame := { frame with labels := frame.labels.tail }

/-- The type of a local. -/
def local? (frame : FuncFrame) (i : Nat) : Option Valtype := frame.locals[i]?

/-- The types that a branch carries out of so many labels. -/
def label? (frame : FuncFrame) (depth : Nat) : Option (List Valtype) := frame.labels[depth]?

end FuncFrame

/-! ## Operand stacks of types

The abstract stack on which a body is checked.  After an instruction that never continues, the stack
is empty and unreachable: it then gives operands of any type without running out.
-/

/-- The type of an operand.  In code that is never reached it may be unknown. -/
inductive OperandType where
  | val (type : Valtype)
  | any
  deriving DecidableEq, Repr

namespace OperandType

/-- The type as messages show it. -/
def display : OperandType → String
  | val t => t.name
  | any => "ANY"

/-- Whether one type can stand for the other. -/
def fits : OperandType → OperandType → Bool
  | any, _ => true
  | _, any => true
  | val s, val t => s == t

end OperandType

/-- Why an operand stack does not have the shape that is asked for. -/
inductive OperandError where
  | mismatch (expected : OperandType) (found : Option OperandType)
  | leftover (items : List OperandType)
  deriving DecidableEq, Repr

/-- The text of an error. -/
def OperandError.message : OperandError → String
  | mismatch expected found =>
    let found := found.elim "none" OperandType.display
    s!"Expected type {expected.display} but got {found}."
  | leftover items =>
    let items := ", ".intercalate (items.map OperandType.display)
    s!"Stack contains additional values: [{items}]."

/-- A stack of operand types, the top first.  Below an unreachable stack lies anything. -/
structure OperandStack where
  items : List OperandType
  reachable : Bool
  deriving DecidableEq, Repr

namespace OperandStack

/-- The stack at the start of a body. -/
def empty : OperandStack := ⟨[], true⟩

/-- The stack after an instruction that never continues. -/
def unreachable : OperandStack := ⟨[], false⟩

/-- Puts an operand on the stack. -/
def push (s : OperandStack) (t : OperandType) : OperandStack := { s with items := t :: s.items }

/-- Puts operands of known types on the stack, the last one on top. -/
def pushAll (s : OperandStack) (ts : List Valtype) : OperandStack :=
  { s with items := (ts.map OperandType.val).reverse ++ s.items }

/-- Takes an operand of a type off the stack. -/
def pop (s : OperandStack) (expected : OperandType) :
    Except OperandError (OperandType × OperandStack) :=
  match s.items with
  | found :: items =>
    if expected.fits found then .ok (found, { s with items })
    else .error (.mismatch expected (some found))
  | [] => if s.reachable then .error (.mismatch expected none) else .ok (.any, s)

/-- Takes operands off the stack, the first of the list first. -/
def popEach (s : OperandStack) : List Valtype → Except OperandError OperandStack
  | [] => .ok s
  | t :: ts =>
    match s.pop (.val t) with
    | .ok (_, s) => s.popEach ts
    | .error e => .error e

/-- Takes operands off the stack, the last of the list first. -/
def popAll (s : OperandStack) (ts : List Valtype) : Except OperandError OperandStack :=
  s.popEach ts.reverse

/-- Checks that a stack holds the operands of a list and no others. -/
def expectExactly (s : OperandStack) (ts : List Valtype) : Except OperandError Unit :=
  match s.popAll ts with
  | .ok s => if s.items.isEmpty then .ok () else .error (.leftover s.items.reverse)
  | .error e => .error e

end OperandStack

end WasmEngine
