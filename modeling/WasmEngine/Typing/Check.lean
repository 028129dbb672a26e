import WasmEngine.Opcode
import WasmEngine.Typing.Context

/-!
# Checking function bodies

A body is run on a stack of types.  The body of a block starts from an empty stack and has to end
with exactly the result of the block.  The first error ends the check of a function.
-/

namespace WasmEngine

/-- Why a function body has no type. -/
inductive TypeError where
  | operand (error : OperandError)
  | undefinedFunction (index : Nat)
  | noTable
  | noMemory
  | unresolvedIdentifier (name : String)
  | missingIndex (instruction : String)
  | unknownLocal (index : Nat)
  | unknownGlobal (index : Nat)
  | unknownLabel (depth : Nat)
  | immutableGlobal
  | noDefaultLabel
  | labelMismatch (depth position : Nat)
  | unknownInstruction (name : String)
  | unexpectedNode (kind : NodeKind)
  | inConsequent (error : TypeError)
  | inAlternate (error : TypeError)
  deriving DecidableEq, Repr

/-- The text of an error. -/
def TypeError.message : TypeError → String
  | operand e => e.message
  | undefinedFunction index => s!"Call to undefined function index {index}."
  | noTable => "Module does not have table 0"
  | noMemory => "Module does not have memory 0"
  | unresolvedIdentifier name => s!"Unresolved identifier ${name} reached the type checker."
  | missingIndex instruction => s!"Missing index argument for {instruction}."
  | unknownLocal index => s!"Function does not have local {index}"
  | unknownGlobal index => s!"Module does not have global {index}"
  | unknownLabel depth => s!"Function does not have label {depth}"
  | immutableGlobal => "global is immutable"
  | noDefaultLabel => "br_table requires a default label"
  | labelMismatch depth position =>
    s!"br_table index {depth} at position {position} has mismatching result type."
  | unknownInstruction name => s!"Unknown instruction {name}."
  | unexpectedNode kind => s!"Unexpected {kind.name} in instruction sequence."
  | inConsequent e => "Type mismatch in if consequent: " ++ e.message
  | inAlternate e => "Type mismatch in if alternate: " ++ e.message

/-- The outcome of a check. -/
abbrev Typed (α : Type) := Except TypeError α

namespace Typing

/-- A stack operation as a check. -/
def operands {α : Type} (r : Except OperandError α) : Typed α :=
  match r with
  | .ok a => .ok a
  | .error e => .error (.operand e)

/-- What a look-up found, or an error. -/
def found {α : Type} (r : Option α) (e : TypeError) : Typed α :=
  match r with
  | some a => .ok a
  | none => .error e

/-- The position that a reference denotes. -/
def resolved : Index → Typed Nat
  | .number n => .ok n.toU32
  | .identifier id => .error (.unresolvedIdentifier id.value)

/-- The position that an immediate of an instruction denotes. -/
def indexArg (instruction : String) (args : List Node) (position : Nat) : Typed Nat :=
  match args[position]? with
  | some (.number n) => .ok n.toU32
  | some (.identifier id) => .error (.unresolvedIdentifier id.value)
  | _ => .error (.missingIndex instruction)

/-- The types that a branch to a label carries. -/
def labelTypes (frame : FuncFrame) (depth : Nat) : Typed (List Valtype) :=
  found (frame.label? depth) (.unknownLabel depth)

/-- Checks that the module has a memory. -/
def requireMemory (ctx : ModuleContext) : Typed Unit :=
  if (ctx.memory? 0).isSome then .ok () else .error .noMemory

/-- Applies a function type to a stack. -/
def apply (stack : OperandStack) (type : FuncType) : Typed OperandStack := do
  let stack ← operands (stack.popAll type.args)
  return stack.pushAll type.result

/-- Checks that the labels before the default of a branch table carry the types of the default. -/
def checkTargets (frame : FuncFrame) (types : List Valtype) (args : List Node) :
    List Nat → Typed Unit
  | [] => .ok ()
  | position :: positions => do
    let depth ← indexArg "br_table" args position
    let target ← labelTypes frame depth
    if target = types then checkTargets frame types args positions
    else throw (.labelMismatch depth position)

/-- Checks an instruction on a type. -/
def checkNumeric (ctx : ModuleContext) (t : Valtype) (id : String) (stack : OperandStack) :
    Typed OperandStack := do
  if Text.beginsWith "load" id || Text.beginsWith "store" id then
    requireMemory ctx
  let type ← found (Signatures.numeric? t id) (.unknownInstruction (mnemonic (some t) id))
  apply stack type

/-- Checks an instruction that works on no type of its own. -/
def checkPlain (ctx : ModuleContext) (frame : FuncFrame) (id : String) (args : List Node)
    (stack : OperandStack) : Typed OperandStack :=
  match id with
  | "nop" => .ok stack
  | "end" => .ok stack
  | "unreachable" => .ok .unreachable
  | "drop" => do
    let (_, stack) ← operands (stack.pop .any)
    return stack
  | "select" => do
    let (_, stack) ← operands (stack.pop (.val .i32))
    let (first, stack) ← operands (stack.pop .any)
    let (second, stack) ← operands (stack.pop first)
    return stack.push (if first = .any then second else first)
  | "get_local" => do
    let i ← indexArg id args 0
    let t ← found (frame.local? i) (.unknownLocal i)
    return stack.push (.val t)
  | "set_local" => do
    let i ← indexArg id args 0
    let t ← found (frame.local? i) (.unknownLocal i)
    let (_, stack) ← operands (stack.pop (.val t))
    return stack
  | "tee_local" => do
    let i ← indexArg id args 0
    let t ← found (frame.local? i) (.unknownLocal i)
    let (_, stack) ← operands (stack.pop (.val t))
    return stack.push (.val t)
  | "get_global" => do
    let i ← indexArg id args 0
    let g ← found (ctx.global? i) (.unknownGlobal i)
    return stack.push (.val g.valtype)
  | "set_global" => do
    let i ← indexArg id args 0
    let g ← found (ctx.global? i) (.unknownGlobal i)
    if g.mutability = .const then
      throw .immutableGlobal
    let (_, stack) ← operands (stack.pop (.val g.valtype))
    return stack
  | "br" => do
    let types ← labelTypes frame (← indexArg id args 0)
    let _ ← operands (stack.popAll types)
    return .unreachable
  | "br_if" => do
    let types ← labelTypes frame (← indexArg id args 0)
    let (_, stack) ← operands (stack.pop (.val .i32))
    let stack ← operands (stack.popAll types)
    return stack.pushAll types
  | "br_table" => do
    if args.isEmpty then
      throw .noDefaultLabel
    let types ← labelTypes frame (← indexArg id args (args.length - 1))
    checkTargets frame types args (List.range (args.length - 1))
    let (_, stack) ← operands (stack.pop (.val .i32))
    let _ ← operands (stack.popAll types)
    return .unreachable
  | "return" => do
    let _ ← operands (stack.popAll frame.returns)
    return .unreachable
  | "current_memory" => do
    requireMemory ctx
    return stack.push (.val .i32)
  | "grow_memory" => do
    requireMemory ctx
    let (_, stack) ← operands (stack.pop (.val .i32))
    return stack.push (.val .i32)
  | _ => .error (.unknownInstruction id)

/-- The error of the first arm of a condition. -/
def asConsequent {α : Type} : Typed α → Typed α
  | .error e => .error (.inConsequent e)
  | r => r

/-- The error of the second arm of a condition. -/
def asAlternate {α : Type} : Typed α → Typed α
  | .error e => .error (.inAlternate e)
  | r => r

mutual

/-- The stack after an instruction. -/
def checkInstruction (ctx : ModuleContext) (frame : FuncFrame) (stack : OperandStack) :
    Node → Typed OperandStack
  | .instr id (some t) _ _ => checkNumeric ctx t id stack
  | .instr id none args _ => checkPlain ctx frame id args stack
  | .block _ body result => do
    let inner ← checkSequence ctx (frame.addLabel result.toList) .empty body
    operands (inner.expectExactly result.toList)
    return stack.pushAll result.toList
  | .loop _ result body => do
    let inner ← checkSequence ctx (frame.addLabel []) .empty body
    operands (inner.expectExactly result.toList)
    return stack.pushAll result.toList
  | .ifElse _ result consequent alternate => do
    let (_, stack) ← operands (stack.pop (.val .i32))
    asConsequent do
      let inner ← checkSequence ctx (frame.addLabel result.toList) .empty consequent
      operands (inner.expectExactly result.toList)
    asAlternate do
      let inner ← checkSequence ctx (frame.addLabel result.toList) .empty alternate
      operands (inner.expectExactly result.toList)
    return stack.pushAll result.toList
  | .call index => do
    let i ← resolved index
    let callee ← found (ctx.func? i) (.undefinedFunction i)
    apply stack callee
  | .callIndirect sig => do
    if (ctx.table? 0).isNone then
      throw .noTable
    let callee := ctx.funcType sig
    let (_, stack) ← operands (stack.pop (.val .i32))
    apply stack callee
  | node => .error (.unexpectedNode node.kind)

/-- The stack after a sequence of instructions. -/
def checkSequence (ctx : ModuleContext) (frame : FuncFrame) (stack : OperandStack) :
    List Node → Typed OperandStack
  | [] => .ok stack
  | node :: nodes => do
    let stack ← checkInstruction ctx frame stack node
    checkSequence ctx frame stack nodes

end

/-- The context of the body of a function. -/
def bodyFrame (ctx : ModuleContext) (f : Func) : FuncFrame :=
  let type := ctx.funcType f.signature
  { FuncFrame.ofFunction f.name.value type.result with
    locals := type.args ++ f.locals.map Param.valtype }

/-- Checks that the body of a function gives its results. -/
def checkFunction (ctx : ModuleContext) (f : Func) : Typed Unit := do
  let stack ← checkSequence ctx (bodyFrame ctx f) .empty f.body
  operands (stack.expectExactly (ctx.funcType f.signature).result)

/-- The errors of the functions of a module, at most one for each. -/
def checkFunctions (ctx : ModuleContext) (m : Module) : List TypeError :=
  (m.fields.filterMap Node.func?).filterMap fun f =>
    match checkFunction ctx f with
    | .ok () => none
    | .error e => some e

end Typing

end WasmEngine
