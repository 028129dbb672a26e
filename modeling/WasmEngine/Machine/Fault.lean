import WasmEngine.Syntax.Node

/-!
# Why a run ends early

A `Trap` is a failure that the instruction set defines.  The other faults are failures of the
embedding, or arise only in a program that was not checked.
-/

namespace WasmEngine

/-- A failure that the instruction set defines. -/
inductive Trap where
  | unreachable
  | outOfBounds
  | divideByZero
  | integerOverflow
  | invalidConversion
  | undefinedElement
  | indirectCallTypeMismatch
  deriving DecidableEq, Repr

/-- The name of a trap. -/
def Trap.name : Trap → String
  | unreachable => "Unreachable"
  | outOfBounds => "OutOfBounds"
  | divideByZero => "DivideByZero"
  | integerOverflow => "IntegerOverflow"
  | invalidConversion => "InvalidConversion"
  | undefinedElement => "UndefinedElement"
  | indirectCallTypeMismatch => "IndirectCallTypeMismatch"

/-- The trap of a name. -/
def Trap.ofName? (s : String) : Option Trap :=
  [unreachable, outOfBounds, divideByZero, integerOverflow, invalidConversion, undefinedElement,
    indirectCallTypeMismatch].find? (·.name == s)

/-- The text of a trap. -/
def Trap.message : Trap → String
  | unreachable => "unreachable"
  | outOfBounds => "out of bounds memory access"
  | divideByZero => "integer divide by zero"
  | integerOverflow => "integer overflow"
  | invalidConversion => "invalid conversion to integer"
  | undefinedElement => "undefined element"
  | indirectCallTypeMismatch => "indirect call type mismatch"

/-- The word for the entries of a kind. -/
def ExportKind.noun : ExportKind → String
  | func => "function"
  | global => "global"
  | memory => "memory"
  | table => "table"

/-- One step into a nested sequence: the position of a construct, and which of its sequences. -/
inductive Step where
  | block (position : Nat)
  | loop (position : Nat)
  | consequent (position : Nat)
  | alternate (position : Nat)
  deriving DecidableEq, Repr

namespace Step

/-- The position of the construct in the sequence around it. -/
def position : Step → Nat
  | block i | loop i | consequent i | alternate i => i

/-- The step as messages show it. -/
def display : Step → String
  | block i => s!"Block({i})"
  | loop i => s!"Loop({i})"
  | consequent i => s!"Then({i})"
  | alternate i => s!"Else({i})"

end Step

/-- Why the size of a memory or the place of a segment is refused. -/
inductive SizeError where
  | initialAboveLimit (pages limit : Nat)
  | initialAboveMaximum (pages maximum : Nat)
  | maximumAboveLimit (maximum limit : Nat)
  | elementsDoNotFit
  deriving DecidableEq, Repr

/-- The text of an error. -/
def SizeError.message : SizeError → String
  | initialAboveLimit pages limit =>
    s!"Initial memory size {pages} pages exceeds maximum {limit} pages"
  | initialAboveMaximum pages maximum =>
    s!"Initial size {pages} pages exceeds specified maximum {maximum} pages"
  | maximumAboveLimit maximum limit =>
    s!"Maximum size {maximum} pages exceeds system maximum {limit} pages"
  | elementsDoNotFit => "elements segment does not fit"

/-- Why a run or an access from outside fails. -/
inductive Fault where
  | trap (kind : Trap)
  | stackUnderflow
  | typeMismatch (expected found : Valtype)
  | literalMismatch (expected : Valtype) (found : NodeKind)
  | notFloat (found : Valtype)
  | leftover (entries : Nat)
  | callStackOverflow
  | unknownMemory
  | unknownTable
  | labelNotFound (depth : Nat)
  | arityMismatch (address given expected : Nat)
  | unresolvedIdentifier (name : String)
  | noEntry (kind : ExportKind) (address : Nat)
  | noInstance (address : Nat)
  | unknownFunction (index : Nat)
  | unknownGlobal (index : Nat)
  | unknownLocal (index : Nat)
  | immutableGlobal
  | unknownInstruction (name : String)
  | noConstruct (step : Step) (function : String)
  | unknownExport (name : String)
  | notAFunction (name : String)
  | invalidConstant
  | size (error : SizeError)
  | host (text : String)
  | storeInUse
  deriving DecidableEq, Repr

namespace Fault

/-- The text of a value of another type than expected. -/
def mismatch (expected found : String) : String :=
  s!"Internal failure: expected value of type {expected} on top of the stack, type given: {found}"

/-- The text of a fault. -/
def message : Fault → String
  | trap kind => s!"Execution has been trapped: {kind.message}"
  | stackUnderflow => "Stack underflow"
  | typeMismatch expected found => mismatch expected.name found.name
  | literalMismatch expected found => mismatch (expected.name ++ " literal") found.name
  | notFloat found => mismatch "f32 or f64" found.name
  | leftover entries => mismatch "an empty stack after return" s!"{entries} entries"
  | callStackOverflow => "Maximum call stack depth reached"
  | unknownMemory => "unknown memory"
  | unknownTable => "unknown table"
  | labelNotFound depth => s!"Label {depth} not found on the stack"
  | arityMismatch address given expected =>
    s!"Function {address} called with {given} arguments but {expected} expected"
  | unresolvedIdentifier name =>
    s!"Internal failure: unresolved identifier ${name} reached the interpreter"
  | noEntry kind address => s!"Invalid address: no {kind.noun} at address {address}"
  | noInstance address => s!"Invalid address: no module instance at address {address}"
  | unknownFunction index => s!"No function was found in module at address {index}"
  | unknownGlobal index => s!"Module does not have global {index}"
  | unknownLocal index => s!"Function does not have local {index}"
  | immutableGlobal => "global is immutable"
  | unknownInstruction name => s!"Unknown instruction {name}"
  | noConstruct step function =>
    s!"Unknown instruction no structured instruction at {step.display} in {function}"
  | unknownExport name => s!"Unknown export {name}"
  | notAFunction name => s!"Export {name} is not a function"
  | invalidConstant => "data segment offsets can only be specified as constants or globals"
  | size error => s!"Memory error: {error.message}"
  | host text => s!"Host function failed: {text}"
  | storeInUse =>
    "Store is in use: a host function cannot re-enter the store it was called from"

/-- Whether a fault is a trap. -/
def isTrap : Fault → Bool
  | trap _ => true
  | _ => false

end Fault

end WasmEngine
