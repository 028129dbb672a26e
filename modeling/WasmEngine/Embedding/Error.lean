import WasmEngine.Binary.DecodeError
import WasmEngine.Machine.Executor
import WasmEngine.Typing.Validate
import WasmEngine.Wat.Error

/-!
# Errors of the engine

Every stage has its own errors; here they are joined, and sorted into the kinds that an embedding
tells apart.
-/

namespace WasmEngine

/-- Why a module does not fit what surrounds it. -/
inductive LinkError where
  | importKind (module name : String) (expected : ExportKind)
  | importType (module name : String)
  | i64GlobalExport
  | i64InSignature
  deriving DecidableEq, Repr

/-- The text of an error. -/
def LinkError.message : LinkError → String
  | importKind module name expected => s!"Import {module}.{name} must be a {expected.noun}"
  | importType module name => s!"Import {module}.{name} does not match the declared type"
  | i64GlobalExport => "Export of globals of type i64 is not allowed"
  | i64InSignature => "Can not call this function from JavaScript: i64 in signature."

/-- The text of an end without a result. -/
def Halt.message : Halt → String
  | fault e => e.message
  | outOfFuel => "out of fuel"

/-- The kinds of errors. -/
inductive ErrorKind where
  | format
  | compile
  | link
  | trap
  | runtime
  deriving DecidableEq, Repr

/-- The name of a kind. -/
def ErrorKind.name : ErrorKind → String
  | format => "format error"
  | compile => "compile error"
  | link => "link error"
  | trap => "trap"
  | runtime => "runtime error"

/-- An error of any stage. -/
inductive EngineError where
  | decode (error : Binary.DecodeError)
  | parse (error : Wat.ParseError)
  | compile (error : CompileError)
  | link (error : LinkError)
  | run (halt : Halt)

namespace EngineError

/-- A fault as an error. -/
def fault (e : Fault) : EngineError := run (.fault e)

/-- The kind of an error. -/
def kind : EngineError → ErrorKind
  | decode _ => .format
  | parse _ => .format
  | compile _ => .compile
  | link _ => .link
  | run (.fault e) => if e.isTrap then .trap else .runtime
  | run .outOfFuel => .runtime

/-- The text of an error. -/
def message : EngineError → String
  | decode e => e.message
  | parse e => e.message
  | compile e => e.message
  | link e => e.message
  | run h => h.message

end EngineError

end WasmEngine
