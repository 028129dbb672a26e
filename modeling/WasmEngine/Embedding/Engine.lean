import WasmEngine.Binary.Sections
import WasmEngine.Embedding.Config
import WasmEngine.Embedding.Error
import WasmEngine.Wat.Parse

/-!
# Loading modules

From bytes or text to a module that may be instantiated.
-/

namespace WasmEngine.Engine

/-- The program of a binary module. -/
def decode (config : Config) (bytes : List UInt8) : Except EngineError Program :=
  (Binary.decode config.decoder bytes).mapError .decode

/-- The program of a text. -/
def parse (source : String) : Except EngineError Program := (Wat.parse source).mapError .parse

/-- Checks a program as it was read. -/
def validate (p : Program) : Except EngineError Unit :=
  match p.compile with
  | .ok _ => .ok ()
  | .error e => .error (.compile e)

/-- The first module of a program that was checked. -/
def compileProgram (p : Program) : Except EngineError Module :=
  match p.compile with
  | .error e => .error (.compile e)
  | .ok p =>
    match p.module? with
    | some m => .ok m
    | none => .error (.compile .noModule)

/-- The checked module of a binary. -/
def compile (config : Config) (bytes : List UInt8) : Except EngineError Module := do
  compileProgram (← decode config bytes)

/-- The checked module of a text. -/
def compileSource (source : String) : Except EngineError Module := do
  compileProgram (← parse source)

end WasmEngine.Engine
